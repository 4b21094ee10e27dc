import Ifj24.Number.Double

/-!
Reading numbers from text. An integer is an optional sign and decimal digits. A
double may also be written with a point and an exponent, in hexadecimal with a
binary exponent, with underscores between digits, or by name. An integer of 64
bits may also have its base told by its first characters.
-/

namespace Ifj24.Number

/-- The value of a digit in the given base, letters of either case included. -/
def digit? (base : Nat) (b : UInt8) : Option Nat :=
  let n := b.toNat
  let value? : Option Nat :=
    if 0x30 ≤ n ∧ n ≤ 0x39 then some (n - 0x30)
    else if 0x61 ≤ n ∧ n ≤ 0x66 then some (n - 0x61 + 10)
    else if 0x41 ≤ n ∧ n ≤ 0x46 then some (n - 0x41 + 10)
    else none
  value?.filter (· < base)

def isDecimal (b : UInt8) : Bool := (digit? 10 b).isSome

def lower (b : UInt8) : UInt8 := if 0x41 ≤ b && b ≤ 0x5A then b + 0x20 else b

/-- Whether the text starts with a minus, and the text after an optional sign. -/
def splitSign : Bytes → Bool × Bytes
  | 0x2D :: rest => (true, rest)
  | 0x2B :: rest => (false, rest)
  | text => (false, text)

/-- The value of a text of decimal digits; `none` if it is empty or has anything
else. -/
def readNat? (text : Bytes) : Option Nat :=
  if text.isEmpty then none
  else text.foldl (fun n? b => do return (← n?) * 10 + (← digit? 10 b)) (some 0)

/-- An integer in decimal notation that fits 64 bits. -/
def readInt64? (text : Bytes) : Option Int := do
  let (negative, digits) := splitSign text
  let n ← readNat? digits
  let value : Int := if negative then -n else n
  if -Int.pow 2 63 ≤ value ∧ value < Int.pow 2 63 then some value else none

/-- The digits of a number with an optional point, as far as they are read. -/
structure Mantissa where
  value : Nat
  places : Nat
  sawPoint : Bool
  sawDigit : Bool

/-- Reads digits and at most one point; underscores are passed over. -/
def mantissa (base : Nat) (m : Mantissa) : Bytes → Mantissa × Bytes
  | [] => (m, [])
  | c :: rest =>
    if c == Bytes.ascii '_' then mantissa base m rest
    else if c == Bytes.ascii '.' then
      if m.sawPoint then (m, c :: rest) else mantissa base { m with sawPoint := true } rest
    else
      match digit? base c with
      | some d =>
        mantissa base
          { m with
            value := m.value * base + d
            places := if m.sawPoint then m.places + 1 else 0
            sawDigit := true }
          rest
      | none => (m, c :: rest)

/-- Reads the digits of an exponent, which start with a digit; underscores are
passed over. The whole text must be used. -/
def exponentDigits? (text : Bytes) : Option Nat :=
  match text with
  | [] => none
  | c :: _ =>
    if isDecimal c then readNat? (text.filter (· != Bytes.ascii '_')) else none

/-- Reads an exponent introduced by `mark` of either case. `none` if there is
something else. -/
def exponent? (mark : UInt8) : Bytes → Option Int
  | c :: rest =>
    if lower c == mark then do
      let (negative, digits) := splitSign rest
      let n ← exponentDigits? digits
      return if negative then -n else n
    else none
  | [] => none

/-- What came before a character, as far as underscores are concerned. -/
inductive Before where
  | start
  | digit
  | underscore
  | other
  deriving DecidableEq

def underscoresFrom (hexadecimal : Bool) : Before → Bytes → Bool
  | before, [] => before ≠ .underscore
  | before, c :: rest =>
    if (digit? (if hexadecimal then 16 else 10) c).isSome then
      underscoresFrom hexadecimal .digit rest
    else if c == Bytes.ascii '_' then
      before = .digit && underscoresFrom hexadecimal .underscore rest
    else before ≠ .underscore && underscoresFrom hexadecimal .other rest

/-- Whether the underscores of a number without a sign are well placed. A base
mark counts as a digit. -/
def underscoresOk : Bytes → Bool
  | 0x30 :: b :: rest =>
    match lower b with
    | 0x78 => underscoresFrom true .digit rest
    | 0x62 | 0x6F => underscoresFrom false .digit rest
    | _ => underscoresFrom false .start (0x30 :: b :: rest)
  | text => underscoresFrom false .start text

/-- Splits off the mark of hexadecimal notation, which something must follow. -/
def splitBase : Bytes → Nat × Bytes
  | 0x30 :: x :: c :: rest => if lower x == 0x78 then (16, c :: rest) else (10, 0x30 :: x :: c :: rest)
  | text => (10, text)

def named? (negative signed : Bool) (text : Bytes) : Option Double :=
  let word := text.map lower
  if word == "inf" || word == "infinity" then some (.infinite negative)
  else if word == "nan" && !signed then some .nan
  else none

def numeral? (negative : Bool) (text : Bytes) : Option Double := do
  let (base, body) := splitBase text
  let (m, rest) := mantissa base ⟨0, 0, false, false⟩ body
  guard (m.sawDigit && underscoresOk text)
  if base = 16 then
    let e ← exponent? (Bytes.ascii 'p') rest
    return .ofScaled negative m.value 2 (e - 4 * m.places)
  else
    let e ← if rest.isEmpty then some 0 else exponent? (Bytes.ascii 'e') rest
    return .ofScaled negative m.value 10 (e - m.places)

/-- The double nearest to the number that a text denotes. `none` if the text
denotes none, or one too large for a finite double. -/
def readDouble? (text : Bytes) : Option Double := do
  let (negative, body) := splitSign text
  match named? negative (body.length < text.length) body with
  | some x => return x
  | none =>
    let x ← numeral? negative body
    guard (!(x matches .infinite _))
    return x

def natIn? (base : Nat) (text : Bytes) : Option Nat :=
  if text.isEmpty then none
  else text.foldlM (fun n b => (digit? base b).map (n * base + ·)) 0

/-- A number whose base is told by its first characters. -/
def basedNat? : Bytes → Option Nat
  | 0x30 :: mark :: rest =>
    if !rest.isEmpty && lower mark == Bytes.ascii 'b' then natIn? 2 rest
    else if !rest.isEmpty && lower mark == Bytes.ascii 'o' then natIn? 8 rest
    else if !rest.isEmpty && lower mark == Bytes.ascii 'x' then natIn? 16 rest
    else natIn? 8 (mark :: rest)
  | text => natIn? 10 text

/-- Whether an unsigned text fits 64 bits behind the given sign. -/
def fitsSigned (negative : Bool) (n : Option Nat) : Bool :=
  match n with
  | some n => if negative then n ≤ Nat.pow 2 63 else n < Nat.pow 2 63
  | none => false

def fitsUnsigned (n : Option Nat) : Bool :=
  match n with
  | some n => n < Nat.pow 2 64
  | none => false

def isInteger (text : Bytes) : Bool :=
  let (negative, rest) := splitSign text
  fitsSigned negative (basedNat? rest) || fitsUnsigned (basedNat? text)

end Ifj24.Number
