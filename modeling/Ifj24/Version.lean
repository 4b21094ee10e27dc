import Ifj24.Number.Read
import Ifj24.Text.Quoted

/-!
Semantic versions. The reader is lenient: a leading `v` is allowed, and missing
parts are zero.
-/

namespace Ifj24

structure Version where
  major : Nat
  minor : Nat
  patch : Nat
  prerelease : Bytes
  metadata : Bytes
  deriving DecidableEq, Repr

namespace Version

inductive Fault where
  | malformed
  | tooLarge (segment : Bytes)
  | leadingZero
  deriving DecidableEq, Repr

def Fault.message : Fault → Bytes
  | .malformed => "Invalid Semantic Version"
  | .tooLarge segment =>
    "Error parsing version segment: strconv.ParseUint: parsing " ++ Text.quoted segment ++
      ": value out of range"
  | .leadingZero => "Version segment starts with 0"

def isWordByte (b : UInt8) : Bool :=
  Number.isDecimal b || (0x41 ≤ b && b ≤ 0x5A) || (0x61 ≤ b && b ≤ 0x7A) || b == Bytes.ascii '-'

def words (text : Bytes) : List Bytes := Bytes.splitOn (Bytes.ascii '.') text

def areWords (text : Bytes) : Bool :=
  (words text).all fun w => !w.isEmpty && w.all isWordByte

/-- A text at the first occurrence of a byte, without it. -/
def cut (b : UInt8) (text : Bytes) : Bytes × Option Bytes :=
  match text.dropWhile (· != b) with
  | [] => (text, none)
  | _ :: rest => (text.takeWhile (· != b), some rest)

def segment (text : Bytes) : Except Fault Nat :=
  match Number.readNat? text with
  | none => .error .malformed
  | some n => if n < Nat.pow 2 64 then .ok n else .error (.tooLarge text)

def isNumber (text : Bytes) : Bool := !text.isEmpty && text.all Number.isDecimal

/-- A prerelease word that is a number has no leading zero. -/
def hasLeadingZero (word : Bytes) : Bool :=
  isNumber word && 1 < word.length && word.head? == some (Bytes.ascii '0')

def split? (text : Bytes) : Option (List Bytes × Bytes × Bytes) := do
  let (front, metadata) := cut (Bytes.ascii '+') (text.dropStart "v")
  let (core, prerelease) := cut (Bytes.ascii '-') front
  let numbers := words core
  guard (numbers.length ≤ 3 ∧ numbers.all isNumber)
  guard ((prerelease.map areWords).getD true ∧ (metadata.map areWords).getD true)
  return (numbers, prerelease.getD [], metadata.getD [])

def read (text : Bytes) : Except Fault Version := do
  let some (numbers, prerelease, metadata) := split? text | throw .malformed
  let part (i : Nat) : Except Fault Nat := ((numbers[i]?).map segment).getD (.ok 0)
  let major ← part 0
  let minor ← part 1
  let patch ← part 2
  if !prerelease.isEmpty ∧ (words prerelease).any hasLeadingZero then throw .leadingZero
  return ⟨major, minor, patch, prerelease, metadata⟩

def text (v : Version) : Bytes :=
  let tail (mark : Bytes) (part : Bytes) : Bytes := if part.isEmpty then [] else mark ++ part
  Bytes.ofNat v.major ++ "." ++ Bytes.ofNat v.minor ++ "." ++ Bytes.ofNat v.patch ++
    tail "-" v.prerelease ++ tail "+" v.metadata

/-- The order of two prerelease words: numbers by value and before the others,
which are ordered as texts. -/
def compareWord (a b : Bytes) : Ordering :=
  let number (w : Bytes) : Option Nat := (Number.readNat? w).filter (· < Nat.pow 2 64)
  if a = b then .eq
  else
    match number a, number b with
    | some m, some n => if n < m then .gt else .lt
    | some _, none => .lt
    | none, some _ => .gt
    | none, none => if b.before a then .gt else .lt

/-- The order of two sequences of words: by the first difference, a sequence
before its continuations. -/
def compareWords : List Bytes → List Bytes → Ordering
  | [], [] => .eq
  | [], _ :: _ => .lt
  | _ :: _, [] => .gt
  | a :: as, b :: bs => (compareWord a b).then (compareWords as bs)

/-- The order of two prereleases; a version without one comes last. -/
def comparePrerelease (a b : Bytes) : Ordering :=
  if a.isEmpty then (if b.isEmpty then .eq else .gt)
  else if b.isEmpty then .lt
  else compareWords (words a) (words b)

/-- The order of versions. Metadata does not count. -/
def compare (a b : Version) : Ordering :=
  (Ord.compare a.major b.major).then <| (Ord.compare a.minor b.minor).then <|
    (Ord.compare a.patch b.patch).then <| comparePrerelease a.prerelease b.prerelease

def older (a b : Version) : Bool := a.compare b == .lt

end Version

end Ifj24
