import Ifj24.Number.Read

/-!
Spans of time in nanoseconds, written as in `1h30m0.5s`.
-/

namespace Ifj24

abbrev Duration := Int

namespace Duration

def second : Nat := 1000000000

def hours (n : Nat) : Duration := (n * 3600 * second : Nat)

/-- The units with their length. The micro sign is written in two ways. -/
def units : List (Bytes × Nat) :=
  [(("ns" : Bytes), 1), (("us" : Bytes), 1000), (("µs" : Bytes), 1000), (("μs" : Bytes), 1000),
    (("ms" : Bytes), 1000000), (("s" : Bytes), second), (("m" : Bytes), 60 * second),
    (("h" : Bytes), 3600 * second)]

/-- The digits of a fraction as far as they fit 63 bits, and the power of ten that
they are to be divided by. -/
def fraction : Nat → Nat → Bytes → Nat × Nat
  | value, scale, [] => (value, scale)
  | value, scale, b :: rest =>
    let next := value * 10 + (b.toNat - 0x30)
    if (Nat.pow 2 63 - 1) / 10 < value ∨ Nat.pow 2 63 < next then (value, scale)
    else fraction next (scale * 10) rest

/-- The part of a unit that a decimal fraction stands for, computed with
doubles. -/
def partOf (unit digits scale : Nat) : Nat :=
  match Double.ofRatio false digits 1, Double.ofRatio false unit scale with
  | .finite _ a e, .finite _ b f => (Double.ofBinary false (a * b) (e + f)).floor
  | _, _ => 0

/-- Reads one number with its unit; the rest of the text comes with it. -/
def term? (text : Bytes) : Option (Nat × Bytes) := do
  let whole := text.takeWhile Number.isDecimal
  let rest := text.dropWhile Number.isDecimal
  let (decimals, rest) : Bytes × Bytes := match rest with
    | 0x2E :: tail => (tail.takeWhile Number.isDecimal, tail.dropWhile Number.isDecimal)
    | _ => ([], rest)
  guard (!(whole.isEmpty && decimals.isEmpty))
  let isUnit (b : UInt8) : Bool := !(Number.isDecimal b || b == Bytes.ascii '.')
  let unit ← units.lookup (rest.takeWhile isUnit)
  let n := (Number.readNat? whole).getD 0
  guard (n ≤ Nat.pow 2 63 ∧ n ≤ Nat.pow 2 63 / unit)
  let (digits, scale) := fraction 0 1 decimals
  let value := n * unit + partOf unit digits scale
  guard (value ≤ Nat.pow 2 63)
  return (value, rest.dropWhile isUnit)

/-- The sum of terms; `fuel` bounds their number. -/
def sum? : Nat → Nat → Bytes → Option Nat
  | _, total, [] => some total
  | 0, _, _ => none
  | fuel + 1, total, text => do
    let (value, rest) ← term? text
    guard (total + value ≤ Nat.pow 2 63)
    sum? fuel (total + value) rest

/-- The span that a text denotes: an optional sign, then numbers with units. -/
def read? (text : Bytes) : Option Duration := do
  let (negative, rest) := Number.splitSign text
  if rest = Bytes.ofString "0" then return 0
  guard (!rest.isEmpty)
  let total ← sum? rest.length 0 rest
  if negative then return -total
  guard (total < Nat.pow 2 63)
  return total

/-- A number of `10 ^ places` parts as a decimal fraction without trailing
zeros. -/
def decimal (n places : Nat) : Bytes :=
  let part := n % Nat.pow 10 places
  let digits : Bytes := if places = 0 then [] else Bytes.paddedDigits 10 places part
  let shown := (digits.reverse.dropWhile (· == Bytes.ascii '0')).reverse
  let point : Bytes := if shown.isEmpty then [] else "." ++ shown
  Bytes.ofNat (n / Nat.pow 10 places) ++ point

/-- The text of a span that is not negative: below a second in the largest unit
that leaves a whole part, otherwise in hours, minutes and seconds. -/
def magnitudeText (n : Nat) : Bytes :=
  if n = 0 then "0s"
  else if n < 1000 then Bytes.ofNat n ++ "ns"
  else if n < 1000000 then decimal n 3 ++ "µs"
  else if n < second then decimal n 6 ++ "ms"
  else
    let minutes := n / (60 * second)
    let seconds := decimal (n % (60 * second)) 9 ++ "s"
    if minutes = 0 then seconds
    else if minutes < 60 then Bytes.ofNat minutes ++ "m" ++ seconds
    else Bytes.ofNat (minutes / 60) ++ "h" ++ Bytes.ofNat (minutes % 60) ++ "m" ++ seconds

def text (d : Duration) : Bytes :=
  if d < 0 then "-" ++ magnitudeText d.natAbs else magnitudeText d.natAbs

end Duration

end Ifj24
