import Ifj24.Text.Bytes

/-!
Double-precision numbers as exact values. A finite double is a sign, a natural
significand and a power of two; rounding a quotient to a double goes to the
nearest one, and to the one with an even significand if two are as near.
-/

namespace Ifj24

inductive Double where
  | nan
  | infinite (negative : Bool)
  /-- `significand * 2 ^ exponent`, with a sign that zero has too. -/
  | finite (negative : Bool) (significand : Nat) (exponent : Int)
  deriving DecidableEq, Repr

namespace Double

def zero (negative : Bool) : Double := .finite negative 0 0

/-- The quotient rounded to the nearest natural number, a half to the even
one. -/
def roundDiv (n d : Nat) : Nat :=
  let q := n / d
  let r := n % d
  if d < 2 * r ∨ 2 * r = d ∧ q % 2 = 1 then q + 1 else q

/-- The quotient `n / (d * 2 ^ e)` as a quotient of naturals. -/
def scaled (n d : Nat) (e : Int) : Nat × Nat :=
  if 0 ≤ e then (n, d * Nat.pow 2 e.toNat) else (n * Nat.pow 2 (-e).toNat, d)

/-- The largest `k` with `2 ^ k ≤ n / d`, for positive `n` and `d`. -/
def log2Ratio (n d : Nat) : Int :=
  let k : Int := n.log2 - d.log2
  let (a, b) := scaled n d k
  if b ≤ a then k else k - 1

/-- The double nearest to `n / d`, infinite from halfway above the largest finite
one on. -/
def ofRatio (negative : Bool) (n d : Nat) : Double :=
  if n = 0 then zero negative
  else
    let exponent := max (log2Ratio n d - 52) (-1074)
    let (a, b) := scaled n d exponent
    let significand := roundDiv a b
    if 971 < exponent ∨ exponent = 971 ∧ Nat.pow 2 53 ≤ significand then .infinite negative
    else .finite negative significand exponent

/-- The double nearest to `value * base ^ exponent`. Values that are out of reach
by their number of digits alone are not computed. -/
def ofScaled (negative : Bool) (value base : Nat) (exponent : Int) : Double :=
  if value = 0 then zero negative
  else
    let size : Int := (Nat.toDigits base value).length + exponent
    if 1100 < size then .infinite negative
    else if size < -1100 then zero negative
    else if 0 ≤ exponent then ofRatio negative (value * Nat.pow base exponent.toNat) 1
    else ofRatio negative value (Nat.pow base (-exponent).toNat)

def ofBinary (negative : Bool) (value : Nat) (exponent : Int) : Double :=
  let (n, d) := scaled value 1 (-exponent)
  ofRatio negative n d

def floor : Double → Nat
  | .finite _ significand exponent =>
    let (n, d) := scaled significand 1 (-exponent)
    n / d
  | _ => 0

def toInt? : Double → Option Int
  | .finite negative significand exponent =>
    let signed (n : Nat) : Int := if negative then -n else n
    if 0 ≤ exponent then some (signed (significand * Nat.pow 2 exponent.toNat))
    else
      let unit := Nat.pow 2 (-exponent).toNat
      if significand % unit = 0 then some (signed (significand / unit)) else none
  | _ => none

/-- The hexadecimal digits of a fraction `n / 2 ^ bits`, without trailing
zeros. -/
def fractionDigits (n bits : Nat) : Bytes :=
  let places := (bits + 3) / 4
  let digits := if places = 0 then []
    else Bytes.paddedDigits 16 places (n * Nat.pow 2 (4 * places - bits))
  (digits.reverse.dropWhile (· == Bytes.ascii '0')).reverse

def signText (negative : Bool) : Bytes := if negative then "-" else []

/-- Hexadecimal notation with a leading one and a decimal exponent of two, as in
`0x1.8p+1`. -/
def hexText : Double → Bytes
  | .nan => "NaN"
  | .infinite negative => if negative then "-Inf" else "+Inf"
  | .finite negative significand exponent =>
    if significand = 0 then signText negative ++ "0x0p+0"
    else
      let bits := significand.log2
      let fraction := fractionDigits (significand - Nat.pow 2 bits) bits
      let point : Bytes := if fraction.isEmpty then [] else "." ++ fraction
      let power : Int := exponent + bits
      let powerSign : Bytes := if power < 0 then "-" else "+"
      signText negative ++ "0x1" ++ point ++ "p" ++ powerSign ++ Bytes.ofNat power.natAbs

end Double

end Ifj24
