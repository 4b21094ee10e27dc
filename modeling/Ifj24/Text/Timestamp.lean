import Ifj24.Number.Read

/-!
Dates and times in the notation `2001-02-03T15:04:05.6+07:00`. The strict notation
has two digits in every field; the loose one allows a single digit, and blanks
between the date and the time.
-/

namespace Ifj24.Timestamp

open Number

/-- A number of two digits, or of one where that is allowed. -/
def field? (strict : Bool) : Bytes → Option (Nat × Bytes)
  | a :: b :: rest =>
    if !isDecimal a then none
    else if isDecimal b then (natIn? 10 [a, b]).map (·, rest)
    else if strict then none
    else (natIn? 10 [a]).map (·, b :: rest)
  | [a] => if isDecimal a && !strict then (natIn? 10 [a]).map (·, []) else none
  | [] => none

/-- The rest of a text after a byte that it has to start with. -/
def after? (b : UInt8) : Bytes → Option Bytes
  | a :: rest => if a == b then some rest else none
  | [] => none

def isLeapYear (year : Nat) : Bool := year % 4 == 0 && (year % 100 != 0 || year % 400 == 0)

def daysIn (year month : Nat) : Nat :=
  if month = 2 then (if isLeapYear year then 29 else 28)
  else if month = 4 ∨ month = 6 ∨ month = 9 ∨ month = 11 then 30
  else 31

def date? (strict : Bool) (text : Bytes) : Option Bytes := do
  guard ((text.take 4).length = 4)
  let year ← natIn? 10 (text.take 4)
  let rest ← after? (Bytes.ascii '-') (text.drop 4)
  let (month, rest) ← field? strict rest
  let rest ← after? (Bytes.ascii '-') rest
  let (day, rest) ← field? strict rest
  guard (1 ≤ month ∧ month ≤ 12 ∧ 1 ≤ day ∧ day ≤ daysIn year month)
  return rest

def dropFraction : Bytes → Bytes
  | point :: digit :: rest =>
    if (point == Bytes.ascii '.' || point == Bytes.ascii ',') && isDecimal digit then
      rest.dropWhile isDecimal
    else point :: digit :: rest
  | text => text

def time? (strict : Bool) (text : Bytes) : Option Bytes := do
  let (hour, rest) ← field? strict text
  let rest ← after? (Bytes.ascii ':') rest
  let (minute, rest) ← field? strict rest
  let rest ← after? (Bytes.ascii ':') rest
  let (second, rest) ← field? strict rest
  guard (hour < 24 ∧ minute < 60 ∧ second < 60)
  return dropFraction rest

/-- Whether a text is the zone of a time, as `Z` or `+07:00`. -/
def isZone : Bytes → Bool
  | [0x5A] => true
  | [sign, h, h', colon, m, m'] =>
    (sign == Bytes.ascii '+' || sign == Bytes.ascii '-') && colon == Bytes.ascii ':' &&
      (match natIn? 10 [h, h'], natIn? 10 [m, m'] with
        | some hour, some minute => hour ≤ 24 && minute ≤ 60
        | _, _ => false)
  | _ => false

/-- Whether a text is a date, alone or with a time, in the loose notation. A time
after a letter has a zone, one after blanks has none. -/
def isLoose (text : Bytes) : Bool :=
  match date? false text with
  | none => false
  | some [] => true
  | some (separator :: rest) =>
    if separator == Bytes.ascii 'T' || separator == Bytes.ascii 't' then
      ((time? false rest).map isZone).getD false
    else if separator == Bytes.ascii ' ' then
      time? false (rest.dropWhile (· == Bytes.ascii ' ')) == some []
    else false

/-- Whether a text is a date, a time, or both with or without a zone, in the
strict notation. -/
def isStrict (text : Bytes) : Bool :=
  match date? true text with
  | some [] => true
  | some (0x54 :: rest) =>
    match time? true rest with
    | some zone => zone.isEmpty || isZone zone
    | none => false
  | some _ => false
  | none => time? true text == some []

end Ifj24.Timestamp
