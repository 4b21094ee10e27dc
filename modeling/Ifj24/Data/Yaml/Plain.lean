import Ifj24.Text.Timestamp

/-!
Which texts YAML readers take for something else than text when they are written
without quotes: null, truth values, numbers and dates, also those of older
versions of the format.
-/

namespace Ifj24.Data.Yaml

open Number

/-- Words for null, truth values and numbers that have no digits. -/
def words : List Bytes :=
  (["", "~", "null", "Null", "NULL", "true", "True", "TRUE", "false", "False", "FALSE",
    ".nan", ".NaN", ".NAN", ".inf", ".Inf", ".INF", "+.inf", "+.Inf", "+.INF",
    "-.inf", "-.Inf", "-.INF"] : List String).map Bytes.ofString

/-- Words that older versions of the format read as truth values. -/
def oldWords : List Bytes :=
  (["y", "Y", "yes", "Yes", "YES", "on", "On", "ON",
    "n", "N", "no", "No", "NO", "off", "Off", "OFF"] : List String).map Bytes.ofString

/-- Whether digits of a base after a mark are an integer of 64 bits; they may have
a sign of their own. -/
def isMarkedInteger (base : Nat) (mark : Bytes) (text : Bytes) : Bool :=
  if text.startsWith mark then
    let digits := text.drop mark.length
    let (negative, rest) := splitSign digits
    fitsSigned negative (natIn? base rest) || fitsUnsigned (natIn? base digits)
  else if text.startsWith ("-" ++ mark) then
    fitsSigned true (natIn? base (text.drop (mark.length + 1)))
  else false

def isExponent : Bytes → Bool
  | [] => true
  | mark :: rest =>
    let digits := (splitSign rest).2
    lower mark == Bytes.ascii 'e' && !digits.isEmpty && digits.all isDecimal

def isDecimalFloat (text : Bytes) : Bool :=
  let body := (splitSign text).2
  let whole := body.takeWhile isDecimal
  let rest := body.dropWhile isDecimal
  match rest with
  | 0x2E :: tail =>
    let fraction := tail.takeWhile isDecimal
    !(whole.isEmpty && fraction.isEmpty) && isExponent (tail.dropWhile isDecimal)
  | _ => !whole.isEmpty && isExponent rest

/-- Whether a text that starts with a sign or a digit is a number or a date. -/
def isNumberOrDate (text : Bytes) : Bool :=
  let bare := text.filter (· != Bytes.ascii '_')
  Timestamp.isLoose text || isInteger bare ||
    (isDecimalFloat bare && (readDouble? bare).isSome) ||
    isMarkedInteger 2 "0b" bare || isMarkedInteger 8 "0o" bare

/-- A part of a number to the base sixty after the first. -/
def isSixtieth : Bytes → Bool
  | [a] => isDecimal a
  | [a, b] => isDecimal a && a ≤ Bytes.ascii '5' && isDecimal b
  | _ => false

/-- Whether a text is a number to the base sixty, as `1:30.5`. -/
def isBaseSixty (text : Bytes) : Bool :=
  let isTail (b : UInt8) : Bool := isDecimal b || b == Bytes.ascii '_'
  match Bytes.splitOn (Bytes.ascii ':') (splitSign text).2 with
  | first :: part :: parts =>
    let isFirst := match first with
      | d :: rest => isDecimal d && rest.all isTail
      | [] => false
    let last := (part :: parts).getLast (by simp)
    let isLast := match Bytes.splitOn (Bytes.ascii '.') last with
      | [whole] => isSixtieth whole
      | [whole, fraction] => isSixtieth whole && fraction.all isTail
      | _ => false
    isFirst && (part :: parts).dropLast.all isSixtieth && isLast
  | _ => false

/-- Whether a text without quotes is read as that text. -/
def readsAsText (text : Bytes) : Bool :=
  let isNumber := match text with
    | [] => false
    | b :: _ =>
      if isDecimal b || b == Bytes.ascii '+' || b == Bytes.ascii '-' then
        isNumberOrDate text || isBaseSixty text
      else b == Bytes.ascii '.' && (readDouble? text).isSome
  !(words.contains text || oldWords.contains text || isNumber)

end Ifj24.Data.Yaml
