import Ifj24.Text.Utf8
import Ifj24.Text.Printable

/-!
Quoted text for messages. Printable characters stand for themselves, the
quote and the backslash are escaped, control characters have their short
names, and everything else is written as a number: a stray byte by two
hexadecimal digits, a character by four or eight.
-/

namespace Ifj24.Text

def escapedChar (quote c : Char) : Bytes :=
  if c = quote ∨ c = '\\' then Bytes.ascii '\\' :: Bytes.ofChars [c]
  else if isPrintable c then Bytes.ofChars [c]
  else
    match c.toNat with
    | 0x07 => "\\a"
    | 0x08 => "\\b"
    | 0x0C => "\\f"
    | 0x0A => "\\n"
    | 0x0D => "\\r"
    | 0x09 => "\\t"
    | 0x0B => "\\v"
    | n =>
      if n < 0x20 ∨ n = 0x7F then "\\x" ++ Bytes.paddedDigits 16 2 n
      else if n < 0x10000 then "\\u" ++ Bytes.paddedDigits 16 4 n
      else "\\U" ++ Bytes.paddedDigits 16 8 n

def escapedGlyph (quote : Char) : Glyph → Bytes
  | .scalar c => escapedChar quote c
  | .stray b => "\\x" ++ Bytes.paddedDigits 16 2 b.toNat

def quoted (bytes : Bytes) : Bytes :=
  Bytes.ascii '"' :: bytes.glyphs.flatMap (escapedGlyph '"') ++ [Bytes.ascii '"']

def quotedChar (c : Char) : Bytes :=
  Bytes.ascii '\'' :: escapedChar '\'' c ++ [Bytes.ascii '\'']

end Ifj24.Text
