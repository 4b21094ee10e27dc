import Ifj24.Text.Bytes

/-!
Reading bytes as UTF-8 without ever failing. A byte that starts no well-formed
sequence is kept as a stray byte of its own, so the glyphs of a byte string
always spell that byte string.
-/

namespace Ifj24

inductive Glyph where
  | scalar (c : Char)
  | stray (byte : UInt8)
  deriving DecidableEq, Repr

namespace Glyph

def bytes : Glyph → Bytes
  | .scalar c => String.utf8EncodeChar c
  | .stray b => [b]

def isScalar : Glyph → Bool
  | .scalar _ => true
  | .stray _ => false

/-- The character a stray byte stands for when it is read as text: the code
point of the same number. -/
def latin : Glyph → Char
  | .scalar c => c
  | .stray b => Char.ofNat b.toNat

/-- The character a stray byte stands for when it is replaced. -/
def replaced : Glyph → Char
  | .scalar c => c
  | .stray _ => Char.ofNat 0xFFFD

end Glyph

namespace Utf8

def isTail (b : UInt8) : Bool := 0x80 ≤ b && b ≤ 0xBF

def payload (b : UInt8) : Nat := b.toNat - 0x80

/-- The scalar value that the first bytes spell, and the number of bytes it
takes. Overlong forms, surrogates and values above 10FFFF are refused. -/
def scalar? : Bytes → Option (Char × Nat)
  | a :: rest =>
    if a < 0x80 then some (Char.ofNat a.toNat, 1)
    else if 0xC2 ≤ a && a ≤ 0xDF then
      match rest with
      | b :: _ =>
        if isTail b then some (Char.ofNat ((a.toNat - 0xC0) * 64 + payload b), 2) else none
      | [] => none
    else if 0xE0 ≤ a && a ≤ 0xEF then
      match rest with
      | b :: c :: _ =>
        if isTail b && isTail c && !(a == 0xE0 && b < 0xA0) && !(a == 0xED && 0x9F < b) then
          some (Char.ofNat (((a.toNat - 0xE0) * 64 + payload b) * 64 + payload c), 3)
        else none
      | _ => none
    else if 0xF0 ≤ a && a ≤ 0xF4 then
      match rest with
      | b :: c :: d :: _ =>
        if isTail b && isTail c && isTail d && !(a == 0xF0 && b < 0x90) &&
            !(a == 0xF4 && 0x8F < b) then
          some (Char.ofNat
            ((((a.toNat - 0xF0) * 64 + payload b) * 64 + payload c) * 64 + payload d), 4)
        else none
      | _ => none
    else none
  | [] => none

/-- The glyphs of a byte string whose first `owed` bytes belong to a character
already read. -/
def glyphsFrom : Nat → Bytes → List Glyph
  | _, [] => []
  | owed + 1, _ :: rest => glyphsFrom owed rest
  | 0, b :: rest =>
    match scalar? (b :: rest) with
    | some (c, width) => .scalar c :: glyphsFrom (width - 1) rest
    | none => .stray b :: glyphsFrom 0 rest

end Utf8

namespace Bytes

def glyphs (bytes : Bytes) : List Glyph := Utf8.glyphsFrom 0 bytes

def isUtf8 (bytes : Bytes) : Bool := bytes.glyphs.all Glyph.isScalar

def toString? (bytes : Bytes) : Option String :=
  if bytes.isUtf8 then some (String.ofList (bytes.glyphs.map Glyph.replaced)) else none

end Bytes

end Ifj24
