/-!
Byte strings. Programs, names, literals and messages are sequences of bytes:
a source file need not be valid UTF-8, and a string literal may hold any byte.
String literals of this library are coerced to their UTF-8 bytes.
-/

namespace Ifj24

abbrev Bytes := List UInt8

namespace Bytes

def ofString (text : String) : Bytes := text.toList.flatMap String.utf8EncodeChar

instance : Coe String Bytes := ⟨ofString⟩

def ascii (c : Char) : UInt8 := c.toNat.toUInt8

def ofChars (cs : List Char) : Bytes := cs.flatMap String.utf8EncodeChar

/-- Digits of `n` in the given base, lower case, no leading zeros. -/
def digits (base n : Nat) : Bytes := (Nat.toDigits base n).map ascii

def ofNat (n : Nat) : Bytes := digits 10 n

def ofInt (n : Int) : Bytes :=
  if n < 0 then ascii '-' :: ofNat n.natAbs else ofNat n.natAbs

/-- Digits padded with zeros on the left to at least `width`. -/
def paddedDigits (base width n : Nat) : Bytes :=
  let ds := digits base n
  List.replicate (width - ds.length) (ascii '0') ++ ds

/-- Two lower-case hexadecimal digits for every byte. -/
def hex (bytes : Bytes) : Bytes := bytes.flatMap fun b => paddedDigits 16 2 b.toNat

def join (separator : Bytes) (parts : List Bytes) : Bytes := separator.intercalate parts

def spaces (n : Nat) : Bytes := List.replicate n (ascii ' ')

def before (a b : Bytes) : Bool := decide (a < b)

def startsWith (bytes start : Bytes) : Bool := start.isPrefixOf bytes

def endsWith (bytes tail : Bytes) : Bool := tail.isSuffixOf bytes

/-- `bytes` without a leading `start`; unchanged if it does not start so. -/
def dropStart (bytes start : Bytes) : Bytes :=
  if bytes.startsWith start then bytes.drop start.length else bytes

/-- The parts of `bytes` between the occurrences of one byte; at least one part. -/
def splitOn (separator : UInt8) (bytes : Bytes) : List Bytes :=
  bytes.splitOnP (· == separator)

end Bytes

end Ifj24
