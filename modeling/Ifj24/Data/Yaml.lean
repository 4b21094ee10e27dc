import Ifj24.Data.Json
import Ifj24.Data.Yaml.Plain
import Ifj24.Text.Utf8

/-!
Data as YAML in block style, indented by two. A text is written without quotes
where that is read back as the same text; texts of several lines are literal
blocks; bytes that are no text are written in base 64.
-/

namespace Ifj24.Data.Yaml

inductive Style where
  | plain
  | single
  | double
  | literal
  deriving DecidableEq, Repr

def isBreak (c : Char) : Bool :=
  c == '\n' || c == '\r' || c.toNat == 0x85 || c.toNat == 0x2028 || c.toNat == 0x2029

def isBlank (c : Char) : Bool := c == ' ' || c == '\t'

def isOrderMark (c : Char) : Bool := c.toNat == 0xFEFF

/-- Whether a character may stand in the output as it is. -/
def isShown (c : Char) : Bool :=
  c == '\n' || (' ' ≤ c && c ≤ '~') || (0xA0 ≤ c.toNat && c.toNat ≤ 0xFFFD && !isOrderMark c)

/-- Whether two neighbours have the given properties. -/
def adjacent (p q : Char → Bool) (text : List Char) : Bool :=
  (text.zip text.tail).any fun (a, b) => p a && q b

/-- Characters that mean something at the start of a value. -/
def isLeader (c : Char) : Bool :=
  (['#', ',', '[', ']', '\x7b', '\x7d', '&', '*', '!', '|', '>', '\'', '"', '%', '@', '\x60'] :
    List Char).contains c

/-- Whether a text without quotes would be read as structure or as a comment. -/
def hasIndicator (text : List Char) : Bool :=
  let opensOrEnds : Bool := match text with
    | '-' :: '-' :: '-' :: _ => true
    | '.' :: '.' :: '.' :: _ => true
    | _ => false
  let leads : Bool := match text with
    | [] => false
    | [c] => isLeader c || c == '?' || c == ':' || c == '-'
    | c :: d :: _ => isLeader c || ((c == '?' || c == ':' || c == '-') && isBlank d)
  let inside := text.tail
  opensOrEnds || leads ||
    adjacent (· == ':') isBlank inside || inside.getLast? == some ':' ||
    adjacent (fun c => isBlank c || isBreak c || c.toNat == 0) (· == '#') text

def startsWith (p : Char → Bool) (text : List Char) : Bool := (text.head?.map p).getD false

def endsWith (p : Char → Bool) (text : List Char) : Bool := (text.getLast?.map p).getD false

def isSpace (c : Char) : Bool := c == ' '

def hasSpecial (text : List Char) : Bool := text.any fun c => c != '\t' && !isShown c

def plainAllowed (text : List Char) : Bool :=
  let atEdge (c : Char) : Bool := isSpace c || isBreak c
  !(hasIndicator text || startsWith atEdge text || endsWith atEdge text || text.any isBreak ||
    hasSpecial text || text.contains '\t')

def singleAllowed (text : List Char) : Bool :=
  !(adjacent isBreak isSpace text || adjacent isSpace isBreak text || hasSpecial text ||
    text.contains '\t')

def literalAllowed (text : List Char) : Bool :=
  !(text.isEmpty || endsWith isSpace text || adjacent isSpace isBreak text || hasSpecial text)

/-- The style of a text; `open_` says that no quotes are needed to keep it a
text. -/
def style (open_ : Bool) (text : List Char) : Style :=
  if text.contains '\n' then (if literalAllowed text then .literal else .double)
  else if !open_ then .double
  else if plainAllowed text then .plain
  else if singleAllowed text then .single
  else .double

/-- A character in double quotes; `every` says that also a character that may
stand as it is becomes an escape. -/
def escapedChar (every : Bool) (c : Char) : Bytes :=
  if c = '"' ∨ c = '\\' then Bytes.ascii '\\' :: Bytes.ofChars [c]
  else if !every && isShown c && !isBreak c then Bytes.ofChars [c]
  else
    match c.toNat with
    | 0x00 => "\\0"
    | 0x07 => "\\a"
    | 0x08 => "\\b"
    | 0x09 => "\\t"
    | 0x0A => "\\n"
    | 0x0B => "\\v"
    | 0x0C => "\\f"
    | 0x0D => "\\r"
    | 0x1B => "\\e"
    | 0x85 => "\\N"
    | 0xA0 => "\\_"
    | 0x2028 => "\\L"
    | 0x2029 => "\\P"
    | n =>
      let upper (b : UInt8) : UInt8 := if Bytes.ascii 'a' ≤ b then b - 0x20 else b
      let digits (width : Nat) : Bytes := (Bytes.paddedDigits 16 width n).map upper
      if n ≤ 0xFF then "\\x" ++ digits 2
      else if n ≤ 0xFFFF then "\\u" ++ digits 4
      else "\\U" ++ digits 8

/-- The lines of a text; the first character after a line break is indented.
`broken` says that a break came before, `fresh` that it was written. -/
def indented (indent : Nat) (put : Char → Bytes) : Bool → Bool → List Char → Bytes
  | _, _, [] => []
  | broken, fresh, c :: rest =>
    if isBreak c then Bytes.ofChars [c] ++ indented indent put true true rest
    else
      (if broken then (if fresh then [] else Bytes.ofString "\n") ++ Bytes.spaces indent else []) ++
        put c ++ indented indent put false false rest

/-- Tells a reader about leading blanks and about line breaks at the end. -/
def literalHints (text : List Char) : Bytes :=
  let first : Bytes := if startsWith (fun c => isSpace c || isBreak c) text then "2" else []
  let last : Bytes := match text.reverse with
    | a :: b :: _ => if !isBreak a then "-" else if isBreak b then "+" else []
    | [a] => if isBreak a then "+" else "-"
    | [] => "-"
  first ++ last

/-- A written value, and whether it has ended its last line. -/
structure Scalar where
  text : Bytes
  endsLine : Bool

/-- A text in double quotes. After a mark of byte order at its start nothing stands
as it is. -/
def doubleQuoted (text : List Char) : Bytes :=
  "\"" ++ text.flatMap (escapedChar (startsWith isOrderMark text)) ++ "\""

/-- A text in a style, for a place with the given indentation. -/
def scalar (indent : Nat) (s : Style) (text : List Char) : Scalar :=
  match s with
  | .plain => ⟨Bytes.ofChars text, false⟩
  | .single =>
    let put (c : Char) : Bytes := if c = '\'' then "''" else Bytes.ofChars [c]
    ⟨"'" ++ indented indent put false false text ++ "'", false⟩
  | .double => ⟨doubleQuoted text, false⟩
  | .literal =>
    let put (c : Char) : Bytes := Bytes.ofChars [c]
    ⟨"|" ++ literalHints text ++ indented indent put true false text, endsWith isBreak text⟩

def base64Digit (n : Nat) : Char :=
  if n < 26 then Char.ofNat (n + 65)
  else if n < 52 then Char.ofNat (n - 26 + 97)
  else if n < 62 then Char.ofNat (n - 52 + 48)
  else if n = 62 then '+'
  else '/'

def base64 : Bytes → List Char
  | a :: b :: c :: rest =>
    let n := a.toNat * 65536 + b.toNat * 256 + c.toNat
    [n / 262144, n / 4096 % 64, n / 64 % 64, n % 64].map base64Digit ++ base64 rest
  | [a, b] =>
    let n := a.toNat * 1024 + b.toNat * 4
    [n / 4096, n / 64 % 64, n % 64].map base64Digit ++ ['=']
  | [a] =>
    let n := a.toNat * 16
    [n / 64, n % 64].map base64Digit ++ ['=', '=']
  | [] => []

/-- Lines of at most `width` characters, each ended by a line break. -/
def wrapped (width : Nat) (text : List Char) : List Char :=
  if _h : text.isEmpty ∨ width = 0 then []
  else text.take width ++ '\n' :: wrapped width (text.drop width)
termination_by text.length
decreasing_by
  simp only [not_or, List.isEmpty_iff] at _h
  have : 0 < text.length := List.length_pos_iff.mpr _h.1
  simp only [List.length_drop]
  omega

/-- Base 64 in lines of seventy if one line is not enough. -/
def binary (bytes : Bytes) : List Char :=
  let digits := base64 bytes
  if digits.length < 70 then digits else wrapped 70 digits

/-- The text of a byte string, for a place with the given indentation. -/
def textScalar (indent : Nat) (bytes : Bytes) : Scalar :=
  if bytes.isUtf8 then
    let text := bytes.glyphs.map Glyph.replaced
    scalar indent (style (readsAsText bytes) text) text
  else
    let text := binary bytes
    let s := scalar indent (style true text) text
    { s with text := "!!binary " ++ s.text }

def Scalar.line (s : Scalar) : Bytes := if s.endsLine then s.text else s.text ++ "\n"

mutual

/-- A value after the sign that introduces it, whose place has the given
indentation; `item` says that this sign is a dash. -/
def value (indent : Nat) (item : Bool) : Data → Bytes
  | .text bytes => " " ++ (textScalar (indent + 2) bytes).line
  | .bool b => if b then " true\n" else " false\n"
  | .list [] => " []\n"
  | .list (d :: rest) =>
    if item then " " ++ (items (indent + 2) (d :: rest)).drop (indent + 2)
    else "\n" ++ items (indent + 2) (d :: rest)
  | .object [] => " \x7b\x7d\n"
  | .object (f :: rest) =>
    if item then " " ++ (members (indent + 2) (f :: rest)).drop (indent + 2)
    else "\n" ++ members (indent + 2) (f :: rest)
termination_by structural d => d

def items (indent : Nat) : List Data → Bytes
  | [] => []
  | d :: rest => Bytes.spaces indent ++ "-" ++ value indent true d ++ items indent rest
termination_by structural ds => ds

def members (indent : Nat) : List (Field Data) → Bytes
  | [] => []
  | ⟨key, d⟩ :: rest =>
    Bytes.spaces indent ++ (textScalar (indent + 2) key).text ++ ":" ++ value indent false d ++
      members indent rest
termination_by structural fs => fs

end

end Yaml

def yaml : Data → Bytes
  | .object (f :: rest) => Yaml.members 0 (f :: rest)
  | .list (d :: rest) => Yaml.items 0 (d :: rest)
  | d => (Yaml.value 0 false d).drop 1

end Ifj24.Data
