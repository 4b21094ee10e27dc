import Ifj24.Text.Utf8

/-!
Data for structured output: texts, truth values, lists, and objects whose fields
stand in the order of their keys. They are written as indented JSON that is also
safe inside HTML.
-/

namespace Ifj24

structure Field (α : Type) where
  key : Bytes
  value : α

inductive Data where
  | text (bytes : Bytes)
  | bool (b : Bool)
  | list (items : List Data)
  | object (fields : List (Field Data))

namespace Data

def record (fields : List (String × Data)) : Data :=
  .object ((fields.map fun (key, value) => ⟨Bytes.ofString key, value⟩).mergeSort
    fun a b => a.key ≤ b.key)

namespace Json

/-- A character by its number in four hexadecimal digits. -/
def numbered (n : Nat) : Bytes := "\\u" ++ Bytes.paddedDigits 16 4 n

/-- A character of a string. What HTML gives a meaning, control characters and
the two line separators are written as escapes. -/
def escapedChar (c : Char) : Bytes :=
  if c = '"' ∨ c = '\\' then Bytes.ascii '\\' :: Bytes.ofChars [c]
  else if c = '<' ∨ c = '>' ∨ c = '&' ∨ c.toNat = 0x2028 ∨ c.toNat = 0x2029 then numbered c.toNat
  else if c.toNat < 0x20 then
    match c.toNat with
    | 0x08 => "\\b"
    | 0x09 => "\\t"
    | 0x0A => "\\n"
    | 0x0C => "\\f"
    | 0x0D => "\\r"
    | n => numbered n
  else Bytes.ofChars [c]

/-- A byte that is no part of a character becomes the replacement character. -/
def string (bytes : Bytes) : Bytes :=
  Bytes.ascii '"' :: bytes.glyphs.flatMap (fun g => escapedChar g.replaced) ++
    [Bytes.ascii '"']

/-- Items between brackets, one a line; nothing between them if there are
none. -/
def enclosed (indent : Nat) (start stop : Bytes) (items : List Bytes) : Bytes :=
  if items.isEmpty then start ++ stop
  else
    let line (item : Bytes) : Bytes := Bytes.spaces (indent + 2) ++ item
    start ++ "\n" ++ Bytes.join ",\n" (items.map line) ++ "\n" ++ Bytes.spaces indent ++ stop

mutual

def value (indent : Nat) : Data → Bytes
  | .text bytes => string bytes
  | .bool b => if b then "true" else "false"
  | .list items => enclosed indent "[" "]" (values (indent + 2) items)
  | .object fields => enclosed indent "\x7b" "\x7d" (members (indent + 2) fields)
termination_by structural d => d

def values (indent : Nat) : List Data → List Bytes
  | [] => []
  | d :: rest => value indent d :: values indent rest
termination_by structural ds => ds

def members (indent : Nat) : List (Field Data) → List Bytes
  | [] => []
  | ⟨key, d⟩ :: rest => (string key ++ ": " ++ value indent d) :: members indent rest
termination_by structural fs => fs

end

end Json

def json (d : Data) : Bytes := Json.value 0 d ++ "\n"

end Data

end Ifj24
