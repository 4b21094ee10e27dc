import Ifj24.Data.Json
import Ifj24.Number.Double
import Ifj24.Text.Utf8

/-!
Documents of the TOML format: nested tables, with the order in which their keys
were written. The rules on which keys may be written again are kept here.
-/

namespace Ifj24.Toml

inductive Value where
  | string (text : Bytes)
  | integer (n : Int)
  | float (x : Double)
  | bool (b : Bool)
  | moment (text : Bytes)
  | array (items : List Value)
  | table (entries : List (Field Value))
  /-- An array of tables that is written one table after the other. -/
  | tables (items : List (List (Field Value)))

abbrev Table := List (Field Value)

abbrev Key := List Bytes

namespace Key

def isBareByte (b : UInt8) : Bool :=
  (0x41 ≤ b && b ≤ 0x5A) || (0x61 ≤ b && b ≤ 0x7A) || (0x30 ≤ b && b ≤ 0x39) ||
    b == Bytes.ascii '_' || b == Bytes.ascii '-'

def escapedByte (b : UInt8) : Bytes :=
  if b = Bytes.ascii '"' then "\\\""
  else if b = Bytes.ascii '\\' then "\\\\"
  else if b = 0x08 then "\\b"
  else if b = 0x09 then "\\t"
  else if b = 0x0A then "\\n"
  else if b = 0x0C then "\\f"
  else if b = 0x0D then "\\r"
  else if b < 0x20 ∨ b = 0x7F then "\\u" ++ Bytes.paddedDigits 16 4 b.toNat
  else [b]

/-- A part of a key; in quotes unless it is made of letters, digits, dashes and
underscores. -/
def partText (part : Bytes) : Bytes :=
  if !part.isEmpty && part.all isBareByte then part
  else Bytes.ascii '"' :: part.flatMap escapedByte ++ [Bytes.ascii '"']

def text (key : Key) : Bytes := Bytes.join "." (key.map partText)

end Key

inductive Fault where
  | encoding
  | control (c : Char)
  /-- Something that cannot stand there; `none` is the end of the text. -/
  | unexpected (c : Option Char)
  | escape
  | number (text : Bytes)
  | redefined (key : Key)

namespace Fault

def message : Fault → Bytes
  | .encoding => "invalid UTF-8"
  | .control c => "control character " ++ Bytes.ofNat c.toNat
  | .unexpected (some c) => "unexpected " ++ Bytes.ofChars [c]
  | .unexpected none => "unexpected end"
  | .escape => "invalid escape"
  | .number text => "invalid value " ++ text
  | .redefined key => "key " ++ key.text ++ " is already defined"

end Fault

namespace Table

def get? (t : Table) (key : Bytes) : Option Value := (t.find? fun f => f.key == key).map Field.value

/-- Replaces the value of a key, or adds it at the end. -/
def set (t : Table) (key : Bytes) (v : Value) : Table :=
  if t.any fun f => f.key == key then t.map fun f => if f.key == key then ⟨key, v⟩ else f
  else t ++ [⟨key, v⟩]

/-- Changes the table at a path. Of an array of tables the last one is meant;
`whole` is the path for error messages. -/
def modifyAt (whole : Key) (f : Table → Except Fault Table) : Key → Table → Except Fault Table
  | [], t => f t
  | k :: rest, t =>
    match t.get? k with
    | some (.table inner) => do return t.set k (.table (← modifyAt whole f rest inner))
    | some (.tables items) =>
      match items.getLast? with
      | some last => do
        return t.set k (.tables (items.dropLast ++ [← modifyAt whole f rest last]))
      | none => .error (.redefined whole)
    | _ => .error (.redefined whole)

def at? : Key → Table → Option Table
  | [], t => some t
  | k :: rest, t =>
    match t.get? k with
    | some (.table inner) => at? rest inner
    | some (.tables items) => items.getLast?.bind (at? rest)
    | _ => none

end Table

structure Document where
  root : Table
  /-- Tables that exist because a longer key was written; each may be written
  once more. -/
  implicit : List Key
  arrays : List Key
  /-- The keys in the order in which they were written. -/
  order : List Key

namespace Document

def empty : Document := ⟨[], [], [], []⟩

def addImplicit (d : Document) (key : Key) : Document := { d with implicit := key :: d.implicit }

def removeImplicit (d : Document) (key : Key) : Document :=
  { d with implicit := d.implicit.filter (· != key) }

def setArray (d : Document) (key : Key) (isArray : Bool) : Document :=
  let others := d.arrays.filter (· != key)
  { d with arrays := if isArray then key :: others else others }

def note (d : Document) (key : Key) : Document := { d with order := d.order ++ [key] }

/-- Gives a key of a table its value. A key that has one already must not be
written again, unless what it holds was made on the way: a table for a longer key
stays, the tables of an array in brackets give way to the whole array. -/
def setValue (d : Document) (context : Key) (name : Bytes) (v : Value) :
    Except Fault Document := do
  let key := context ++ [name]
  match Table.at? context d.root with
  | none => throw (.redefined key)
  | some t =>
    let isNew := (t.get? name).isNone
    if !isNew && !d.implicit.contains key then throw (.redefined key)
    let d := if isNew then d else d.removeImplicit key
    if isNew || d.arrays.contains key then
      return { d with root := ← Table.modifyAt key (fun t => .ok (t.set name v)) context d.root }
    else return d

/-- Makes the tables on the way to a key; `done` is the part of the way that
exists. -/
def openParents (done : Key) : Key → Document → Except Fault Document
  | [], d => .ok d
  | k :: rest, d => do
    let key := done ++ [k]
    match Table.at? done d.root with
    | none => throw (.redefined key)
    | some t =>
      match t.get? k with
      | none =>
        let root ← Table.modifyAt key (fun t => .ok (t.set k (.table []))) done d.root
        openParents key rest { d.addImplicit key with root }
      | some (.table _) | some (.tables _) => openParents key rest d
      | some _ => throw (.redefined key)

/-- Starts a table, or a further table of an array of tables. -/
def openTable (d : Document) (key : Key) (inArray : Bool) : Except Fault Document := do
  let parents := key.dropLast
  let name := key.getLastD []
  let d ← openParents [] parents d
  if inArray then
    let append (t : Table) : Except Fault Table :=
      match t.get? name with
      | none => .ok (t.set name (.tables [[]]))
      | some (.tables items) => .ok (t.set name (.tables (items ++ [[]])))
      | some _ => .error (.redefined key)
    return { d with root := ← Table.modifyAt key append parents d.root }
  else d.setValue parents name (.table [])

/-- Opens the tables that a dotted key names one after the other. -/
def openDotted (context : Key) : Key → Document → Except Fault Document
  | [], d => .ok d
  | k :: rest, d => do
    let key := context ++ [k]
    openDotted key rest (← (d.addImplicit key).openTable key false)

end Document

end Ifj24.Toml
