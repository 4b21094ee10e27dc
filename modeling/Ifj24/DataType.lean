import Ifj24.Text.Bytes

/-!
Types of values, and whether a value may be null.
-/

namespace Ifj24

inductive DataType where
  /-- Accepts a value of every type; only parameters of built-in functions. -/
  | any
  /-- Not known yet. -/
  | unresolved
  | i32
  | f64
  | u8
  | void
  | bool
  deriving DecidableEq, Repr

namespace DataType

instance : Inhabited DataType := ⟨.any⟩

def all : List DataType := [.any, .unresolved, .i32, .f64, .u8, .void, .bool]

def text : DataType → Bytes
  | .any => "any"
  | .unresolved => "<unresolved>"
  | .i32 => "i32"
  | .f64 => "f64"
  | .u8 => "[]u8"
  | .void => "void"
  | .bool => "bool"

/-- The text of a type given by number; numbers without a type show
themselves. -/
def numberText (n : Nat) : Bytes :=
  match all[n]? with
  | some t => t.text
  | none => "DataType(" ++ Bytes.ofNat n ++ ")"

/-- The type with the given text; `unresolved` for a text that is none. -/
def ofText (text : Bytes) : DataType :=
  (all.find? fun t => t.text == text).getD .unresolved

def isNumeric : DataType → Bool
  | .i32 | .f64 => true
  | _ => false

def isResolved : DataType → Bool
  | .any | .unresolved => false
  | _ => true

def textWith (t : DataType) (nullable : Bool) : Bytes :=
  if nullable then "?" ++ t.text else t.text

end DataType

/-- Whether null is allowed, where that may still be open. -/
inductive Nullability where
  | unknown
  | yes
  | no
  deriving DecidableEq, Repr

namespace Nullability

def ofBool (nullable : Bool) : Nullability := if nullable then .yes else .no

def isKnown (n : Nullability) : Bool := n != .unknown

def toBool (n : Nullability) : Bool := n == .yes

def text : Nullability → Bytes
  | .unknown => "unknown"
  | .yes => "nullable"
  | .no => "non-null"

/-- The nullability with the given text; `unknown` for a text that is none. -/
def ofText (text : Bytes) : Nullability :=
  ([Nullability.yes, .no].find? fun n => n.text == text).getD .unknown

end Nullability

end Ifj24
