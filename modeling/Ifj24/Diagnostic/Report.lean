import Ifj24.Diagnostic.Cause

/-!
Errors as they are reported to the user: of a class and perhaps at a place, or of
no class.
-/

namespace Ifj24

inductive Report where
  | classified (pos : Pos) (kind : Kind) (message : Bytes)
  | plain (message : Bytes)
  deriving DecidableEq, Repr

namespace Report

def ofDiagnostic (d : Diagnostic) : Report := .classified d.pos d.kind d.message

/-- The class of an error; an error of no class is a fault of the compiler. -/
def kind : Report → Kind
  | .classified _ kind _ => kind
  | .plain _ => .internal

/-- An error inside another: the class and the place stay visible. -/
def within (note : Bytes) : Report → Report
  | .classified pos kind message => .classified pos kind message
  | .plain message => .plain (note ++ ": " ++ message)

def text : Report → Bytes
  | .classified pos kind message =>
    (if pos.isValid then pos.text ++ ": " else []) ++ kind.text ++ ": " ++ message
  | .plain message => message

def color (colored : Bool) (code : Bytes) : Bytes :=
  if colored then 0x1B :: Bytes.ascii '[' :: code ++ [Bytes.ascii 'm'] else []

def line (colored : Bool) (r : Report) : Bytes :=
  let (pos, message) := match r with
    | .classified pos _ message => (pos, message)
    | .plain message => (Pos.none, message)
  let place : Bytes := if pos.isValid then color colored "2" ++ pos.text ++ ": " else []
  let shade : Bytes := if r.kind = .internal then "35;1" else "31;1"
  place ++ color colored shade ++ r.kind.text ++ ": " ++ message ++ " (exit " ++
    Bytes.ofInt r.kind.exitCode ++ ")\n"

def warning (colored : Bool) (message : Bytes) : Bytes :=
  color colored "33" ++ "warning: " ++ message ++ "\n"

end Report

end Ifj24
