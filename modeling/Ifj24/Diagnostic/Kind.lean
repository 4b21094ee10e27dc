import Ifj24.Text.Bytes

/-!
The classes of failure. A class is known to the outside by its exit code;
codes without a class of their own are kept as they are.
-/

namespace Ifj24

inductive Kind where
  | ok
  | lexical
  | grammar
  | undefinedName
  | badParameter
  | redefinition
  | badReturn
  | incompatibleTypes
  | unknownType
  | unusedVariable
  | other
  | internal
  | unnamed (code : Int)
  deriving DecidableEq, Repr

namespace Kind

def ofCode (code : Int) : Kind :=
  match code with
  | 0 => .ok
  | 1 => .lexical
  | 2 => .grammar
  | 3 => .undefinedName
  | 4 => .badParameter
  | 5 => .redefinition
  | 6 => .badReturn
  | 7 => .incompatibleTypes
  | 8 => .unknownType
  | 9 => .unusedVariable
  | 10 => .other
  | 99 => .internal
  | n => .unnamed n

def exitCode : Kind → Int
  | .ok => 0
  | .lexical => 1
  | .grammar => 2
  | .undefinedName => 3
  | .badParameter => 4
  | .redefinition => 5
  | .badReturn => 6
  | .incompatibleTypes => 7
  | .unknownType => 8
  | .unusedVariable => 9
  | .other => 10
  | .internal => 99
  | .unnamed n => n

def text : Kind → Bytes
  | .ok => "ok"
  | .lexical => "lexical error"
  | .grammar => "syntax error"
  | .undefinedName => "undefined function or variable"
  | .badParameter => "invalid function parameter"
  | .redefinition => "redefinition"
  | .badReturn => "bad function return"
  | .incompatibleTypes => "incompatible types"
  | .unknownType => "unknown type"
  | .unusedVariable => "unused variable"
  | .other => "semantic error"
  | .internal => "internal compiler error"
  | .unnamed n => "Kind(" ++ Bytes.ofInt n ++ ")"

/-- Whether the failure is about the meaning of a program that could be read. -/
def isSemantic (k : Kind) : Bool := 3 ≤ k.exitCode && k.exitCode ≤ 10

end Kind

end Ifj24
