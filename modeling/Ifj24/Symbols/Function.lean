import Ifj24.DataType
import Ifj24.Token

/-!
Function signatures and the catalog of built-in functions.
-/

namespace Ifj24

structure Param where
  name : Bytes
  type : DataType
  nullable : Bool
  deriving DecidableEq, Repr

structure FuncDef where
  name : Bytes
  params : List Param
  result : DataType
  nullableResult : Bool
  builtin : Bool
  pos : Pos
  deriving DecidableEq, Repr

namespace Param

def text (p : Param) : Bytes :=
  let type := p.type.textWith p.nullable
  if p.name.isEmpty then type else p.name ++ ": " ++ type

end Param

namespace FuncDef

/-- The definition as in `name(a: i32, b: ?[]u8) ?f64`. -/
def signature (f : FuncDef) : Bytes :=
  f.name ++ "(" ++ Bytes.join ", " (f.params.map Param.text) ++ ") " ++
    f.result.textWith f.nullableResult

/-- The start of the name of every built-in function. -/
def builtinStart : Bytes := "ifj."

/-- Whether a name has the form of a built-in function's. -/
def isBuiltinName (name : Bytes) : Bool :=
  builtinStart.length < name.length && name.startsWith builtinStart

/-- A built-in function given by its name after `ifj.`. -/
def ofBuiltin (name : String) (params : List Param) (result : DataType)
    (nullableResult : Bool) : FuncDef :=
  ⟨builtinStart ++ Bytes.ofString name, params, result, nullableResult, true, .none⟩

/-- The catalog of built-in functions, in its fixed order. -/
def builtins : List FuncDef :=
  [ofBuiltin "readstr" [] .u8 true,
    ofBuiltin "readi32" [] .i32 true,
    ofBuiltin "readf64" [] .f64 true,
    ofBuiltin "write" [⟨"term", .any, true⟩] .void false,
    ofBuiltin "i2f" [⟨"term", .i32, false⟩] .f64 false,
    ofBuiltin "f2i" [⟨"term", .f64, false⟩] .i32 false,
    ofBuiltin "string" [⟨"term", .any, false⟩] .u8 false,
    ofBuiltin "length" [⟨"s", .u8, false⟩] .i32 false,
    ofBuiltin "concat" [⟨"s1", .u8, false⟩, ⟨"s2", .u8, false⟩] .u8 false,
    ofBuiltin "substring" [⟨"s", .u8, false⟩, ⟨"i", .i32, false⟩, ⟨"j", .i32, false⟩] .u8 true,
    ofBuiltin "strcmp" [⟨"s1", .u8, false⟩, ⟨"s2", .u8, false⟩] .i32 false,
    ofBuiltin "ord" [⟨"s", .u8, false⟩, ⟨"i", .i32, false⟩] .i32 false,
    ofBuiltin "chr" [⟨"i", .i32, false⟩] .u8 false]

end FuncDef

end Ifj24
