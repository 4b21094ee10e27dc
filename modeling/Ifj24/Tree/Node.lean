import Ifj24.Symbols.Table

/-!
Syntax trees. Variables are references into the symbol table. An expression is
kept in postfix order; what may stand where is not fixed by the types, so that
the passes can say what they do with a tree that no program has.
-/

namespace Ifj24.Tree

structure Value where
  pos : Pos
  type : DataType
  /-- The source text of a number, the bytes of a string. -/
  literal : Bytes
  null : Bool
  deriving DecidableEq, Repr

namespace Value

def ofLiteral (pos : Pos) (type : DataType) (literal : Bytes) : Value :=
  ⟨pos, type, literal, false⟩

def ofNull (pos : Pos) : Value := ⟨pos, .unresolved, "null", true⟩

end Value

structure Variable where
  pos : Pos
  var : VarRef
  deriving DecidableEq, Repr

/-- An operator of an expression, with the type of its result. -/
structure Operand where
  pos : Pos
  op : TokenKind
  type : DataType
  deriving DecidableEq, Repr

def Operand.untyped (pos : Pos) (op : TokenKind) : Operand := ⟨pos, op, .any⟩

/-- An arithmetic expression over nodes of type `α`, in postfix order. -/
structure ExpressionOf (α : Type) where
  pos : Pos
  items : List α
  finished : Bool
  type : DataType
  nullable : Bool

/-- A comparison of two expressions, with the type they are compared at. -/
structure TruthOf (α : Type) where
  pos : Pos
  left : ExpressionOf α
  op : TokenKind
  right : ExpressionOf α
  type : DataType

/-- A call, with the function it means once that is known. -/
structure CallOf (α : Type) where
  pos : Pos
  name : Bytes
  args : List α
  target : Option FuncDef

inductive Expr where
  | value (v : Value)
  | variable (v : Variable)
  | operand (o : Operand)
  | expression (e : ExpressionOf Expr)
  | truth (t : TruthOf Expr)
  | call (c : CallOf Expr)

abbrev Expression := ExpressionOf Expr

abbrev Truth := TruthOf Expr

abbrev Call := CallOf Expr

namespace Expr

def pos : Expr → Pos
  | .value v => v.pos
  | .variable v => v.pos
  | .operand o => o.pos
  | .expression e => e.pos
  | .truth t => t.pos
  | .call c => c.pos

def kind : Expr → NodeKind
  | .value _ => .value
  | .variable _ => .variable
  | .operand _ => .operand
  | .expression _ => .expression
  | .truth _ => .truthExpression
  | .call _ => .functionCall

end Expr

namespace ExpressionOf

/-- The only item of an expression that has just one. -/
def single? {α : Type} (e : ExpressionOf α) : Option α :=
  match e.items with
  | [x] => some x
  | _ => none

end ExpressionOf

inductive Guard where
  | compare (t : Truth)
  /-- Holds if the subject is not null, and then binds its value. -/
  | unwrap (subject : Variable) (binding : VarRef)

namespace Guard

def binding? : Guard → Option VarRef
  | .compare _ => none
  | .unwrap _ binding => some binding

end Guard

/-- The closing brace of a block, with the scope that ends there. -/
structure BlockEnd where
  pos : Pos
  scope : Scope

structure BlockOf (σ : Type) where
  pos : Pos
  stmts : List σ
  stop : BlockEnd

structure ElseOf (σ : Type) where
  pos : Pos
  body : BlockOf σ

inductive Stmt where
  | declare (pos : Pos) (var : VarRef) (value : Expr)
  | assign (pos : Pos) (var : VarRef) (value : Expr)
  | call (c : Call)
  | ifElse (pos : Pos) (guard : Guard) (yes : BlockOf Stmt) (no : Option (ElseOf Stmt))
  | while (pos : Pos) (guard : Guard) (body : BlockOf Stmt)
  | return (pos : Pos) (value : Option Expr)
  | elseStart (e : ElseOf Stmt)
  | blockEnd (e : BlockEnd)

abbrev Block := BlockOf Stmt

abbrev Else := ElseOf Stmt

namespace Stmt

def pos : Stmt → Pos
  | .declare pos .. => pos
  | .assign pos .. => pos
  | .call c => c.pos
  | .ifElse pos .. => pos
  | .while pos .. => pos
  | .return pos _ => pos
  | .elseStart e => e.pos
  | .blockEnd e => e.pos

def kind : Stmt → NodeKind
  | .declare .. => .declare
  | .assign .. => .assign
  | .call _ => .functionCall
  | .ifElse .. => .ifElse
  | .while .. => .while
  | .return .. => .return
  | .elseStart _ => .elseStart
  | .blockEnd _ => .blockEnd

end Stmt

structure Function where
  pos : Pos
  name : Bytes
  definition : FuncDef
  params : List VarRef
  body : Block

structure Program where
  pos : Pos
  importPath : Bytes
  functions : List Function

end Ifj24.Tree
