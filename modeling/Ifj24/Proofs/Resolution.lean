import Ifj24.Proofs.Grammar
import Ifj24.Proofs.Precedence
import Ifj24.Proofs.Steps
import Ifj24.Proofs.Tables

/-!
What a derivation tree means: the syntax tree of a program, with every name
resolved in the scopes that are open where it stands. This is a recursion on
derivation trees that knows nothing of tokens still to be read. It fails only
where a name means nothing or is declared twice.
-/

namespace Ifj24.Grammar

open Ifj24.Tree

structure Scoping where
  table : Table
  /-- The first broken rule of use. -/
  unused : Option Diagnostic

abbrev Scoped := EStateM Diagnostic Scoping

namespace Scoped

def onTable {α : Type} (m : EStateM Diagnostic Table α) : Scoped α := fun s =>
  match m s.table with
  | .ok a table => .ok a { s with table }
  | .error d table => .error d { s with table }

def meaning : Scoped (Bytes → VarRef) := return (← get).table.visible

def useAll (ts : List Token) : Scoped Unit := onTable (Tree.useAll ts)

def find (name : Lexeme .name) : Scoped VarRef := do
  let meaning ← meaning
  useAll [name.1]
  return meaning name.1.literal

def modifyTable (f : Table → Table) : Scoped Unit :=
  modify fun s => { s with table := f s.table }

def assignTo (name : Lexeme .name) : Scoped VarRef := do
  let r ← find name
  modifyTable (·.modify r fun v => { v with modified := true })
  return r

def declare (name : Lexeme .name) (type : DataType) (mutable_ : Bool) (nullable : Nullability) :
    Scoped VarRef := fun s =>
  match s.table.declare name.1.literal type mutable_ nullable name.1.pos with
  | .ok r table => .ok r { s with table }
  | .error d table => .error d { s with table }

def enter (kind : ScopeKind) (comment : Bytes) : Scoped Unit :=
  modifyTable (·.enter kind comment)

def exit : Scoped Scope := modifyGet fun s =>
  let closed := s.table.exit
  (closed.scope, ⟨closed.table, s.unused.or closed.unused⟩)

end Scoped

open Scoped

def Term.resolve (a : Term) : Scoped Expr := do
  let meaning ← meaning
  useAll [a.1]
  return leafExpr meaning a.1

def resolveTerms : Listed Term → Scoped (List Expr)
  | .nil => return []
  | .last a => return [← Term.resolve a]
  | .cons a _ rest => return (← Term.resolve a) :: (← resolveTerms rest)

def Call.resolve (c : Call) : Scoped Tree.Call :=
  return ⟨c.callee.first.pos, c.callee.name, ← resolveTerms c.args, none⟩

def Arithmetic.expression (meaning : Bytes → VarRef) (e : Arithmetic) : Expression :=
  ⟨e.1.first.pos, e.1.postOrder meaning, true, .any, false⟩

def Arithmetic.resolve (e : Arithmetic) : Scoped Expression := do
  let meaning ← meaning
  useAll e.1.tokens
  return Arithmetic.expression meaning e

def Rhs.resolve : Rhs → Scoped Expr
  | .call c => return .call (← c.resolve)
  | .arithmetic e => return .expression (← Arithmetic.resolve e)

def annotated : Option TypeMark → DataType × Nullability
  | none => (.unresolved, .unknown)
  | some a => (a.type.type, .ofBool a.type.nullable)

def Plain.resolve : Plain → Scoped Stmt
  | .declare binder name mark _ value _ => do
    let value ← value.resolve
    let (type, nullable) := annotated mark
    let r ← Scoped.declare name type (binder.1.kind = .kwVar) nullable
    return .declare binder.1.pos r value
  | .drop target _ value _ => return .assign target.1.pos Table.discard (← value.resolve)
  | .assign target _ value _ => do
    let r ← assignTo target
    return .assign target.1.pos r (← value.resolve)
  | .call c _ => return .call (← c.resolve)
  | .return keyword none _ => return .return keyword.1.pos none
  | .return keyword (some value) _ => return .return keyword.1.pos (some (← value.resolve))

def resolveTruth (left : Arithmetic) (op : Relation) (right : Arithmetic) : Scoped Truth := do
  let meaning ← meaning
  useAll (left.1.tokens ++ op.1 :: right.1.tokens)
  return ⟨op.1.pos, Arithmetic.expression meaning left, op.1.kind,
    Arithmetic.expression meaning right, .any⟩

def Guard.resolve (kind : ScopeKind) (comment : Bytes) : Guard → Scoped Tree.Guard
  | .compare _ left op right _ => do
    let t ← resolveTruth left op right
    enter kind comment
    return .compare t
  | .unwrap _ subject _ _ bound _ => do
    let r ← find subject
    enter kind comment
    return .unwrap ⟨subject.1.pos, r⟩ (← declare bound .unresolved false .no)

/-- The block of the statements that are given in the scope that ends with it. -/
def Braces.block (b : Braces) (inside : Scoped (List Stmt)) : Scoped Block := do
  let stmts ← inside
  return ⟨b.opening.1.pos, stmts, b.closing.1.pos, ← exit⟩

def resolveElse (otherwise : Lexeme .kwElse) (body : Scoped Block) : Scoped (Option Else) := do
  enter .branch "else"
  return some ⟨otherwise.1.pos, ← body⟩

def resolveBranch (keyword : Lexeme .kwIf) (guard : Guard) (yes : Scoped Block)
    (no : Scoped (Option Else)) : Scoped Stmt := do
  let guard ← guard.resolve .branch "if"
  let yes ← yes
  return .ifElse keyword.1.pos guard yes (← no)

def resolveLoop (keyword : Lexeme .kwWhile) (guard : Guard) (body : Scoped Block) :
    Scoped Stmt := do
  let guard ← guard.resolve .loop "while"
  return .while keyword.1.pos guard (← body)

def Body.resolve : Body → Scoped (List Stmt)
  | .done => return []
  | .plain s rest => return (← s.resolve) :: (← rest.resolve)
  | .branch keyword guard braces yes rest =>
    return (← resolveBranch keyword guard (braces.block yes.resolve) (pure none)) ::
      (← rest.resolve)
  | .branchElse keyword guard braces yes otherwise braces' no rest =>
    return (← resolveBranch keyword guard (braces.block yes.resolve)
      (resolveElse otherwise (braces'.block no.resolve))) :: (← rest.resolve)
  | .loop keyword guard braces body rest =>
    return (← resolveLoop keyword guard (braces.block body.resolve)) :: (← rest.resolve)

def Parameter.resolve (p : Parameter) : Scoped VarRef := do
  let r ← declare p.name p.type.type false (.ofBool p.type.nullable)
  modifyTable (·.modify r fun v => { v with param := true })
  return r

def resolveParameters : Listed Parameter → Scoped (List VarRef)
  | .nil => return []
  | .last p => return [← p.resolve]
  | .cons p _ rest => return (← p.resolve) :: (← resolveParameters rest)

def Function.resolve (f : Function) : Scoped Tree.Function := do
  enter .function f.name.1.literal
  let params ← resolveParameters f.params
  let body ← f.braces.block f.body.resolve
  return ⟨f.pub.1.pos, f.name.1.literal, f.signature, params, body⟩

def resolveFunctions : List Function → Scoped (List Tree.Function)
  | [] => return []
  | f :: rest => return (← f.resolve) :: (← resolveFunctions rest)

def Program.resolve (p : Program) : Scoped Tree.Program :=
  return ⟨p.prolog.const.1.pos, Cause.importPath, ← resolveFunctions p.functions⟩

end Ifj24.Grammar
