import Ifj24.Tree.Parser
import Ifj24.Typing.Expression

/-!
Checking statements, functions and whole programs. Every function body is walked
once; a variable declared without a type or a nullability takes those of the
first value stored in it. The first failure ends the check. Checking returns the
tree it has reached also when it fails: what was annotated or converted before
the failure stays so.
-/

namespace Ifj24.Typing

open Ifj24.Tree

structure CheckState where
  table : Table
  returns : Nat

abbrev Checker := StateM CheckState

/-- A node after its check, and why the check failed if it did. -/
structure Checked (node : Type) where
  node : node
  failure : Option Diagnostic

namespace Checked

def ok {node : Type} (n : node) : Checked node := ⟨n, none⟩

def map {a b : Type} (f : a → b) (c : Checked a) : Checked b := ⟨f c.node, c.failure⟩

end Checked

def modifyVar (r : VarRef) (f : Var → Var) : Checker Unit :=
  modify fun s => { s with table := s.table.modify r f }

def calledName? : Expr → Option Bytes
  | .call c => some c.name
  | _ => none

/-- Checks that the value `x`, which evaluates to `y`, may be stored as far as null
is concerned. An open nullability is taken from the value. -/
def storeNullability (r : VarRef) (y : Evaluated) (x : Expr) : Checker (Checked Expr) := do
  let v := (← get).table.var r
  match v.nullable with
  | .unknown =>
    modifyVar r fun v => { v with nullable := .ofBool y.nullable }
    return .ok x
  | .no =>
    if y.nullable then return ⟨x, some ⟨x.pos, .badAssignment y.use v.typeUse v.name⟩⟩
    else return .ok x
  | .yes => return .ok x

/-- Checks that a value may be stored in a variable. An open type is taken from
the value. -/
def assignment (r : VarRef) (x : Expr) : Checker (Checked Expr) := do
  let table := (← get).table
  match value table x with
  | .error d x => return ⟨x, some d⟩
  | .ok y x =>
    let v := table.var r
    if y.mode = .noValue then return ⟨x, some ⟨x.pos, .noValueUsed (calledName? x)⟩⟩
    else if v.isDiscard then return .ok x
    else if !v.type.isResolved then
      if y.mode = .null then return ⟨x, some ⟨x.pos, .untypedNull v.name⟩⟩
      else
        modifyVar r fun v => { v with type := y.type }
        storeNullability r y x
    else if y.mode = .null then storeNullability r y x
    else
      match convertValue y v.type x with
      | .error d x => return ⟨x, some d⟩
      | .ok none x => return ⟨x, some ⟨x.pos, .badAssignment y.use v.typeUse v.name⟩⟩
      | .ok (some y) x => storeNullability r y x

def callStmt (c : Call) : Checker (Checked Call) := do
  match call (← get).table c with
  | .error d c => return ⟨c, some d⟩
  | .ok y c =>
    if y.mode = .noValue then return .ok c
    else return ⟨c, some ⟨c.pos, .droppedResult c.name y.use⟩⟩

/-- Checks what decides a branch or a loop. The name that an unwrapping binds
takes the type of the subject. -/
def guard (g : Guard) : Checker (Checked Guard) := do
  let table := (← get).table
  match g with
  | .compare c =>
    match truth table c with
    | .ok _ c => return .ok (.compare c)
    | .error d c => return ⟨.compare c, some d⟩
  | .unwrap subject binding =>
    match leaf table (.variable subject) none with
    | .error d => return ⟨g, some d⟩
    | .ok y =>
      if y.nullable then
        modifyVar binding fun v => { v with type := y.type, nullable := .no }
        return .ok g
      else return ⟨g, some ⟨subject.pos, .notUnwrappable (table.var subject.var).name⟩⟩

def returned (f : FuncDef) (x : Expr) : Checker (Checked Expr) := do
  match value (← get).table x with
  | .error d x => return ⟨x, some d⟩
  | .ok y x =>
    let refused : Checked Expr :=
      ⟨x, some ⟨x.pos, .badReturn y.use ⟨f.result, f.nullableResult⟩⟩⟩
    if y.mode = .noValue then return ⟨x, some ⟨x.pos, .noValueUsed (calledName? x)⟩⟩
    else if y.nullable && !f.nullableResult then return refused
    else if y.mode = .null then return .ok x
    else
      match convertValue y f.result x with
      | .error d x => return ⟨x, some d⟩
      | .ok none _ => return refused
      | .ok (some _) x => return .ok x

def returnStmt (f : FuncDef) (pos : Pos) (x : Option Expr) : Checker (Checked (Option Expr)) := do
  modify fun s => { s with returns := s.returns + 1 }
  match x with
  | none =>
    if f.result = .void then return .ok none
    else return ⟨none, some ⟨pos, .notEnoughReturns f.name ⟨f.result, f.nullableResult⟩⟩⟩
  | some x =>
    if f.result = .void then return ⟨some x, some ⟨pos, .tooManyReturns f.name⟩⟩
    else return (← returned f x).map some

mutual

def stmt (f : FuncDef) : Stmt → Checker (Checked Stmt)
  | .declare pos r x => do return (← assignment r x).map (.declare pos r)
  | .assign pos r x => do
    let v := (← get).table.var r
    if Table.canMutate v then return (← assignment r x).map (.assign pos r)
    else return ⟨.assign pos r x, some ⟨pos, .assignedConst v.name⟩⟩
  | .call c => do return (← callStmt c).map .call
  | .ifElse pos cond yes no => do
    let ⟨cond, failure⟩ ← guard cond
    if failure.isSome then return ⟨.ifElse pos cond yes no, failure⟩
    let ⟨thenStmts, failure⟩ ← stmts f yes.stmts
    let yes' : Block := { yes with stmts := thenStmts }
    if failure.isSome then return ⟨.ifElse pos cond yes' no, failure⟩
    match no with
    | none => return .ok (.ifElse pos cond yes' none)
    | some e =>
      let ⟨elseStmts, failure⟩ ← stmts f e.body.stmts
      return ⟨.ifElse pos cond yes' (some ⟨e.pos, { e.body with stmts := elseStmts }⟩), failure⟩
  | .while pos cond body => do
    let ⟨cond, failure⟩ ← guard cond
    if failure.isSome then return ⟨.while pos cond body, failure⟩
    let ⟨bodyStmts, failure⟩ ← stmts f body.stmts
    return ⟨.while pos cond { body with stmts := bodyStmts }, failure⟩
  | .return pos x => do return (← returnStmt f pos x).map (.return pos)
  | .elseStart e => do
    let ⟨bodyStmts, failure⟩ ← stmts f e.body.stmts
    return ⟨.elseStart ⟨e.pos, { e.body with stmts := bodyStmts }⟩, failure⟩
  | .blockEnd e => return .ok (.blockEnd e)
termination_by structural s => s

/-- Checks statements one after the other, up to the first failure. -/
def stmts (f : FuncDef) : List Stmt → Checker (Checked (List Stmt))
  | [] => return .ok []
  | s :: rest => do
    let ⟨s, failure⟩ ← stmt f s
    if failure.isSome then return ⟨s :: rest, failure⟩
    return (← stmts f rest).map (s :: ·)
termination_by structural ss => ss

end

/-- Checks a function. One with a result has to have a return statement. The
message tells how many it has. -/
def function (fn : Function) : Checker (Checked Function × Option Bytes) := do
  modify fun s => { s with returns := 0 }
  let ⟨body, failure⟩ ← stmts fn.definition fn.body.stmts
  let fn := { fn with body := { fn.body with stmts := body } }
  if failure.isSome then return (⟨fn, failure⟩, none)
  let f := fn.definition
  let returns := (← get).returns
  if f.result ≠ .void ∧ f.name ≠ Bytes.ofString "main" ∧ returns = 0 then
    return (⟨fn, some ⟨fn.pos, .missingReturn f.name ⟨f.result, f.nullableResult⟩⟩⟩, none)
  return (.ok fn, some ("checked " ++ f.signature ++ " (" ++ Bytes.ofNat returns ++ " returns)"))

def functions : List Function → Checker (Checked (List Function) × List Bytes)
  | [] => return (.ok [], [])
  | fn :: rest => do
    let (⟨fn, failure⟩, message) ← function fn
    if failure.isSome then return (⟨fn :: rest, failure⟩, message.toList)
    let (checked, messages) ← functions rest
    return (checked.map (fn :: ·), message.toList ++ messages)

structure ProgramCheck where
  program : Program
  table : Table
  trace : List Bytes
  failure : Option Diagnostic

/-- Checks a program. A broken rule of use found while parsing is a failure if
there is no other. -/
def check (parsed : Parsed) (table : Table) : ProgramCheck :=
  let ((checked, trace), s) := (functions parsed.program.functions).run ⟨table, 0⟩
  { program := { parsed.program with functions := checked.node }
    table := s.table
    trace
    failure := checked.failure.or parsed.unused }

end Ifj24.Typing
