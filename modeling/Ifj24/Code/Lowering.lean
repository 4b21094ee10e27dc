import Ifj24.Code.Library
import Ifj24.Number.Read
import Ifj24.Tree.Node

/-!
From checked trees to instructions. Every function has one frame that holds all of
its variables, defined at its entry. Arguments and results are on the data stack,
where expressions are evaluated too.

A tree that no program has is lowered as far as it goes: the first failure is
kept, and what cannot be lowered leaves no instruction.
-/

namespace Ifj24.Code

open Ifj24.Tree

structure LowerState where
  labels : Nat
  failure : Option Diagnostic

abbrev Lower := StateM LowerState

namespace Lower

def fail (d : Diagnostic) : Lower (List Instr) := do
  modify fun s => { s with failure := s.failure.or (some d) }
  return []

def freshNumber : Lower Nat :=
  modifyGet fun s => (s.labels, { s with labels := s.labels + 1 })

end Lower

def constant (v : Value) : Except Diagnostic Constant :=
  if v.null then .ok .nil
  else
    match v.type with
    | .i32 =>
      match Number.readInt64? v.literal with
      | some n => .ok (.int n)
      | none => .error ⟨v.pos, .badInt v.literal⟩
    | .f64 =>
      match Number.readDouble? v.literal with
      | some x => .ok (.float x)
      | none => .error ⟨v.pos, .badFloat v.literal⟩
    | .u8 => .ok (.string v.literal)
    | type => .error ⟨v.pos, .literalType type⟩

/-- The operation of an arithmetic operator. Integers have a division of their
own. -/
def arithmetic (o : Operand) : Except Diagnostic StackOp :=
  match o.op with
  | .add => .ok .add
  | .sub => .ok .sub
  | .mul => .ok .mul
  | .div => .ok (if o.type = .i32 then .idiv else .div)
  | op => .error ⟨o.pos, .badOperator op⟩

def comparison? : TokenKind → Option (List StackOp)
  | .eql => some [.eq]
  | .neq => some [.eq, .not]
  | .lss => some [.lt]
  | .gtr => some [.gt]
  | .leq => some [.gt, .not]
  | .geq => some [.lt, .not]
  | _ => none

section

variable (t : Table)

def place (r : VarRef) : Place :=
  let v := t.var r
  if v.isDiscard then .discard else .local v.name v.id

def push : Expr → Lower (List Instr)
  | .value v =>
    match constant v with
    | .ok c => return [.push (.constant c)]
    | .error d => Lower.fail d
  | .variable v => return [.push (.place (place t v.var))]
  | x => Lower.fail ⟨x.pos, .cannotPush x.kind⟩

def pushAll : List Expr → Lower (List Instr)
  | [] => return []
  | x :: rest => return (← push t x) ++ (← pushAll rest)

/-- Evaluates a postfix sequence on the data stack. Nothing after an operator
that has no operation is lowered. -/
def lowerItems : List Expr → Lower (List Instr)
  | [] => return []
  | .operand o :: rest =>
    match arithmetic o with
    | .ok op => return .stack op :: (← lowerItems rest)
    | .error d => Lower.fail d
  | x :: rest => return (← push t x) ++ (← lowerItems rest)

def lowerCall (c : Call) : Lower (List Instr) := do
  match c.target with
  | none => Lower.fail ⟨c.pos, .unresolvedCall c.name⟩
  | some f =>
    let args ← pushAll t c.args
    if f.builtin then
      match Builtin.ofName? c.name with
      | some b => return args ++ [.call (.builtin b)]
      | none => return args ++ (← Lower.fail ⟨c.pos, .missingHelper c.name⟩)
    else return args ++ [.call (.function c.name)]

/-- Leaves the value of a right-hand side on the data stack. -/
def lowerValue : Expr → Lower (List Instr)
  | .expression e => lowerItems t e.items
  | .call c => lowerCall t c
  | .value v => push t (.value v)
  | .variable v => push t (.variable v)
  | x => Lower.fail ⟨x.pos, .cannotLower x.kind⟩

/-- Jumps to a label if a guard does not hold. A comparison is made through its
negation; an unwrapping copies the subject if that is not null. -/
def lowerGuard (target : Label) : Guard → Lower (List Instr)
  | .unwrap subject binding =>
    return [.push (.place (place t subject.var)), .push (.constant .nil), .jumpIfEqs target,
      .move (place t binding) (.place (place t subject.var))]
  | .compare c => do
    let left ← lowerItems t c.left.items
    let right ← lowerItems t c.right.items
    match comparison? c.op.negate with
    | none => return left ++ right ++ (← Lower.fail ⟨c.pos, .comparisonOperator c.op⟩)
    | some ops =>
      return left ++ right ++ ops.map .stack ++
        [.push (.constant (.bool true)), .jumpIfEqs target]

mutual

def lowerStmt (owner : Bytes) : Stmt → Lower (List Instr)
  | .declare _ r x => return (← lowerValue t x) ++ [.pop (place t r)]
  | .assign _ r x => return (← lowerValue t x) ++ [.pop (place t r)]
  | .call c => lowerCall t c
  | .ifElse _ cond yes no => do
    let number ← Lower.freshNumber
    let otherwise : Label := .flow owner .otherwise number
    let done : Label := .flow owner .endIf number
    let jump ← lowerGuard t otherwise cond
    let thenCode ← lowerStmts owner yes.stmts
    match no with
    | none => return jump ++ thenCode ++ [.label otherwise]
    | some e =>
      let elseCode ← lowerStmts owner e.body.stmts
      return jump ++ thenCode ++ [.jump done, .label otherwise] ++ elseCode ++ [.label done]
  | .while _ cond body => do
    let number ← Lower.freshNumber
    let again : Label := .flow owner .loop number
    let done : Label := .flow owner .endLoop number
    let jump ← lowerGuard t done cond
    let bodyCode ← lowerStmts owner body.stmts
    return [.label again] ++ jump ++ bodyCode ++ [.jump again, .label done]
  | .return _ x => do
    let value ← match x with
      | some x => lowerValue t x
      | none => pure []
    return value ++ [.popFrame, .return]
  | .elseStart e => Lower.fail ⟨e.pos, .cannotLower .elseStart⟩
  | .blockEnd _ => return []
termination_by structural s => s

def lowerStmts (owner : Bytes) : List Stmt → Lower (List Instr)
  | [] => return []
  | s :: rest => return (← lowerStmt owner s) ++ (← lowerStmts owner rest)
termination_by structural ss => ss

end

end

mutual

/-- The variables that a statement declares, in the order of their
declarations. -/
def declared : Stmt → List VarRef
  | .declare _ r _ => [r]
  | .ifElse _ cond yes no =>
    cond.binding?.toList ++ declaredIn yes.stmts ++
      match no with
      | none => []
      | some e => declaredIn e.body.stmts
  | .while _ cond body => cond.binding?.toList ++ declaredIn body.stmts
  | .elseStart e => declaredIn e.body.stmts
  | .assign .. | .call _ | .return .. | .blockEnd _ => []
termination_by structural s => s

def declaredIn : List Stmt → List VarRef
  | [] => []
  | s :: rest => declared s ++ declaredIn rest
termination_by structural ss => ss

end

def frameVars (f : Function) : List VarRef := f.params ++ declaredIn f.body.stmts

/-- The instructions of a function. The last argument is on top of the data
stack. -/
def lowerFunction (t : Table) (f : Function) : Lower (List Instr) := do
  let entry : List Instr :=
    [.label (.function f.name), .createFrame, .pushFrame] ++
      (frameVars f).map (fun r => .defVar (place t r)) ++
      f.params.reverse.map fun r => .pop (place t r)
  let body ← lowerStmts t f.name f.body.stmts
  return entry ++ body ++ [.popFrame, .return]

def lowerFunctions (t : Table) : List Function → Lower (List (Function × List Instr))
  | [] => return []
  | f :: rest => return (f, ← lowerFunction t f) :: (← lowerFunctions t rest)

end Ifj24.Code
