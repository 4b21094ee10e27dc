import Ifj24.Proofs.Tables
import Ifj24.Typing.Statement

/-!
Types as a relation on trees. Every leaf of a tree has a type, a sequence in postfix
order has one if both operands of each of its operators have the type that the operator
is annotated with, and a statement is well typed if the values in it fit where they go.
Nothing here converts a literal: what is well typed has no conversion left to do.

Types that are known stay when a table comes to know more.
-/

namespace Ifj24

/-- The table `u` knows at least the types that `t` knows. -/
structure Table.Refines (t u : Table) : Prop where
  hash : u.hash = t.hash
  funcs : u.funcs = t.funcs
  id : ∀ r, (u.var r).id = (t.var r).id
  mutable_ : ∀ r, (u.var r).mutable_ = (t.var r).mutable_
  type : ∀ r, (t.var r).type.isResolved = true → (u.var r).type = (t.var r).type
  nullable : ∀ r, (t.var r).type.isResolved = true → (u.var r).nullable = (t.var r).nullable

namespace Table.Refines

variable {t u v : Table}

theorem refl (t : Table) : t.Refines t :=
  ⟨rfl, rfl, fun _ => rfl, fun _ => rfl, fun _ _ => rfl, fun _ _ => rfl⟩

theorem trans (h : t.Refines u) (h' : u.Refines v) : t.Refines v where
  hash := h'.hash.trans h.hash
  funcs := h'.funcs.trans h.funcs
  id r := (h'.id r).trans (h.id r)
  mutable_ r := (h'.mutable_ r).trans (h.mutable_ r)
  type r hr := by
    have hu := h.type r hr
    exact (h'.type r (hu ▸ hr)).trans hu
  nullable r hr := (h'.nullable r (h.type r hr ▸ hr)).trans (h.nullable r hr)

theorem lookupFunction? (h : t.Refines u) (name : Bytes) :
    u.lookupFunction? name = t.lookupFunction? name := by
  simp only [Table.lookupFunction?, h.funcs, h.hash]

theorem isDiscard (h : t.Refines u) (r : VarRef) :
    (u.var r).isDiscard = (t.var r).isDiscard := by
  simp only [Var.isDiscard, h.id r]

end Table.Refines

def OperandUse.IsPlain (u : OperandUse) (type : DataType) : Prop :=
  u.mode ≠ .null ∧ u.type = ⟨type, false⟩

end Ifj24

namespace Ifj24.Typing

open Ifj24.Tree

inductive LeafHas (t : Table) : Expr → OperandUse → Prop
  | null {v : Value} (h : v.null = true) : LeafHas t (.value v) ⟨.null, .unresolved, true⟩
  | literal {v : Value} (h : v.null = false) (htype : v.type.isResolved = true) :
    LeafHas t (.value v) ⟨.literal, v.type, false⟩
  | var {v : Variable} (h : (t.var v.var).type.isResolved = true) :
    LeafHas t (.variable v) ⟨.variable, (t.var v.var).typeUse⟩

/-- The types of sequences in postfix order. Both operands of an operator have the type of
its annotation, which is a numeric one. -/
inductive SequenceHas (t : Table) : List Expr → OperandUse → Prop
  | leaf {x : Expr} {u : OperandUse} (h : LeafHas t x u) : SequenceHas t [x] u
  | operator {o : Operand} {ls rs : List Expr} {l r : OperandUse}
      (htype : o.type = .i32 ∨ o.type = .f64)
      (hl : SequenceHas t ls l) (hl' : l.IsPlain o.type)
      (hr : SequenceHas t rs r) (hr' : r.IsPlain o.type) :
    SequenceHas t (ls ++ (rs ++ [.operand o])) ⟨.value, o.type, false⟩

structure ExpressionHas (t : Table) (e : Expression) (u : OperandUse) : Prop where
  items : SequenceHas t e.items u
  type : e.type = u.type.type
  nullable : e.nullable = u.type.nullable

def ArgumentFits (t : Table) (x : Expr) (p : Param) : Prop :=
  ∃ u, LeafHas t x u ∧ (p.type = .any ∨ u.mode = .null ∨ u.type.type = p.type) ∧
    (u.type.nullable = true → p.nullable = true)

structure CallHas (t : Table) (c : Call) (f : FuncDef) : Prop where
  target : c.target = some f
  known : t.lookupFunction? c.name = some f
  arity : c.args.length = f.params.length
  args : ∀ (i : Nat) x p, c.args[i]? = some x → f.params[i]? = some p → ArgumentFits t x p

inductive ValueHas (t : Table) : Expr → OperandUse → Prop
  | leaf {x : Expr} {u : OperandUse} (h : LeafHas t x u) : ValueHas t x u
  | expression {e : Expression} {u : OperandUse} (h : ExpressionHas t e u) :
    ValueHas t (.expression e) u
  | call {c : Call} {f : FuncDef} (h : CallHas t c f) (hresult : f.result ≠ .void) :
    ValueHas t (.call c) ⟨.value, f.result, f.nullableResult⟩

/-- The sides of a comparison have one type, unless one of them is null. Only numbers are
ordered. -/
structure TruthHas (t : Table) (c : Truth) (l r : OperandUse) : Prop where
  left : ExpressionHas t c.left l
  right : ExpressionHas t c.right r
  same : l.mode = .null ∨ r.mode = .null ∨ l.type.type = r.type.type
  ordered : c.op.isEquality = false →
    (∃ type, type.isNumeric = true ∧ l.IsPlain type) ∧ ∃ type, type.isNumeric = true ∧ r.IsPlain type

/-- A value may be stored in a variable. Whatever goes to `_` only has to be a value. -/
def Stores (t : Table) (r : VarRef) (x : Expr) : Prop :=
  ∃ u, ValueHas t x u ∧
    ((t.var r).isDiscard = false →
      (u.mode = .null ∨ u.type.type = (t.var r).type) ∧
        (u.type.nullable = true → (t.var r).nullable = .yes))

def Returns (t : Table) (f : FuncDef) : Option Expr → Prop
  | none => f.result = .void
  | some x => f.result ≠ .void ∧ ∃ u, ValueHas t x u ∧
    (u.mode = .null ∨ u.type.type = f.result) ∧ (u.type.nullable = true → f.nullableResult = true)

def GuardHas (t : Table) : Guard → Prop
  | .compare c => ∃ l r, TruthHas t c l r
  | .unwrap subject binding =>
    (t.var subject.var).type.isResolved = true ∧ (t.var subject.var).nullable = .yes ∧
      (t.var binding).type = (t.var subject.var).type ∧ (t.var binding).nullable = .no

mutual

def StmtHas (t : Table) (f : FuncDef) : Stmt → Prop
  | .declare _ r x => Stores t r x
  | .assign _ r x => Table.canMutate (t.var r) = true ∧ Stores t r x
  | .call c => ∃ g, CallHas t c g ∧ g.result = .void
  | .ifElse _ g yes no =>
    GuardHas t g ∧ StmtsHave t f yes.stmts ∧
      match no with
      | none => True
      | some e => StmtsHave t f e.body.stmts
  | .while _ g body => GuardHas t g ∧ StmtsHave t f body.stmts
  | .return _ x => Returns t f x
  | .elseStart e => StmtsHave t f e.body.stmts
  | .blockEnd _ => True
termination_by structural s => s

def StmtsHave (t : Table) (f : FuncDef) : List Stmt → Prop
  | [] => True
  | s :: rest => StmtHas t f s ∧ StmtsHave t f rest
termination_by structural ss => ss

end

def ProgramHas (t : Table) (p : Program) : Prop :=
  ∀ f ∈ p.functions, StmtsHave t f.definition f.body.stmts

section

variable {x : Expr} {f : FuncDef} {l r : OperandUse}

variable {t u : Table}

theorem LeafHas.refine (h : LeafHas t x k) (hu : t.Refines u) :
    LeafHas u x k := by
  cases h with
  | null h => exact .null h
  | literal h htype => exact .literal h htype
  | @var v h =>
    have htype := hu.type v.var h
    have huse : (u.var v.var).typeUse = (t.var v.var).typeUse := by
      simp only [Var.typeUse, htype, hu.nullable v.var h]
    rw [← huse]
    exact .var (htype ▸ h)

/-- What has a type keeps it when the table comes to know more. -/
theorem SequenceHas.refine (h : SequenceHas t xs k) (hu : t.Refines u) : SequenceHas u xs k := by
  induction h with
  | leaf h => exact .leaf (h.refine hu)
  | operator htype _ hl' _ hr' ihl ihr => exact .operator htype ihl hl' ihr hr'

theorem ExpressionHas.refine (h : ExpressionHas t e k) (hu : t.Refines u) : ExpressionHas u e k :=
  ⟨h.items.refine hu, h.type, h.nullable⟩

theorem CallHas.refine (h : CallHas t c f) (hu : t.Refines u) :
    CallHas u c f where
  target := h.target
  known := (hu.lookupFunction? c.name).trans h.known
  arity := h.arity
  args i x p hx hp := by
    obtain ⟨k, hk, hfits⟩ := h.args i x p hx hp
    exact ⟨k, hk.refine hu, hfits⟩

theorem ValueHas.refine (h : ValueHas t x k) (hu : t.Refines u) :
    ValueHas u x k := by
  cases h with
  | leaf h => exact .leaf (h.refine hu)
  | expression h => exact .expression (h.refine hu)
  | call h hres => exact .call (h.refine hu) hres

theorem TruthHas.refine (h : TruthHas t c l r) (hu : t.Refines u) : TruthHas u c l r :=
  ⟨h.left.refine hu, h.right.refine hu, h.same, h.ordered⟩

theorem Returns.refine {x : Option Expr} (h : Returns t f x) (hu : t.Refines u) :
    Returns u f x := by
  cases x with
  | none => exact h
  | some e =>
    obtain ⟨hres, k, hk, hfits⟩ := h
    exact ⟨hres, k, hk.refine hu, hfits⟩

end

end Ifj24.Typing
