import Ifj24.Proofs.Wiring

/-!
Statements use only what is visible where they stand: lexical scoping makes a tree so, and
checking leaves it so. The variables of the frame of a function are those that a walk over it
finds declared.
-/

namespace Ifj24

namespace Tree

open Code (everywhere)

section

def NodeRef.declares : NodeRef → List VarRef
  | .function f => f.params
  | .stmt (.declare _ r _) => [r]
  | .stmt (.ifElse _ g _ _) | .stmt (.while _ g _) => g.binding?.toList
  | _ => []

def declaredAmong (nodes : List NodeRef) : List VarRef := nodes.flatMap NodeRef.declares

def Function.declares (f : Function) : List VarRef := declaredAmong (Walk.function everywhere f)

theorem declaredAmong_append (ns ms : List NodeRef) :
    declaredAmong (ns ++ ms) = declaredAmong ns ++ declaredAmong ms := List.flatMap_append

theorem declaredAmong_visit (n : NodeRef) (below : List NodeRef) :
    declaredAmong (Walk.visit everywhere n below) = n.declares ++ declaredAmong below := rfl

theorem declaredAmong_block (b : Block) (inside : List NodeRef) :
    declaredAmong (Walk.blockAround everywhere b inside) = declaredAmong inside := by
  rw [Walk.blockAround, declaredAmong_visit, declaredAmong_append, declaredAmong_visit]
  exact List.append_nil _

theorem declaredAmong_else (e : Else) (inside : List NodeRef) :
    declaredAmong (Walk.elseAround everywhere e inside) = declaredAmong inside := by
  rw [Walk.elseAround, declaredAmong_visit, declaredAmong_block]
  rfl

mutual

theorem declaredAmong_expr (x : Expr) : declaredAmong (Walk.expr everywhere x) = [] := by
  cases x with
  | value v => rfl
  | «variable» v => rfl
  | operand o => rfl
  | expression e =>
    rw [Walk.expr, declaredAmong_visit, declaredAmong_exprs e.items]
    rfl
  | truth c =>
    rw [Walk.expr, declaredAmong_visit, declaredAmong_append, declaredAmong_visit,
      declaredAmong_visit, declaredAmong_exprs c.left.items, declaredAmong_exprs c.right.items]
    rfl
  | call c =>
    rw [Walk.expr, declaredAmong_visit, declaredAmong_exprs c.args]
    rfl
termination_by structural x

theorem declaredAmong_exprs (xs : List Expr) : declaredAmong (Walk.exprs everywhere xs) = [] := by
  cases xs with
  | nil => rfl
  | cons x rest =>
    rw [Walk.exprs, declaredAmong_append, declaredAmong_expr x, declaredAmong_exprs rest]
    rfl
termination_by structural xs

end

theorem declaredAmong_guard (g : Guard) : declaredAmong (Walk.guard everywhere g) = [] := by
  cases g <;> exact declaredAmong_expr _

mutual

theorem declaredAmong_stmt (x : Stmt) :
    declaredAmong (Walk.stmt everywhere x) = Code.declared x := by
  cases x with
  | declare pos r x => exact congrArg ([r] ++ ·) (declaredAmong_expr x)
  | assign pos r x => exact declaredAmong_expr x
  | call c => exact declaredAmong_expr (.call c)
  | ifElse pos g yes no =>
    cases no with
    | none =>
      rw [Walk.stmt, declaredAmong_visit, declaredAmong_append, declaredAmong_append,
        declaredAmong_guard, declaredAmong_block, declaredAmong_stmts yes.stmts, Code.declared]
      exact (List.append_assoc ..).symm
    | some e =>
      rw [Walk.stmt, declaredAmong_visit, declaredAmong_append, declaredAmong_append,
        declaredAmong_guard, declaredAmong_block, declaredAmong_else,
        declaredAmong_stmts yes.stmts, declaredAmong_stmts e.body.stmts, Code.declared]
      exact (List.append_assoc ..).symm
  | «while» pos g body =>
    rw [Walk.stmt, declaredAmong_visit, declaredAmong_append, declaredAmong_guard,
      declaredAmong_block, declaredAmong_stmts body.stmts, Code.declared]
    rfl
  | «return» pos x =>
    cases x with
    | none => rfl
    | some x => exact declaredAmong_expr x
  | elseStart e =>
    rw [Walk.stmt, declaredAmong_else, declaredAmong_stmts e.body.stmts, Code.declared]
  | blockEnd e => rfl
termination_by structural x

theorem declaredAmong_stmts (xs : List Stmt) :
    declaredAmong (Walk.stmts everywhere xs) = Code.declaredIn xs := by
  cases xs with
  | nil => rfl
  | cons x rest =>
    rw [Walk.stmts, declaredAmong_append, declaredAmong_stmt x, declaredAmong_stmts rest,
      Code.declaredIn]
termination_by structural xs

end

theorem Function.declares_eq (fn : Function) : fn.declares = Code.frameVars fn := by
  rw [Function.declares, Walk.function, declaredAmong_visit, declaredAmong_block,
    declaredAmong_stmts]
  rfl

end

end Tree

namespace Grammar

open Ifj24.Tree

theorem Program.Accepted.resolved {p : Program} {hash : NameHash} {strict : Bool} {parsed : Parsed}
    {u : Table} (h : p.Accepted hash strict parsed u) :
    Linked parsed.program.uses p.sites ∧ ∀ fn ∈ parsed.program.functions,
      StmtsInScope (fn.params ++ [Table.discard]) fn.body.stmts := by
  have hbinds := p.binds ⟨{ Table.fresh hash strict with funcs := u.funcs }, none⟩
    ((shows_fresh hash strict).withFuncs u.funcs)
  rw [h.resolve] at hbinds
  exact (hbinds.2.2.2.2 u (.refl u)).2

end Grammar

namespace Typing

open Ifj24.Tree

section

theorem usesIn_bare (xs : List Expr) : usesIn (bare xs) = usesIn xs := by
  rw [usesIn, bare_items, List.flatMap_map]
  congr 1
  funext x
  cases x <;> rfl

theorem uses_bare (x : Expr) : (bare x).uses = x.uses := by
  cases x with
  | expression e => exact usesIn_bare e.items
  | call c => exact usesIn_bare c.args
  | value | «variable» | operand | truth => rfl

theorem guardUses_bare (g : Guard) : (bare g).uses = g.uses := by
  cases g with
  | compare c => exact congrArg₂ _ (usesIn_bare c.left.items) (usesIn_bare c.right.items)
  | unwrap => rfl

theorem reveals_bare (x : Stmt) : (bareStmt x).reveals = x.reveals := by
  cases x <;> rfl

mutual

theorem inScope_bare (x : Stmt) (vs : List VarRef) : (bareStmt x).InScope vs ↔ x.InScope vs := by
  cases x with
  | declare pos r x | assign pos r x => rw [bareStmt, Stmt.InScope, Stmt.InScope, uses_bare]
  | call c =>
    exact iff_of_eq (congrArg (Visible vs) (usesIn_bare c.args))
  | ifElse pos g yes no =>
    cases no with
    | none =>
      simp only [bareStmt, Stmt.InScope, guardUses_bare, binding_bare,
        inScopes_bare yes.stmts]
    | some e =>
      simp only [bareStmt, Stmt.InScope, guardUses_bare, binding_bare,
        inScopes_bare yes.stmts, inScopes_bare e.body.stmts]
  | «while» pos g body =>
    simp only [bareStmt, Stmt.InScope, guardUses_bare, binding_bare, inScopes_bare body.stmts]
  | «return» pos x =>
    cases x with
    | none => rfl
    | some x => exact iff_of_eq (congrArg (Visible vs) (uses_bare x))
  | elseStart e => exact inScopes_bare e.body.stmts vs
  | blockEnd e => rfl
termination_by structural x

theorem inScopes_bare (xs : List Stmt) (vs : List VarRef) :
    StmtsInScope vs (bareStmts xs) ↔ StmtsInScope vs xs := by
  cases xs with
  | nil => rfl
  | cons x rest =>
    rw [bareStmts, StmtsInScope, StmtsInScope, reveals_bare, inScope_bare x, inScopes_bare rest]
termination_by structural xs

end

end

end Typing

end Ifj24
