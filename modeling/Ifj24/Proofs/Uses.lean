import Ifj24.Tree.Node

/-!
Where a tree uses variables, and what is visible there. A variable is visible behind its
declaration up to the end of the body that declares it, and what a guard binds is visible in
the body behind the guard.
-/

namespace Ifj24.Tree

def Expr.leafUses : Expr → List Variable
  | .variable v => [v]
  | .value _ | .operand _ | .expression _ | .truth _ | .call _ => []

def usesIn (xs : List Expr) : List Variable := xs.flatMap Expr.leafUses

def Expr.uses : Expr → List Variable
  | .variable v => [v]
  | .expression e => usesIn e.items
  | .call c => usesIn c.args
  | .value _ | .operand _ | .truth _ => []

def Guard.uses : Guard → List Variable
  | .compare c => usesIn c.left.items ++ usesIn c.right.items
  | .unwrap subject _ => [subject]

mutual

/-- The uses of variables in a statement, in the order of the source. The target of an
assignment is a use. -/
def Stmt.uses : Stmt → List Variable
  | .declare _ _ x => x.uses
  | .assign pos r x => ⟨pos, r⟩ :: x.uses
  | .call c => usesIn c.args
  | .ifElse _ g yes no =>
    g.uses ++ (stmtsUses yes.stmts ++
      match no with
      | none => []
      | some e => stmtsUses e.body.stmts)
  | .while _ g body => g.uses ++ stmtsUses body.stmts
  | .return _ none => []
  | .return _ (some x) => x.uses
  | .elseStart e => stmtsUses e.body.stmts
  | .blockEnd _ => []
termination_by structural s => s

def stmtsUses : List Stmt → List Variable
  | [] => []
  | s :: rest => s.uses ++ stmtsUses rest
termination_by structural ss => ss

end

def Program.uses (p : Program) : List Variable :=
  p.functions.flatMap fun f => stmtsUses f.body.stmts

def Visible (vs : List VarRef) (uses : List Variable) : Prop := ∀ v ∈ uses, v.var ∈ vs

def Stmt.reveals : Stmt → List VarRef
  | .declare _ r _ => [r]
  | .assign .. | .call _ | .ifElse .. | .while .. | .return .. | .elseStart _ | .blockEnd _ => []

mutual

def Stmt.InScope (vs : List VarRef) : Stmt → Prop
  | .declare _ _ x => Visible vs x.uses
  | .assign pos r x => Visible vs (⟨pos, r⟩ :: x.uses)
  | .call c => Visible vs (usesIn c.args)
  | .ifElse _ g yes no =>
    Visible vs g.uses ∧ StmtsInScope (g.binding?.toList ++ vs) yes.stmts ∧
      match no with
      | none => True
      | some e => StmtsInScope vs e.body.stmts
  | .while _ g body => Visible vs g.uses ∧ StmtsInScope (g.binding?.toList ++ vs) body.stmts
  | .return _ none => True
  | .return _ (some x) => Visible vs x.uses
  | .elseStart e => StmtsInScope vs e.body.stmts
  | .blockEnd _ => True
termination_by structural s => s

def StmtsInScope (vs : List VarRef) : List Stmt → Prop
  | [] => True
  | s :: rest => s.InScope vs ∧ StmtsInScope (s.reveals ++ vs) rest
termination_by structural ss => ss

end

section

variable (pos : Pos) (g : Guard) (body : Block) (rest : List Stmt)

theorem stmtsUses_if :
    stmtsUses (.ifElse pos g body none :: rest) =
      g.uses ++ (stmtsUses body.stmts ++ stmtsUses rest) := by
  simp [stmtsUses, Stmt.uses]

theorem stmtsUses_ifElse (e : Else) :
    stmtsUses (.ifElse pos g body (some e) :: rest) =
      g.uses ++ (stmtsUses body.stmts ++ (stmtsUses e.body.stmts ++ stmtsUses rest)) := by
  simp [stmtsUses, Stmt.uses]

theorem stmtsUses_while :
    stmtsUses (.while pos g body :: rest) =
      g.uses ++ (stmtsUses body.stmts ++ stmtsUses rest) := by
  simp [stmtsUses, Stmt.uses]

end

end Ifj24.Tree
