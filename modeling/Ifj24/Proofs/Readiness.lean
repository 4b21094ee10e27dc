import Ifj24.Proofs.Literals
import Ifj24.Proofs.Parsing

/-!
Trees that no later step has to refuse for its own sake. Their literals denote constants,
their postfix sequences leave one operand, their operators have instructions, and nothing
stands where it cannot be lowered. Parsing gives such trees if the literals of the source
can be represented.
-/

open List

namespace Ifj24.Tree

open ArithTree

inductive Shape where
  | value
  | variable
  | operator
  | other
  deriving DecidableEq, Repr

def Expr.shape : Expr → Shape
  | .value _ => .value
  | .variable _ => .variable
  | .operand _ => .operator
  | .expression _ | .truth _ | .call _ => .other

/-- The number of operands after a node if there are `n` before it. An operator takes two and
leaves one. -/
def Shape.step : Nat → Shape → Option Nat
  | n, .value => some (n + 1)
  | n, .variable => some (n + 1)
  | n + 2, .operator => some (n + 1)
  | _, _ => none

/-- The number of operands after a postfix sequence, if none of its operators lacks one. -/
def height (n : Nat) (xs : List Shape) : Option Nat := xs.foldlM Shape.step n

theorem height_cons (n : Nat) (x : Shape) (xs : List Shape) :
    height n (x :: xs) = (Shape.step n x).bind fun k => height k xs := foldlM_cons

theorem height_append (n : Nat) (xs ys : List Shape) :
    height n (xs ++ ys) = (height n xs).bind fun k => height k ys := foldlM_append

/-- An item of a postfix sequence that has an instruction. -/
def Expr.Sound (limit : Nat) : Expr → Prop
  | .value v => v.Sound limit
  | .variable _ => True
  | .operand o => ∃ op, Code.arithmetic o = .ok op
  | .expression _ | .truth _ | .call _ => False

structure Expr.IsTerm (limit : Nat) (x : Expr) : Prop where
  sound : x.Sound limit
  shape : x.shape ≠ .operator

structure ExpressionOf.Ready (limit : Nat) (e : Expression) : Prop where
  finished : e.finished = true
  items : ∀ x ∈ e.items, x.Sound limit
  single : height 0 (e.items.map Expr.shape) = some 1

structure TruthOf.Ready (limit : Nat) (c : Truth) : Prop where
  left : c.left.Ready limit
  right : c.right.Ready limit
  op : ∃ ops, Code.comparison? c.op.negate = some ops

/-- The conditions on calls differ before and after the check. -/
structure CallOf.Ready (limit : Nat) (C : Call → Prop) (c : Call) : Prop where
  args : ∀ x ∈ c.args, x.IsTerm limit
  target : C c

/-- A call that means a function, which has code if it is a built-in one. -/
def CallOf.Resolved (c : Call) : Prop :=
  ∃ f, c.target = some f ∧ (f.builtin = true → ∃ b, Code.Builtin.ofName? c.name = some b)

def Expr.Ready (limit : Nat) (C : Call → Prop) : Expr → Prop
  | .expression e => e.Ready limit
  | .call c => c.Ready limit C
  | .value _ | .variable _ | .operand _ | .truth _ => False

def Guard.Ready (limit : Nat) : Guard → Prop
  | .compare c => c.Ready limit
  | .unwrap _ _ => True

mutual

def Stmt.Ready (limit : Nat) (C : Call → Prop) : Stmt → Prop
  | .declare _ _ x => x.Ready limit C
  | .assign _ _ x => x.Ready limit C
  | .call c => c.Ready limit C
  | .ifElse _ g yes no =>
    g.Ready limit ∧ AllReady limit C yes.stmts ∧
      match no with
      | none => True
      | some e => AllReady limit C e.body.stmts
  | .while _ g body => g.Ready limit ∧ AllReady limit C body.stmts
  | .return _ none => True
  | .return _ (some x) => x.Ready limit C
  | .elseStart _ => False
  | .blockEnd _ => True
termination_by structural s => s

def AllReady (limit : Nat) (C : Call → Prop) : List Stmt → Prop
  | [] => True
  | s :: rest => s.Ready limit C ∧ AllReady limit C rest
termination_by structural ss => ss

end

def Program.Ready (limit : Nat) (C : Call → Prop) (p : Program) : Prop :=
  ∀ f ∈ p.functions, AllReady limit C f.body.stmts

section

variable {limit : Nat} {meaning : Bytes → VarRef}

theorem exists_arithmetic (h : o.op.isArith = true) :
    ∃ op, Code.arithmetic o = .ok op := by
  unfold Code.arithmetic
  revert h
  cases o.op <;> simp [TokenKind.isArith]

theorem exists_comparison {op : TokenKind} (h : op.isRelational = true) :
    ∃ ops, Code.comparison? op.negate = some ops := by
  revert h
  cases op <;> simp [TokenKind.isRelational, TokenKind.negate, Code.comparison?]

theorem isTerm_leafExpr (ha : a.Sound limit) : (leafExpr meaning a).IsTerm limit := by
  unfold leafExpr
  split
  · exact ⟨trivial, nofun⟩
  · rename_i hkind
    exact ⟨fun _ => ha.int hkind, nofun⟩
  · rename_i hkind
    exact ⟨fun _ => ha.float hkind, nofun⟩
  · exact ⟨fun _ => trivial, nofun⟩
  · exact ⟨fun hnull => (by cases hnull), nofun⟩

theorem height_postOrder (meaning : Bytes → VarRef) (tree : ArithTree) (n : Nat) :
    height n ((tree.postOrder meaning).map Expr.shape) = some (n + 1) := by
  induction tree generalizing n with
  | operand a ha =>
    rw [postOrder, map_singleton]
    unfold leafExpr
    split <;> rfl
  | binary l op hop r ihl ihr =>
    rw [postOrder, map_append, map_append, height_append, height_append, ihl,
      Option.bind_some, ihr]
    rfl
  | paren o ho inner c hc ih => exact ih n

theorem sound_postOrder {tree : ArithTree} (h : ∀ a ∈ tree.tokens, a.Sound limit) :
    ∀ x ∈ tree.postOrder meaning, x.Sound limit := by
  induction tree with
  | operand a ha =>
    intro x hx
    rw [mem_singleton.mp hx]
    exact (isTerm_leafExpr (h a (by simp [tokens]))).sound
  | binary l op hop r ihl ihr =>
    intro x hx
    simp only [postOrder, mem_append, mem_singleton] at hx
    rcases hx with (hx | hx) | rfl
    · exact ihl (fun a ha => h a (by simp [tokens, ha])) x hx
    · exact ihr (fun a ha => h a (by simp [tokens, ha])) x hx
    · exact exists_arithmetic hop
  | paren o ho inner c hc ih =>
    exact ih fun a ha => h a (by simp [tokens, ha])

end

end Ifj24.Tree

namespace Ifj24.Grammar

open Ifj24.Tree

variable {limit n : Nat}

theorem Arithmetic.ready (meaning : Bytes → VarRef) {e : Arithmetic}
    (h : ∀ a ∈ e.1.tokens, a.Sound limit) : (Arithmetic.expression meaning e).Ready limit where
  finished := rfl
  items := sound_postOrder h
  single := height_postOrder meaning e.1 0

theorem TermsDepict.isTerm (hd : TermsDepict T n args xs)
    (h : ∀ a ∈ args.tokens (fun a => [a.1]), a.Sound limit) : ∀ x ∈ xs, x.IsTerm limit := by
  induction hd with
  | nil => exact fun x hx => by cases hx
  | last ha =>
    intro x hx
    rw [mem_singleton.mp hx]
    exact isTerm_leafExpr (h _ (by simp [Listed.tokens]))
  | cons ha hrest ih =>
    intro x hx
    rcases mem_cons.mp hx with rfl | hx
    · exact isTerm_leafExpr (h _ (by simp [Listed.tokens]))
    · exact ih (fun a ha => h a (by simp [Listed.tokens, ha])) x hx

theorem Call.Depicts.ready {c : Call} {x : Tree.Call} (hd : c.Depicts T n x)
    (h : ∀ a ∈ c.tokens, a.Sound limit) : x.Ready limit fun _ => True := by
  cases hd with
  | mk hargs => exact ⟨hargs.isTerm fun a ha => h a (by simp [Call.tokens, ha]), trivial⟩

theorem Rhs.Depicts.ready {r : Rhs} {x : Expr} (hd : r.Depicts T n x)
    (h : ∀ a ∈ r.tokens, a.Sound limit) : x.Ready limit fun _ => True := by
  cases hd with
  | call hc => exact hc.ready h
  | arithmetic he => exact Arithmetic.ready _ h

theorem Plain.Depicts.ready {s : Plain} {x : Stmt} (hd : s.Depicts T n x)
    (h : ∀ a ∈ s.tokens, a.Sound limit) : x.Ready limit fun _ => True := by
  cases hd with
  | declare hvalue hvar => exact hvalue.ready fun a ha => h a (by simp [Plain.tokens, ha])
  | drop hvalue => exact hvalue.ready fun a ha => h a (by simp [Plain.tokens, ha])
  | assign htgt hvalue => exact hvalue.ready fun a ha => h a (by simp [Plain.tokens, ha])
  | call hc => exact hc.ready fun a ha => h a (by simp [Plain.tokens, ha])
  | returnNone => trivial
  | returnSome hvalue =>
    exact hvalue.ready fun a ha => h a (by simp [Plain.tokens, Plain.optional, ha])

theorem Guard.Depicts.ready {g : Guard} {x : Tree.Guard} (hd : g.Depicts T n x)
    (h : ∀ a ∈ g.tokens, a.Sound limit) : x.Ready limit := by
  cases hd with
  | @compare _ left right op _ _ hnames =>
    exact ⟨Arithmetic.ready _ fun a ha => h a (by simp [Guard.tokens, ha]),
      Arithmetic.ready _ fun a ha => h a (by simp [Guard.tokens, ha]), exists_comparison op.2⟩
  | unwrap => trivial

theorem Body.Depicts.ready {b : Body} {xs : List Stmt} (hd : b.Depicts T n xs)
    (h : ∀ a ∈ b.tokens, a.Sound limit) : AllReady limit (fun _ => True) xs := by
  induction hd with
  | done => trivial
  | plain hs hrest ih =>
    simp only [Body.tokens, forall_mem_append] at h
    exact ⟨hs.ready h.1, ih h.2⟩
  | branch hguard hyes hrest ihYes ih =>
    simp only [Body.tokens, Braces.tokens, forall_mem_append, forall_mem_cons] at h
    exact ⟨⟨hguard.ready h.2.1, ihYes h.2.2.1.2.1, trivial⟩, ih h.2.2.2⟩
  | branchElse hguard hyes hno hrest ihYes ihNo ih =>
    simp only [Body.tokens, Braces.tokens, forall_mem_append, forall_mem_cons] at h
    obtain ⟨-, hg, ⟨-, hy, -⟩, -, ⟨-, hn, -⟩, hr⟩ := h
    exact ⟨⟨hguard.ready hg, ihYes hy, ihNo hn⟩, ih hr⟩
  | loop hguard hbody hrest ihBody ih =>
    simp only [Body.tokens, Braces.tokens, forall_mem_append, forall_mem_cons] at h
    obtain ⟨-, hg, ⟨-, hb, -⟩, hr⟩ := h
    exact ⟨⟨hguard.ready hg, ihBody hb⟩, ih hr⟩

theorem FunctionsDepict.ready {fs : List Function} {xs : List Tree.Function}
    (hd : FunctionsDepict T n fs xs) (h : ∀ a ∈ fs.flatMap Function.tokens, a.Sound limit) :
    ∀ x ∈ xs, AllReady limit (fun _ => True) x.body.stmts := by
  induction hd with
  | nil => exact fun x hx => by cases hx
  | cons hf hrest ih =>
    rw [flatMap_cons, forall_mem_append] at h
    intro x hx
    rcases mem_cons.mp hx with rfl | hx
    · cases hf with
      | mk hparams hbody =>
        refine hbody.ready fun a ha => h.1 a ?_
        simp [Function.tokens, Heading.before, Braces.tokens, ha]
    · exact ih h.2 x hx

theorem Program.Depicts.ready {p : Program} {program : Tree.Program} (hd : p.Depicts T program)
    (h : ∀ a ∈ p.tokens, a.Sound limit) : program.Ready limit fun _ => True :=
  hd.functions.ready fun a ha => h a (p.mem_tokens ha)

/-- The tree that parsing gives is ready to be checked. -/
theorem exists_accepted_ready {hash : NameHash} {strict : Bool} {u : Table} {parsed : Parsed}
    {ts : List Token} (h : ∀ a ∈ ts, a.Sound limit)
    (hparse : parse (.ofTokens ts) (.fresh hash strict) = .ok parsed u) :
    (∃ p : Program, p.Accepted hash strict parsed u) ∧ parsed.program.Ready limit fun _ => True := by
  obtain ⟨p, behind, hp, hacc⟩ :=
    exists_accepted_tokens (TokenBuffer.last_ofTokens ts) hparse
  refine ⟨⟨p, hacc⟩, hacc.depicts.ready fun a ha => ?_⟩
  have hmem : a ∈ (TokenBuffer.ofTokens ts).items := hp ▸ mem_append_left _ ha
  rcases TokenBuffer.mem_of_mem_items hmem with hmem | heof
  · exact h a hmem
  · constructor <;>
    · intro hkind
      rw [heof] at hkind
      cases hkind

end Ifj24.Grammar
