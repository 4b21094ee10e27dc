import Ifj24.Proofs.ControlFlow
import Ifj24.Proofs.Translation

/-!
What the code of a function does with the data stack, read off the instructions. Straight code
takes some values and leaves others, as many as its instructions say: that of a value takes none
and leaves one. The code of statements is put together from straight code, returns, branches and
loops, so what all these keep to is kept to by every statement.
-/

namespace Ifj24

open FuncDef

namespace Tree

mutual

def Stmt.returns : Stmt → Bool
  | .return .. => true
  | .ifElse _ _ yes no =>
    stmtsReturn yes.stmts &&
      match no with
      | none => false
      | some e => stmtsReturn e.body.stmts
  | .declare .. | .assign .. | .call _ | .while .. | .elseStart _ | .blockEnd _ => false
termination_by structural s => s

def stmtsReturn : List Stmt → Bool
  | [] => false
  | s :: rest => s.returns || stmtsReturn rest
termination_by structural ss => ss

end

end Tree

namespace Code

/-- If nothing fails on the way, the code is as `Q` says. -/
def Emits (m : Lower (List Instr)) (Q : List Instr → Prop) : Prop :=
  ∀ σ, (m σ).2.failure = none → σ.failure = none ∧ Q (m σ).1

namespace Emits

variable {m : Lower (List Instr)} {f : List Instr → Lower (List Instr)} {Q R : List Instr → Prop}

theorem pure {code : List Instr} (h : Q code) : Emits (Pure.pure code) Q := fun _ hσ => ⟨hσ, h⟩

theorem fail (d : Diagnostic) : Emits (Lower.fail d) Q := by
  intro σ hσ
  have hsome : σ.failure.or (some d) = none := hσ
  rw [Option.or_eq_none_iff] at hsome
  cases hsome.2

theorem bind (hm : Emits m Q) (hf : ∀ code, Emits (f code) fun code' => Q code → R code') :
    Emits (m >>= f) R := by
  intro σ hσ
  obtain ⟨hfirst, hR⟩ := hf (m σ).1 (m σ).2 hσ
  obtain ⟨hbef, hQ⟩ := hm σ hfirst
  exact ⟨hbef, hR hQ⟩

theorem mono (hm : Emits m Q) (h : ∀ code, Q code → R code) : Emits m R :=
  fun σ hσ => ⟨(hm σ hσ).1, h _ (hm σ hσ).2⟩

end Emits

end Code

/-- How many values an instruction in straight code takes from the data stack, and how many it
leaves there. A call takes the arguments and leaves the result, if the function has one. -/
def Code.Instr.turn? (t : Table) : Code.Instr → Option (Nat × Nat)
  | .push _ => some (0, 1)
  | .pop _ => some (1, 0)
  | .stack op => (Machine.operands? op).map (·, 1)
  | .call (.builtin b) => some (b.params, b.hasResult.toNat)
  | .call (.function name) =>
    (t.lookupFunction? name).map fun f => (f.params.length, f.hasResult.toNat)
  | .defVar _ | .move _ _ => some (0, 0)
  | _ => none

namespace Machine

open Ifj24.Tree Code Meaning Typing

inductive Straight (t : Table) : List Instr → Nat → Nat → Prop
  | nil (m : Nat) : Straight t [] m m
  | cons {i : Instr} {k : List Instr} {taken left m j : Nat} (hi : i.turn? t = some (taken, left))
      (hk : Straight t k (left + m) j) : Straight t (i :: k) (taken + m) j

namespace Straight

variable {t : Table} {code : List Instr} {m j : Nat}

theorem one (hi : i.turn? t = some (l, m)) : Straight t [i] l m :=
  .cons (m := 0) hi (.nil m)

theorem append (h : Straight t code l m) (h' : Straight t code' m j) :
    Straight t (code ++ code') l j := by
  induction h with
  | nil m => exact h'
  | cons hi _ ih => exact .cons hi (ih h')

theorem above (h : Straight t code l m) (j : Nat) : Straight t code (l + j) (m + j) := by
  induction h with
  | nil m => exact .nil _
  | cons hi _ ih =>
    rw [Nat.add_assoc] at ih ⊢
    exact .cons hi ih

theorem onTop (h : Straight t code 0 l) (h' : Straight t code' 0 m) :
    Straight t (code ++ code') 0 (m + l) := by
  have habove := h'.above l
  rw [Nat.zero_add] at habove
  exact h.append habove

theorem pushed (t : Table) (a : Source) : Straight t [.push a] 0 1 := one rfl

theorem popped (t : Table) (p : Place) : Straight t [.pop p] 1 0 := one rfl

theorem computed (h : operands? op = some m) : Straight t [.stack op] m 1 :=
  one (by rw [Instr.turn?, h]; rfl)

end Straight

section

variable {f : FuncDef} {u : OperandUse}

variable {t : Table}

theorem emits_push (t : Table) (x : Expr) : Emits (push t x) fun code => Straight t code 0 1 := by
  cases x with
  | value v =>
    cases hc : constant v with
    | ok c =>
      rw [push_literal hc]
      exact .pure (.pushed t _)
    | error d =>
      have hpush : push t (.value v) = Lower.fail d := by simp only [push, hc]
      rw [hpush]
      exact .fail d
  | «variable» v => exact .pure (.pushed t _)
  | operand o => exact .fail _
  | expression e => exact .fail _
  | truth c => exact .fail _
  | call c => exact .fail _

theorem emits_pushAll (t : Table) (xs : List Expr) :
    Emits (pushAll t xs) fun code => Straight t code 0 xs.length := by
  induction xs with
  | nil => exact .pure (.nil 0)
  | cons x rest ih =>
    refine (emits_push t x).bind fun code => ih.bind fun code' => .pure ?_
    exact fun hrest hx => hx.onTop hrest

/-- A sequence in postfix order leaves one value, whatever stands behind it. -/
theorem emits_items {Q : List Instr → Prop}
    (h : SequenceHas t xs u) (hmore : Emits (lowerItems t more) Q) :
    Emits (lowerItems t (xs ++ more)) fun code =>
      ∃ front back, code = front ++ back ∧ Straight t front 0 1 ∧ Q back := by
  induction h generalizing more Q with
  | @leaf x u hx =>
    have hitems : lowerItems t (x :: more) =
        (push t x >>= fun code => lowerItems t more >>= fun code' => pure (code ++ code')) := by
      cases hx <;> rfl
    rw [List.singleton_append, hitems]
    refine (emits_push t x).bind fun code => hmore.bind fun code' => .pure ?_
    exact fun hmore hx => ⟨code, code', rfl, hx, hmore⟩
  | @operator o ls rs l r htype _ _ _ _ ihl ihr =>
    have hop : Emits (lowerItems t (.operand o :: more)) fun code =>
        ∃ op back, code = .stack op :: back ∧ operands? op = some 2 ∧ Q back := by
      unfold lowerItems
      cases hop : arithmetic o with
      | error d => exact .fail d
      | ok op =>
        refine hmore.bind fun code => .pure fun hcode => ⟨op, code, rfl, ?_, hcode⟩
        unfold arithmetic at hop
        split at hop <;> cases hop
        · rfl
        · rfl
        · rfl
        · split <;> rfl
    rw [List.append_assoc, List.append_assoc]
    refine (ihl (ihr hop)).mono ?_
    rintro _ ⟨left, _, rfl, hleft, right, _, rfl, hright, op, back, rfl, hop, hback⟩
    refine ⟨left ++ right ++ [.stack op], back, by simp, ?_, hback⟩
    exact (hleft.onTop hright).append (.computed hop)

theorem emits_sequence (h : SequenceHas t xs u) :
    Emits (lowerItems t xs) fun code => Straight t code 0 1 := by
  have hnil : Emits (lowerItems t []) fun code => code = [] := .pure rfl
  have hitems := emits_items h hnil
  rw [List.append_nil] at hitems
  refine hitems.mono ?_
  rintro _ ⟨front, _, rfl, hfront, rfl⟩
  rwa [List.append_nil]

theorem exists_builtin (hf : f ∈ builtins) :
    ∃ b, Builtin.ofName? f.name = some b ∧ f.params.length = b.params ∧
      f.hasResult = b.hasResult := by
  have hall : ∀ f ∈ builtins, ∃ b ∈ Builtin.all, Builtin.ofName? f.name = some b ∧
      f.params.length = b.params ∧ f.hasResult = b.hasResult := by
    decide
  obtain ⟨b, -, hb⟩ := hall f hf
  exact ⟨b, hb⟩

/-- Functions are known by their names, and the built-in ones are those of the catalog. -/
def Known (t : Table) : Prop :=
  ∀ name f, t.lookupFunction? name = some f →
    f.name = name ∧ (f.builtin = true → f ∈ builtins)

theorem emits_call (ht : Known t) (h : CallHas t c f) :
    Emits (lowerCall t c) fun code => Straight t code 0 f.hasResult.toNat := by
  obtain ⟨hname, hcatalog⟩ := ht c.name f h.known
  unfold lowerCall
  rw [h.target]
  refine (emits_pushAll t c.args).bind fun args => ?_
  cases hblt : f.builtin with
  | true =>
    obtain ⟨b, hb, hparams, hres⟩ := exists_builtin (hcatalog hblt)
    rw [hname] at hb
    simp only [if_true, hb]
    refine .pure fun hargs => hargs.append ?_
    rw [h.arity, hparams, hres]
    exact .one rfl
  | false =>
    refine .pure fun hargs => hargs.append (.one ?_)
    rw [h.arity, Instr.turn?, h.known]
    rfl

theorem emits_value (ht : Known t)
    (h : ValueHas t x u) : Emits (lowerValue t x) fun code => Straight t code 0 1 := by
  cases h with
  | leaf h =>
    cases h with
    | null => exact emits_push t _
    | literal => exact emits_push t _
    | var => exact emits_push t _
  | expression h => exact emits_sequence h.items
  | @call c f h hres =>
    have hone : f.hasResult.toNat = 1 := by
      simp [hasResult, hres]
    rw [← hone]
    exact emits_call ht h

theorem straight_comparison (h : comparison? op = some ops) : Straight t (ops.map .stack) 2 1 := by
  have one {o : StackOp} (ho : operands? o = some 2) : Straight t ([o].map .stack) 2 1 :=
    .computed ho
  have negated {o : StackOp} (ho : operands? o = some 2) :
      Straight t ([o, .not].map .stack) 2 1 :=
    (one ho).append (.computed rfl)
  unfold comparison? at h
  split at h <;> cases h
  · exact one rfl
  · exact negated rfl
  · exact one rfl
  · exact one rfl
  · exact negated rfl
  · exact negated rfl

/-- Code with two ways behind it: two values are compared, and none is left on either way. -/
def Forks (t : Table) (target : Label) (code : List Instr) : Prop :=
  ∃ front back, code = front ++ .jumpIfEqs target :: back ∧ Straight t front 0 2 ∧
    Straight t back 0 0

theorem emits_guard (target : Label) (h : GuardHas t g) :
    Emits (lowerGuard t target g) (Forks t target) := by
  cases g with
  | unwrap subject binding =>
    exact .pure ⟨[_, _], [_], rfl, (Straight.pushed t _).onTop (.pushed t _), .one rfl⟩
  | compare c =>
    obtain ⟨l, r, htruth⟩ := h
    refine (emits_sequence htruth.left.items).bind fun left =>
      (emits_sequence htruth.right.items).bind fun right => ?_
    cases hops : comparison? c.op.negate with
    | none =>
      have hfail : Emits (.fail ⟨c.pos, .comparisonOperator c.op⟩) fun _ => False := .fail _
      exact hfail.bind fun code => .pure fun hcode => hcode.elim
    | some ops =>
      refine .pure fun hright hleft => ?_
      have hvalues := ((hleft.onTop hright).append (straight_comparison hops)).onTop
        (.pushed t (.constant (.bool true)))
      exact ⟨_, [], by simp, hvalues, .nil 0⟩

end

section

variable {t : Table} {f : FuncDef} {owner : Bytes}

theorem emits_return (ht : Known t) (pos : Pos) (hx : StmtHas t f (.return pos x)) :
    Emits (lowerStmt t owner (.return pos x)) fun code => x.isSome = f.hasResult ∧
      ∃ value, Straight t value 0 f.hasResult.toNat ∧ code = value ++ [.popFrame, .return] := by
  intro σ hσ
  cases x with
  | none =>
    have hnone : f.hasResult = false := by
      have hvoid : f.result = .void := hx
      simp [hasResult, hvoid]
    rw [hnone]
    exact ⟨hσ, rfl, [], .nil 0, rfl⟩
  | some x =>
    obtain ⟨hres, u, hx, -⟩ := hx
    have hone : f.hasResult = true := by
      simp [hasResult, hres]
    obtain ⟨hbef, hcode⟩ := emits_value ht hx σ hσ
    rw [hone]
    exact ⟨hbef, rfl, _, hcode, rfl⟩

/-- A declaration and an assignment differ in nothing but what they may name. -/
inductive Storing (r : VarRef) (x : Expr) : Stmt → Prop
  | declare (pos : Pos) : Storing r x (.declare pos r x)
  | assign (pos : Pos) : Storing r x (.assign pos r x)

theorem Storing.lowerStmt_eq (h : Storing r x s) (σ : LowerState) :
    lowerStmt t owner s σ = ((lowerValue t x σ).1 ++ [.pop (place t r)], (lowerValue t x σ).2) := by
  cases h with
  | declare => exact lowerStmt_declare ..
  | assign => exact lowerStmt_assign ..

/-- Predicates on statements and the states that their code is generated in. They hold of all
well-typed statements of a function whose code is generated without a failure if they hold of
compound statements whenever they hold of the parts. -/
structure Composes (t : Table) (f : FuncDef) (owner : Bytes) (D : Stmt → LowerState → Prop)
    (C : List Stmt → LowerState → Prop) : Prop where
  nil : ∀ σ, C [] σ
  cons : ∀ {s rest σ}, D s σ → C rest (lowerStmt t owner s σ).2 → C (s :: rest) σ
  blockEnd : ∀ e σ, D (.blockEnd e) σ
  store : ∀ {s r x u σ}, Storing r x s → ValueHas t x u →
    (lowerValue t x σ).2.failure = none → D s σ
  call : ∀ {c g σ}, CallHas t c g → g.result = .void → (lowerCall t c σ).2.failure = none →
    D (.call c) σ
  returned : ∀ {pos x σ}, StmtHas t f (.return pos x) →
    (lowerStmt t owner (.return pos x) σ).2.failure = none → D (.return pos x) σ
  branch : ∀ {pos g yes σ}, let jump := lowerGuard t (.flow owner .otherwise σ.labels) g σ.next
    GuardHas t g → jump.2.failure = none → C yes.stmts jump.2 → D (.ifElse pos g yes none) σ
  branchElse : ∀ {pos g yes e σ},
    let jump := lowerGuard t (.flow owner .otherwise σ.labels) g σ.next
    GuardHas t g → jump.2.failure = none → C yes.stmts jump.2 →
      C e.body.stmts (lowerStmts t owner yes.stmts jump.2).2 → D (.ifElse pos g yes (some e)) σ
  loop : ∀ {pos g body σ}, let jump := lowerGuard t (.flow owner .endLoop σ.labels) g σ.next
    GuardHas t g → jump.2.failure = none → C body.stmts jump.2 → D (.while pos g body) σ

variable {D : Stmt → LowerState → Prop} {C : List Stmt → LowerState → Prop}

mutual

theorem composed_stmt (ht : Known t) (hC : Composes t f owner D C) (s : Stmt)
    (hs : StmtHas t f s) (σ : LowerState) (hσ : (lowerStmt t owner s σ).2.failure = none) :
    σ.failure = none ∧ D s σ := by
  cases s with
  | declare pos r x =>
    obtain ⟨u, hx, -⟩ := hs
    exact ⟨(emits_value ht hx σ hσ).1, hC.store (.declare pos) hx hσ⟩
  | assign pos r x =>
    obtain ⟨-, u, hx, -⟩ := hs
    exact ⟨(emits_value ht hx σ hσ).1, hC.store (.assign pos) hx hσ⟩
  | call c =>
    obtain ⟨g, hc, hvoid⟩ := hs
    exact ⟨(emits_call ht hc σ hσ).1, hC.call hc hvoid hσ⟩
  | ifElse pos g yes no =>
    unfold StmtHas at hs
    obtain ⟨hg, hyes, hno⟩ := hs
    cases no with
    | none =>
      obtain ⟨hmid, hyes⟩ := composed_stmts ht hC yes.stmts hyes _ hσ
      exact ⟨(emits_guard _ hg _ hmid).1, hC.branch hg hmid hyes⟩
    | some e =>
      obtain ⟨hmid', hno⟩ := composed_stmts ht hC e.body.stmts hno _ hσ
      obtain ⟨hmid, hyes⟩ := composed_stmts ht hC yes.stmts hyes _ hmid'
      exact ⟨(emits_guard _ hg _ hmid).1, hC.branchElse hg hmid hyes hno⟩
  | «while» pos g body =>
    obtain ⟨hg, hbody⟩ := hs
    obtain ⟨hmid, hbody⟩ := composed_stmts ht hC body.stmts hbody _ hσ
    exact ⟨(emits_guard _ hg _ hmid).1, hC.loop hg hmid hbody⟩
  | «return» pos x => exact ⟨(emits_return ht pos hs σ hσ).1, hC.returned hs hσ⟩
  | elseStart e =>
    have hfail := @Emits.fail (fun _ => False) _ σ hσ
    exact hfail.2.elim
  | blockEnd e =>
    exact ⟨hσ, hC.blockEnd e σ⟩
termination_by structural s

theorem composed_stmts (ht : Known t) (hC : Composes t f owner D C)
    (ss : List Stmt) (hss : StmtsHave t f ss) (σ : LowerState)
    (hσ : (lowerStmts t owner ss σ).2.failure = none) : σ.failure = none ∧ C ss σ := by
  cases ss with
  | nil =>
    exact ⟨hσ, hC.nil σ⟩
  | cons s rest =>
    obtain ⟨hs, hrest⟩ := hss
    obtain ⟨hmid, hrest⟩ := composed_stmts ht hC rest hrest _ hσ
    obtain ⟨hbef, hs⟩ := composed_stmt ht hC s hs _ hmid
    exact ⟨hbef, hC.cons hs hrest⟩
termination_by structural ss

end

theorem straight_entry (t : Table) (rs params : List VarRef) :
    Straight t (rs.map (fun r => .defVar (place t r)) ++ params.map fun r => .pop (place t r))
      params.length 0 := by
  induction rs with
  | nil =>
    induction params with
    | nil => exact .nil 0
    | cons r params ih =>
      have hpop := (Straight.popped t (place t r)).above params.length
      rw [Nat.zero_add, Nat.add_comm] at hpop
      exact hpop.append ih
  | cons r rs ih =>
    have hdefine : Straight t [.defVar (place t r)] 0 0 := .one rfl
    have habove := hdefine.above params.length
    rw [Nat.zero_add] at habove
    exact habove.append ih

end

end Machine

end Ifj24
