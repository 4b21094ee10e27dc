import Ifj24.Code.Generate
import Ifj24.Proofs.Machine
import Ifj24.Proofs.Uses

/-!
How the code of a program is laid out. The code of a value pushes constants and the
variables that the value uses, and calls at most at its end. Every construct that jumps takes
a number of its own for its labels, and functions have different names, so that a label stands
in one place only and a jump to it is a jump to that place. Every jump goes to a label of the
function it stands in.
-/

open List

namespace Ifj24.Code

open Ifj24.Tree Machine Builtin

section

variable {α β : Type}

variable (t : Table) (owner : Bytes) (σ : LowerState)

theorem lower_bind (m : Lower α) (k : α → Lower β) :
    (m >>= k) σ = k (m σ).1 (m σ).2 := rfl

theorem lower_pure (a : α) : (pure a : Lower α) σ = (a, σ) := rfl

def LowerState.next (σ : LowerState) : LowerState := { σ with labels := σ.labels + 1 }

theorem lowerStmt_declare (pos : Pos) (r : VarRef) (x : Expr) :
    lowerStmt t owner (.declare pos r x) σ =
      ((lowerValue t x σ).1 ++ [.pop (place t r)], (lowerValue t x σ).2) := by
  rw [lowerStmt]
  rfl

theorem lowerStmt_assign (pos : Pos) (r : VarRef) (x : Expr) :
    lowerStmt t owner (.assign pos r x) σ =
      ((lowerValue t x σ).1 ++ [.pop (place t r)], (lowerValue t x σ).2) := by
  rw [lowerStmt]
  rfl

theorem lowerStmt_returnNone (pos : Pos) :
    lowerStmt t owner (.return pos none) σ = ([.popFrame, .return], σ) := by
  rw [lowerStmt]
  rfl

theorem lowerStmt_returnSome (pos : Pos) (x : Expr) :
    lowerStmt t owner (.return pos (some x)) σ =
      ((lowerValue t x σ).1 ++ [.popFrame, .return], (lowerValue t x σ).2) := by
  rw [lowerStmt]
  rfl

def branchCode (owner : Bytes) (number : Nat) (jump yes : List Instr) :
    Option (List Instr) → List Instr
  | none => jump ++ yes ++ [.label (.flow owner .otherwise number)]
  | some no =>
    jump ++ yes ++ [.jump (.flow owner .endIf number), .label (.flow owner .otherwise number)] ++
      no ++ [.label (.flow owner .endIf number)]

def loopCode (owner : Bytes) (number : Nat) (jump body : List Instr) : List Instr :=
  [.label (.flow owner .loop number)] ++ jump ++ body ++
    [.jump (.flow owner .loop number), .label (.flow owner .endLoop number)]

section

variable (number : Nat) (jump yes no body k : List Instr)

theorem branchCode_none :
    branchCode owner number jump yes none ++ k =
      jump ++ (yes ++ .label (.flow owner .otherwise number) :: k) := by
  simp [branchCode]

theorem branchCode_some :
    branchCode owner number jump yes (some no) ++ k =
      jump ++ (yes ++ .jump (.flow owner .endIf number) ::
        .label (.flow owner .otherwise number) :: (no ++ .label (.flow owner .endIf number) :: k)) := by
  simp [branchCode]

theorem loopCode_append :
    loopCode owner number jump body ++ k =
      .label (.flow owner .loop number) :: (jump ++ (body ++
        .jump (.flow owner .loop number) :: .label (.flow owner .endLoop number) :: k)) := by
  simp [loopCode]

end

theorem lowerStmt_if (pos : Pos) (g : Guard) (yes : Block) :
    let jump := lowerGuard t (.flow owner .otherwise σ.labels) g σ.next
    let yesCode := lowerStmts t owner yes.stmts jump.2
    lowerStmt t owner (.ifElse pos g yes none) σ =
      (branchCode owner σ.labels jump.1 yesCode.1 none, yesCode.2) := by
  rw [lowerStmt]
  rfl

theorem lowerStmt_ifElse (pos : Pos) (g : Guard) (yes : Block) (e : Else) :
    let jump := lowerGuard t (.flow owner .otherwise σ.labels) g σ.next
    let yesCode := lowerStmts t owner yes.stmts jump.2
    let noCode := lowerStmts t owner e.body.stmts yesCode.2
    lowerStmt t owner (.ifElse pos g yes (some e)) σ =
      (branchCode owner σ.labels jump.1 yesCode.1 (some noCode.1), noCode.2) := by
  rw [lowerStmt]
  rfl

theorem lowerStmt_while (pos : Pos) (g : Guard) (body : Block) :
    let jump := lowerGuard t (.flow owner .endLoop σ.labels) g σ.next
    let bodyCode := lowerStmts t owner body.stmts jump.2
    lowerStmt t owner (.while pos g body) σ =
      (loopCode owner σ.labels jump.1 bodyCode.1, bodyCode.2) := by
  rw [lowerStmt]
  rfl

theorem lowerStmts_cons (s : Stmt) (rest : List Stmt) :
    let first := lowerStmt t owner s σ
    let others := lowerStmts t owner rest first.2
    lowerStmts t owner (s :: rest) σ = (first.1 ++ others.1, others.2) := by
  rw [lowerStmts]
  rfl

end

namespace Instr

def jump? : Instr → Option Label
  | .jump l | .jumpIfEq l _ _ | .jumpIfNeq l _ _ | .jumpIfEqs l => some l
  | _ => none

def call? : Instr → Option Label
  | .call l => some l
  | _ => none

end Instr

/-- The code is as `Q` says, whatever fails on the way, and no number is taken for labels. -/
def Gives (m : Lower (List Instr)) (Q : List Instr → Prop) : Prop :=
  ∀ σ, Q (m σ).1 ∧ (m σ).2.labels = σ.labels

namespace Gives

variable {m : Lower (List Instr)} {f : List Instr → Lower (List Instr)} {Q R : List Instr → Prop}

theorem pure {code : List Instr} (h : Q code) : Gives (Pure.pure code) Q := fun _ => ⟨h, rfl⟩

theorem fail {d : Diagnostic} (h : Q []) : Gives (Lower.fail d) Q := fun _ => ⟨h, rfl⟩

theorem bind (hm : Gives m Q) (hf : ∀ code, Q code → Gives (f code) R) : Gives (m >>= f) R := by
  intro σ
  obtain ⟨hQ, hlabels⟩ := hm σ
  obtain ⟨hR, hlabels'⟩ := hf (m σ).1 hQ (m σ).2
  exact ⟨hR, hlabels'.trans hlabels⟩

theorem mono (hm : Gives m Q) (h : ∀ code, Q code → R code) : Gives m R :=
  fun σ => ⟨h _ (hm σ).1, (hm σ).2⟩

end Gives

section

variable {t : Table}

inductive Simple (t : Table) (uses : List Variable) : Instr → Prop
  | constant (c : Constant) : Simple t uses (.push (.constant c))
  | place {v : Variable} (h : v ∈ uses) : Simple t uses (.push (.place (place t v.var)))
  | stack (op : StackOp) : Simple t uses (.stack op)

def AllSimple (t : Table) (uses : List Variable) (code : List Instr) : Prop :=
  ∀ i ∈ code, Simple t uses i

namespace AllSimple

variable {uses : List Variable} {code : List Instr}

theorem nil : AllSimple t uses [] := fun _ hi => nomatch hi

theorem one (h : Simple t uses i) : AllSimple t uses [i] :=
  forall_mem_singleton.mpr h

theorem mono (h : AllSimple t uses code) (hmore : ∀ v ∈ uses, v ∈ uses') :
    AllSimple t uses' code := by
  intro i hi
  cases h i hi with
  | constant c => exact .constant c
  | place hv => exact .place (hmore _ hv)
  | stack op => exact .stack op

theorem append (h : AllSimple t uses code) (h' : AllSimple t uses' code') :
    AllSimple t (uses ++ uses') (code ++ code') :=
  forall_mem_append.mpr ⟨h.mono fun _ => mem_append_left _,
    h'.mono fun _ => mem_append_right _⟩

end AllSimple

theorem push_literal (h : constant v = .ok c) :
    push t (.value v) = Pure.pure [.push (.constant c)] := by
  simp only [push, h]

theorem simple_push (x : Expr) : Gives (push t x) (AllSimple t x.leafUses) := by
  cases x with
  | value v =>
    cases hc : constant v with
    | ok c =>
      rw [push_literal hc]
      exact .pure (.one (.constant c))
    | error d =>
      have hpush : push t (.value v) = Lower.fail d := by simp only [push, hc]
      rw [hpush]
      exact .fail .nil
  | «variable» v => exact .pure (.one (.place mem_cons_self))
  | operand o => exact .fail .nil
  | expression e => exact .fail .nil
  | truth c => exact .fail .nil
  | call c => exact .fail .nil

theorem simple_pushAll (xs : List Expr) : Gives (pushAll t xs) (AllSimple t (usesIn xs)) := by
  induction xs with
  | nil => exact .pure .nil
  | cons x rest ih =>
    refine (simple_push x).bind fun code hcode => ih.bind fun code' hcode' => .pure ?_
    exact hcode.append hcode'

theorem simple_lowerItems (xs : List Expr) : Gives (lowerItems t xs) (AllSimple t (usesIn xs)) := by
  induction xs with
  | nil => exact .pure .nil
  | cons x rest ih =>
    have hpush (x : Expr) : Gives (do return (← push t x) ++ (← lowerItems t rest))
        (AllSimple t (usesIn (x :: rest))) :=
      (simple_push x).bind fun code hcode => ih.bind fun code' hcode' =>
        .pure (hcode.append hcode')
    cases x with
    | operand o =>
      unfold lowerItems
      cases arithmetic o with
      | ok op =>
        have hop : AllSimple t [] [.stack op] := .one (.stack op)
        exact ih.bind fun code hcode => .pure (hop.append hcode)
      | error d => exact .fail .nil
    | value v => exact hpush (.value v)
    | «variable» v => exact hpush (.variable v)
    | expression e => exact hpush (.expression e)
    | truth c => exact hpush (.truth c)
    | call c => exact hpush (.call c)

def Evaluating (t : Table) (uses : List Variable) (code : List Instr) : Prop :=
  ∃ front, AllSimple t uses front ∧ (code = front ∨ ∃ l, code = front ++ [.call l])

theorem evaluating_lowerCall (c : Call) :
    Gives (lowerCall t c) (Evaluating t (usesIn c.args)) := by
  unfold lowerCall
  cases c.target with
  | none => exact .fail ⟨[], .nil, .inl rfl⟩
  | some f =>
    refine (simple_pushAll c.args).bind fun args hargs => ?_
    cases f.builtin with
    | true =>
      rw [if_pos rfl]
      cases ofName? c.name with
      | some b => exact .pure ⟨args, hargs, .inr ⟨_, rfl⟩⟩
      | none =>
        refine .bind (Q := fun code => code = []) (.fail rfl) fun code hcode => .pure ?_
        rw [hcode, append_nil]
        exact ⟨args, hargs, .inl rfl⟩
    | false => exact .pure ⟨args, hargs, .inr ⟨_, rfl⟩⟩

theorem evaluating_lowerValue (x : Expr) : Gives (lowerValue t x) (Evaluating t x.uses) := by
  have hsimple {m : Lower (List Instr)} {uses : List Variable} (h : Gives m (AllSimple t uses)) :
      Gives m (Evaluating t uses) :=
    h.mono fun code hcode => ⟨code, hcode, .inl rfl⟩
  cases x with
  | value v => exact hsimple (simple_push (.value v))
  | «variable» v => exact hsimple (simple_push (.variable v))
  | operand o => exact hsimple (.fail .nil)
  | expression e => exact hsimple (simple_lowerItems e.items)
  | truth c => exact hsimple (.fail .nil)
  | call c => exact evaluating_lowerCall c

def Guard.entry (t : Table) : Guard → List Instr
  | .compare _ => []
  | .unwrap subject binding => [.move (place t binding) (.place (place t subject.var))]

/-- Code that evaluates, then jumps or gets on to the body. A comparison that fails to be lowered
has no jump. -/
def Guarding (t : Table) (g : Guard) (target : Label) (code : List Instr) : Prop :=
  ∃ front, AllSimple t g.uses front ∧
    (code = front ∧ Guard.entry t g = [] ∨ code = front ++ .jumpIfEqs target :: Guard.entry t g)

theorem guarding_lowerGuard (target : Label) (g : Guard) :
    Gives (lowerGuard t target g) (Guarding t g target) := by
  cases g with
  | unwrap subject binding =>
    have hvalues : AllSimple t [subject]
        [.push (.place (place t subject.var)), .push (.constant .nil)] :=
      forall_mem_cons.mpr ⟨.place mem_cons_self, AllSimple.one (.constant .nil)⟩
    exact .pure ⟨_, hvalues, .inr rfl⟩
  | compare c =>
    refine (simple_lowerItems c.left.items).bind fun left hleft =>
      (simple_lowerItems c.right.items).bind fun right hright => ?_
    have hitems := hleft.append hright
    cases comparison? c.op.negate with
    | none =>
      refine .bind (Q := fun code => code = []) (.fail rfl) fun code hcode => .pure ?_
      rw [hcode, append_nil]
      exact ⟨_, hitems, .inl ⟨rfl, rfl⟩⟩
    | some ops =>
      have hops : AllSimple t [] (ops.map .stack ++ [.push (.constant (.bool true))]) := by
        refine forall_mem_append.mpr ⟨fun i hi => ?_, AllSimple.one (.constant _)⟩
        obtain ⟨op, -, rfl⟩ := mem_map.mp hi
        exact .stack op
      have hall := hitems.append hops
      rw [append_nil] at hall
      refine .pure ⟨_, hall, .inr ?_⟩
      simp only [Guard.entry, append_assoc, cons_append, nil_append]

end

section

variable {code : List Instr} {uses : List Variable}

variable {t : Table} {owner : Bytes}

/-- The labels belong to one function and carry different numbers of a range, apart from
the labels of one construct. -/
structure Numbered (owner : Bytes) (low high : Nat) (ls : List Label) : Prop where
  le : low ≤ high
  nodup : ls.Nodup
  range : ∀ l ∈ ls, ∃ tag n, l = .flow owner tag n ∧ low ≤ n ∧ n < high

namespace Numbered

variable {low mid high n : Nat} {ls : List Label}

theorem nil (h : low ≤ high) : Numbered owner low high [] :=
  ⟨h, nodup_nil, fun _ hl => nomatch hl⟩

theorem append (h : Numbered owner low mid ls) (h' : Numbered owner mid high ls') :
    Numbered owner low high (ls ++ ls') where
  le := Nat.le_trans h.le h'.le
  nodup := by
    refine nodup_append.mpr ⟨h.nodup, h'.nodup, fun l hl l' hl' => ?_⟩
    rintro rfl
    obtain ⟨tag, n, rfl, -, hn⟩ := h.range l hl
    obtain ⟨tag', n', heq, hn', -⟩ := h'.range _ hl'
    injection heq with _ _ heq
    omega
  range l hl := by
    rcases mem_append.mp hl with hl | hl
    · obtain ⟨tag, n, rfl, hlow, hhigh⟩ := h.range l hl
      have hle := h'.le
      exact ⟨tag, n, rfl, hlow, by omega⟩
    · obtain ⟨tag, n, rfl, hlow, hhigh⟩ := h'.range l hl
      have hle := h.le
      exact ⟨tag, n, rfl, by omega, hhigh⟩

theorem cons (tag : FlowTag) (h : Numbered owner (n + 1) high ls) :
    Numbered owner n high (.flow owner tag n :: ls) where
  le := Nat.le_of_succ_le h.le
  nodup := by
    refine nodup_cons.mpr ⟨fun hmem => ?_, h.nodup⟩
    obtain ⟨tag', n', heq, hn, -⟩ := h.range _ hmem
    injection heq with _ _ heq
    omega
  range l hl := by
    have hle := h.le
    rcases mem_cons.mp hl with rfl | hl
    · exact ⟨tag, n, rfl, Nat.le_refl n, by omega⟩
    · obtain ⟨tag', n', rfl, hlow, hhigh⟩ := h.range l hl
      exact ⟨tag', n', rfl, by omega, hhigh⟩

theorem perm (h : Numbered owner low high ls) (hp : ls.Perm ls') :
    Numbered owner low high ls' :=
  ⟨h.le, hp.nodup_iff.mp h.nodup, fun l hl => h.range l (hp.mem_iff.mpr hl)⟩

end Numbered

theorem perm_pair {α : Type} (a b : α) (xs ys : List α) :
    (a :: b :: (xs ++ ys)).Perm (xs ++ [a] ++ ys ++ [b]) := by
  have hlast : (xs ++ (ys ++ [b])).Perm (b :: (xs ++ ys)) := by
    rw [← append_assoc]
    exact perm_append_singleton b (xs ++ ys)
  have hmiddle : (xs ++ a :: (ys ++ [b])).Perm (a :: (xs ++ (ys ++ [b]))) := perm_middle
  rw [append_assoc, append_assoc, singleton_append]
  exact (hmiddle.trans (hlast.cons a)).symm

theorem Numbered.pair {n high : Nat} {ls : List Label} (tag tag' : FlowTag) (htag : tag ≠ tag')
    (h : Numbered owner (n + 1) high ls) :
    Numbered owner n high (.flow owner tag n :: .flow owner tag' n :: ls) where
  le := Nat.le_of_succ_le h.le
  nodup := by
    refine nodup_cons.mpr ⟨fun hmem => ?_, (h.cons tag').nodup⟩
    rcases mem_cons.mp hmem with heq | hmem
    · injection heq with _ heq
      exact htag heq
    · exact (nodup_cons.mp (h.cons tag).nodup).1 hmem
  range l hl := by
    rcases mem_cons.mp hl with rfl | hl
    · exact ⟨tag, n, rfl, Nat.le_refl n, h.le⟩
    · exact (h.cons tag').range l hl

inductive Lowered (t : Table) (owner : Bytes) : Instr → Prop
  | constant (c : Constant) : Lowered t owner (.push (.constant c))
  | load (r : VarRef) : Lowered t owner (.push (.place (place t r)))
  | store (r : VarRef) : Lowered t owner (.pop (place t r))
  | move (r q : VarRef) : Lowered t owner (.move (place t r) (.place (place t q)))
  | stack (op : StackOp) : Lowered t owner (.stack op)
  | call (l : Label) : Lowered t owner (.call l)
  | label (tag : FlowTag) (n : Nat) : Lowered t owner (.label (.flow owner tag n))
  | jump (tag : FlowTag) (n : Nat) : Lowered t owner (.jump (.flow owner tag n))
  | fork (tag : FlowTag) (n : Nat) : Lowered t owner (.jumpIfEqs (.flow owner tag n))
  | popFrame : Lowered t owner .popFrame
  | return : Lowered t owner .return

/-- Code of statements, with jumps to labels of the code or to some outside. -/
structure Wired (t : Table) (owner : Bytes) (outside : List Label) (code : List Instr) : Prop where
  lowered : ∀ i ∈ code, Lowered t owner i
  jumps : ∀ i ∈ code, ∀ l, i.jump? = some l → l ∈ outside ∨ l ∈ labels code

namespace Wired

variable {tag : FlowTag} {uses : List Variable} {n : Nat}

variable {outside : List Label} {code : List Instr}

theorem nil : Wired t owner outside [] where
  lowered _ hi := nomatch hi
  jumps _ hi := nomatch hi

theorem mono (h : Wired t owner outside code)
    (hmore : ∀ l ∈ outside, l ∈ more) : Wired t owner more code :=
  ⟨h.lowered, fun i hi l hl => (h.jumps i hi l hl).imp_left (hmore l)⟩

theorem append (h : Wired t owner outside code) (h' : Wired t owner outside code') :
    Wired t owner outside (code ++ code') where
  lowered := forall_mem_append.mpr ⟨h.lowered, h'.lowered⟩
  jumps := by
    rw [labels_append]
    refine forall_mem_append.mpr ⟨fun i hi l hl => ?_, fun i hi l hl => ?_⟩
    · exact (h.jumps i hi l hl).imp_right (mem_append_left _)
    · exact (h'.jumps i hi l hl).imp_right (mem_append_right _)

theorem one (hi : Lowered t owner i) (hjump : ∀ l, i.jump? = some l → l ∈ outside) :
    Wired t owner outside [i] where
  lowered := forall_mem_singleton.mpr hi
  jumps := forall_mem_singleton.mpr fun l hl => .inl (hjump l hl)

theorem label (tag : FlowTag) (n : Nat) : Wired t owner outside [.label (.flow owner tag n)] :=
  one (.label tag n) nofun

theorem jump (h : .flow owner tag n ∈ outside) :
    Wired t owner outside [.jump (.flow owner tag n)] :=
  one (.jump tag n) fun _ hl => Option.some.inj hl ▸ h

theorem close (h : Wired t owner outside code) (hins : ∀ l ∈ outside, l ∈ labels code) :
    Wired t owner [] code :=
  ⟨h.lowered, fun i hi l hl => .inr ((h.jumps i hi l hl).elim (hins l) id)⟩

theorem of_simple (h : AllSimple t uses code) :
    Wired t owner outside code where
  lowered i hi := by
    cases h i hi with
    | constant c => exact .constant c
    | place => exact .load _
    | stack op => exact .stack op
  jumps i hi l hl := by
    cases h i hi <;> cases hl

theorem of_evaluating (h : Evaluating t uses code) :
    Wired t owner outside code := by
  obtain ⟨front, hfront, rfl | ⟨l, rfl⟩⟩ := h
  · exact of_simple hfront
  · exact (of_simple hfront).append (one (.call l) nofun)

theorem of_guarding {g : Guard}
    (h : Guarding t g (.flow owner tag n) code) : Wired t owner [.flow owner tag n] code := by
  have hjump : Wired t owner [.flow owner tag n] [.jumpIfEqs (.flow owner tag n)] :=
    one (.fork tag n) fun l hl => mem_singleton.mpr (Option.some.inj hl).symm
  have hentry : Wired t owner [.flow owner tag n] (Guard.entry t g) := by
    cases g with
    | compare c => exact .nil
    | unwrap subject binding => exact one (.move _ _) nofun
  obtain ⟨front, hfront, ⟨rfl, -⟩ | rfl⟩ := h
  · exact of_simple hfront
  · exact (of_simple hfront).append (hjump.append hentry)

end Wired

theorem labels_of_simple (h : AllSimple t uses code) :
    labels code = [] := by
  refine filterMap_eq_nil_iff.mpr fun i hi => ?_
  cases h i hi <;> rfl

theorem labels_of_evaluating (h : Evaluating t uses code) : labels code = [] := by
  obtain ⟨front, hfront, rfl | ⟨l, rfl⟩⟩ := h
  · exact labels_of_simple hfront
  · rw [labels_append, labels_of_simple hfront]
    rfl

theorem labels_of_guarding {g : Guard} (h : Guarding t g target code) : labels code = [] := by
  have hentry : labels (Guard.entry t g) = [] := by cases g <;> rfl
  obtain ⟨front, hfront, ⟨rfl, -⟩ | rfl⟩ := h
  · exact labels_of_simple hfront
  · rw [labels_append, labels_of_simple hfront]
    exact hentry

structure Laid (t : Table) (owner : Bytes) (low high : Nat) (code : List Instr) : Prop where
  wired : Wired t owner [] code
  numbered : Numbered owner low high (labels code)

namespace Laid

variable {low mid high n : Nat} {code jump yes no body : List Instr} {g : Guard}

theorem nil (n : Nat) : Laid t owner n n [] := ⟨.nil, .nil (Nat.le_refl n)⟩

theorem append (h : Laid t owner low mid code) (h' : Laid t owner mid high code') :
    Laid t owner low high (code ++ code') where
  wired := h.wired.append h'.wired
  numbered := by
    rw [labels_append]
    exact h.numbered.append h'.numbered

theorem one (hi : Lowered t owner i) (hlabel : labels [i] = [])
    (hjump : i.jump? = none) : Laid t owner n n [i] where
  wired := .one hi fun _ hl => nomatch hjump.symm.trans hl
  numbered := hlabel ▸ .nil (Nat.le_refl n)

theorem of_gives {m : Lower (List Instr)} {uses : List Variable} (hm : Gives m (Evaluating t uses))
    (σ : LowerState) : Laid t owner σ.labels (m σ).2.labels (m σ).1 where
  wired := .of_evaluating (hm σ).1
  numbered := by
    rw [labels_of_evaluating (hm σ).1, (hm σ).2]
    exact .nil (Nat.le_refl _)

theorem «return» (h : Laid t owner low high code) :
    Laid t owner low high (code ++ [.popFrame, .return]) :=
  h.append ((one .popFrame rfl rfl).append (one .return rfl rfl))

theorem branch (hjump : Guarding t g (.flow owner .otherwise n) jump)
    (hyes : Laid t owner (n + 1) high yes) :
    Laid t owner n high (branchCode owner n jump yes none) where
  wired := by
    refine (((Wired.of_guarding hjump).append (hyes.wired.mono nofun)).append
      (.label .otherwise n)).close fun l hl => ?_
    rw [mem_singleton.mp hl, labels_append]
    exact mem_append_right _ mem_cons_self
  numbered := by
    rw [branchCode, labels_append, labels_append, labels_of_guarding hjump]
    exact (hyes.numbered.cons .otherwise).perm (perm_append_singleton _ _).symm

theorem branchElse (hjump : Guarding t g (.flow owner .otherwise n) jump)
    (hyes : Laid t owner (n + 1) mid yes) (hno : Laid t owner mid high no) :
    Laid t owner n high (branchCode owner n jump yes (some no)) where
  wired := by
    let outside : List Label := [.flow owner .otherwise n, .flow owner .endIf n]
    have hmiddle : Wired t owner outside [.jump (.flow owner .endIf n),
        .label (.flow owner .otherwise n)] :=
      (Wired.jump (by simp [outside])).append (.label .otherwise n)
    refine ((((((Wired.of_guarding hjump).mono (by simp [outside])).append
      (hyes.wired.mono nofun)).append hmiddle).append (hno.wired.mono nofun)).append
      (.label .endIf n)).close fun l hl => ?_
    simp only [outside, mem_cons, not_mem_nil, or_false] at hl
    simp only [labels_append, mem_append]
    rcases hl with rfl | rfl
    · exact .inl (.inl (.inr mem_cons_self))
    · exact .inr mem_cons_self
  numbered := by
    rw [branchCode, labels_append, labels_append, labels_append, labels_append,
      labels_of_guarding hjump]
    refine ((hyes.numbered.append hno.numbered).pair .otherwise .endIf nofun).perm ?_
    exact perm_pair _ _ _ _

theorem loop (hjump : Guarding t g (.flow owner .endLoop n) jump)
    (hbody : Laid t owner (n + 1) high body) :
    Laid t owner n high (loopCode owner n jump body) where
  wired := by
    let outside : List Label := [.flow owner .loop n, .flow owner .endLoop n]
    have hend : Wired t owner outside [.jump (.flow owner .loop n),
        .label (.flow owner .endLoop n)] :=
      (Wired.jump (by simp [outside])).append (.label .endLoop n)
    refine ((((Wired.label .loop n).append ((Wired.of_guarding hjump).mono
      (by simp [outside]))).append (hbody.wired.mono nofun)).append hend).close fun l hl => ?_
    simp only [outside, mem_cons, not_mem_nil, or_false] at hl
    simp only [labels_append, mem_append]
    rcases hl with rfl | rfl
    · exact .inl (.inl (.inl mem_cons_self))
    · exact .inr mem_cons_self
  numbered := by
    rw [loopCode, labels_append, labels_append, labels_append, labels_of_guarding hjump]
    refine (hbody.numbered.pair .loop .endLoop nofun).perm ?_
    exact (perm_append_singleton _ _).symm.cons _

end Laid

mutual

theorem laid_lowerStmt (s : Stmt) (σ : LowerState) :
    Laid t owner σ.labels (lowerStmt t owner s σ).2.labels (lowerStmt t owner s σ).1 := by
  cases s with
  | declare pos r x =>
    rw [lowerStmt_declare]
    exact (Laid.of_gives (evaluating_lowerValue x) σ).append (.one (.store r) rfl rfl)
  | assign pos r x =>
    rw [lowerStmt_assign]
    exact (Laid.of_gives (evaluating_lowerValue x) σ).append (.one (.store r) rfl rfl)
  | call c =>
    rw [lowerStmt]
    exact .of_gives (evaluating_lowerCall c) σ
  | ifElse pos g yes no =>
    obtain ⟨hjump, hlabels⟩ := guarding_lowerGuard (t := t) (.flow owner .otherwise σ.labels) g σ.next
    have hyes := laid_lowerStmts yes.stmts
      (lowerGuard t (.flow owner .otherwise σ.labels) g σ.next).2
    rw [hlabels] at hyes
    cases no with
    | none =>
      rw [lowerStmt_if]
      exact .branch hjump hyes
    | some e =>
      rw [lowerStmt_ifElse]
      exact .branchElse hjump hyes (laid_lowerStmts e.body.stmts _)
  | «while» pos g body =>
    obtain ⟨hjump, hlabels⟩ := guarding_lowerGuard (t := t) (.flow owner .endLoop σ.labels) g σ.next
    have hbody := laid_lowerStmts body.stmts
      (lowerGuard t (.flow owner .endLoop σ.labels) g σ.next).2
    rw [hlabels] at hbody
    rw [lowerStmt_while]
    exact .loop hjump hbody
  | «return» pos x =>
    cases x with
    | none =>
      rw [lowerStmt_returnNone]
      exact (Laid.nil _).return
    | some x =>
      rw [lowerStmt_returnSome]
      exact (Laid.of_gives (evaluating_lowerValue x) σ).return
  | elseStart e =>
    rw [lowerStmt]
    exact .nil _
  | blockEnd e =>
    rw [lowerStmt]
    exact .nil _
termination_by structural s

/-- The code of statements is laid out, by induction with that of one. -/
theorem laid_lowerStmts (ss : List Stmt) (σ : LowerState) :
    Laid t owner σ.labels (lowerStmts t owner ss σ).2.labels (lowerStmts t owner ss σ).1 := by
  cases ss with
  | nil =>
    rw [lowerStmts]
    exact .nil _
  | cons s rest =>
    rw [lowerStmts_cons]
    exact (laid_lowerStmt s σ).append (laid_lowerStmts rest _)
termination_by structural ss

end

theorem labels_lowerFunction (f : Function) (σ : LowerState) :
    labels (lowerFunction t f σ).1 =
      .function f.name :: labels (lowerStmts t f.name f.body.stmts σ).1 := by
  have hdefine (rs : List VarRef) : labels (rs.map fun r => .defVar (place t r)) = [] := by
    induction rs with
    | nil => rfl
    | cons r rs ih => exact ih
  have hpop (rs : List VarRef) : labels (rs.map fun r => .pop (place t r)) = [] := by
    induction rs with
    | nil => rfl
    | cons r rs ih => exact ih
  let entry : List Instr := [.label (.function f.name), .createFrame, .pushFrame]
  let defined : List Instr := (frameVars f).map fun r => .defVar (place t r)
  let popped : List Instr := f.params.reverse.map fun r => .pop (place t r)
  let leave : List Instr := [.popFrame, .return]
  change labels (entry ++ defined ++ popped ++ (lowerStmts t f.name f.body.stmts σ).1 ++ leave) = _
  rw [labels_append, labels_append, labels_append, labels_append, hdefine, hpop]
  exact append_nil _

theorem lowerFunction_cons (f : Function) (σ : LowerState) :
    ∃ k, (lowerFunction t f σ).1 = .label (.function f.name) :: k ∧
      ∀ l, .label l ∈ k → ∃ tag n, l = .flow f.name tag n := by
  refine ⟨_, rfl, fun l hl => ?_⟩
  have hmem : l ∈ labels (lowerStmts t f.name f.body.stmts σ).1 :=
    (List.cons.inj (labels_lowerFunction f σ)).2 ▸ mem_filterMap.mpr ⟨_, hl, rfl⟩
  obtain ⟨tag, n, hflow, -⟩ := (laid_lowerStmts f.body.stmts σ).numbered.range l hmem
  exact ⟨tag, n, hflow⟩

end

section

def functionsCode (fs : List (Function × List Instr)) : List Instr := fs.flatMap Prod.snd

theorem lowerFunctions_cons (t : Table) (f : Function) (rest : List Function) (σ : LowerState) :
    lowerFunctions t (f :: rest) σ =
      ((f, (lowerFunction t f σ).1) :: (lowerFunctions t rest (lowerFunction t f σ).2).1,
        (lowerFunctions t rest (lowerFunction t f σ).2).2) := rfl

/-- The labels of functions with the given names, with numbers of a range. -/
structure Labelled (names : List Bytes) (low : Nat) (ls : List Label) : Prop where
  nodup : ls.Nodup
  range : ∀ l ∈ ls, (∃ name ∈ names, l = .function name) ∨
    ∃ owner tag n, l = .flow owner tag n ∧ low ≤ n

theorem labelled_lowerFunctions (t : Table) (fs : List Function) (σ : LowerState)
    (hnames : (fs.map (·.name)).Nodup) :
    Labelled (fs.map (·.name)) σ.labels (labels (functionsCode (lowerFunctions t fs σ).1)) := by
  induction fs generalizing σ with
  | nil => exact ⟨nodup_nil, fun _ hl => nomatch hl⟩
  | cons f rest ih =>
    obtain ⟨hf, hrest⟩ := nodup_cons.mp hnames
    have hbody : Numbered f.name σ.labels (lowerFunction t f σ).2.labels
        (labels (lowerStmts t f.name f.body.stmts σ).1) := (laid_lowerStmts f.body.stmts σ).numbered
    have hothers := ih (lowerFunction t f σ).2 hrest
    rw [lowerFunctions_cons, functionsCode, flatMap_cons, labels_append,
      labels_lowerFunction]
    refine ⟨nodup_append.mpr ⟨?_, hothers.nodup, ?_⟩, ?_⟩
    · refine nodup_cons.mpr ⟨fun hmem => ?_, hbody.nodup⟩
      obtain ⟨tag, n, heq, -⟩ := hbody.range _ hmem
      cases heq
    · rintro l hl l' hl' rfl
      rcases hothers.range l hl' with ⟨name, hname, rfl⟩ | ⟨owner, tag, n, rfl, hn⟩
      · rcases mem_cons.mp hl with heq | hl
        · injection heq with heq
          subst heq
          exact hf hname
        · obtain ⟨tag, n, heq, -⟩ := hbody.range _ hl
          cases heq
      · rcases mem_cons.mp hl with heq | hl
        · cases heq
        · obtain ⟨tag', n', heq, -, hn'⟩ := hbody.range _ hl
          injection heq with _ _ heq
          omega
    · intro l hl
      have hle := hbody.le
      rw [map_cons]
      rcases mem_append.mp hl with hl | hl
      · rcases mem_cons.mp hl with rfl | hl
        · exact .inl ⟨f.name, mem_cons_self, rfl⟩
        · obtain ⟨tag, n, rfl, hn, -⟩ := hbody.range l hl
          exact .inr ⟨f.name, tag, n, rfl, hn⟩
      · rcases hothers.range l hl with ⟨name, hname, rfl⟩ | ⟨owner, tag, n, rfl, hn⟩
        · exact .inl ⟨name, mem_cons_of_mem _ hname, rfl⟩
        · exact .inr ⟨owner, tag, n, rfl, by omega⟩

theorem functionsCode_split {t : Table} {f : Function} (σ : LowerState) (hf : f ∈ fs) :
    ∃ pre k σ', functionsCode (lowerFunctions t fs σ).1 = pre ++ ((lowerFunction t f σ').1 ++ k) := by
  induction fs generalizing σ with
  | nil => cases hf
  | cons g rest ih =>
    rw [lowerFunctions_cons, functionsCode, flatMap_cons]
    rcases mem_cons.mp hf with rfl | hf
    · exact ⟨[], _, σ, rfl⟩
    · obtain ⟨pre, k, σ', heq⟩ := ih (lowerFunction t g σ).2 hf
      refine ⟨(lowerFunction t g σ).1 ++ pre, k, σ', ?_⟩
      rw [functionsCode] at heq
      rw [heq, append_assoc]

def builtinCode (b : Builtin) : List Instr := .label (.builtin b) :: b.body

def Label.ofBuiltin : Label → Bool
  | .builtin _ | .inside .. => true
  | .function _ | .flow .. => false

theorem builtinLabels (keep : Builtin → Bool) :
    (labels ((all.filter keep).flatMap builtinCode)).Nodup ∧
      ∀ l ∈ labels ((all.filter keep).flatMap builtinCode), l.ofBuiltin = true := by
  have hnodup : (labels (all.flatMap builtinCode)).Nodup := by decide
  have hall : ∀ l ∈ labels (all.flatMap builtinCode), l.ofBuiltin = true := by decide
  have hkept (bs : List Builtin) :
      ((bs.filter keep).flatMap builtinCode).Sublist (bs.flatMap builtinCode) := by
    induction bs with
    | nil => exact .slnil
    | cons b rest ih =>
      rw [flatMap_cons]
      by_cases hb : keep b = true
      · rw [filter_cons_of_pos hb, flatMap_cons]
        exact (List.Sublist.refl _).append ih
      · rw [filter_cons_of_neg hb]
        exact ih.trans (sublist_append_right _ _)
  have hsublist : (labels ((all.filter keep).flatMap builtinCode)).Sublist
      (labels (all.flatMap builtinCode)) := (hkept all).filterMap label?
  exact ⟨hnodup.sublist hsublist, fun l hl => hall l (hsublist.subset hl)⟩

def Line.instr? : Line → Option Instr
  | .instr i => some i
  | _ => none

def Generated.code (g : Generated) : List Instr := g.lines.filterMap Line.instr?

theorem code_section (comments : Bool) (comment : Bytes) (code : List Instr) :
    (section_ comments comment code).filterMap Line.instr? = code := by
  have hcode : (code.map Line.instr).filterMap Line.instr? = code := by
    induction code with
    | nil => rfl
    | cons i rest ih => exact congrArg (i :: ·) ih
  cases comments with
  | true => exact hcode
  | false => exact hcode

theorem code_sections {α : Type} (lines : α → List Line) (code : α → List Instr)
    (h : ∀ a, (lines a).filterMap Line.instr? = code a) (as : List α) :
    (as.flatMap lines).filterMap Line.instr? = as.flatMap code := by
  induction as with
  | nil => rfl
  | cons a rest ih => rw [flatMap_cons, flatMap_cons, filterMap_append, h, ih]

def startCode : List Instr :=
  [.defVar .discard, .call (.function "main"), .exit (.constant (.int 0))]

theorem code_generate (comments : Bool) (t : Table) (p : Tree.Program) :
    ∃ keep, (generate comments t p).code =
      startCode ++ functionsCode (lowerFunctions t p.functions ⟨0, none⟩).1 ++
        (all.filter keep).flatMap builtinCode := by
  refine ⟨fun b => (functionsCode (lowerFunctions t p.functions ⟨0, none⟩).1).contains
    (.call (.builtin b)), ?_⟩
  have huser := code_sections (fun (fc : Function × List Instr) =>
    section_ comments fc.1.definition.signature fc.2) Prod.snd
    (fun fc => code_section comments _ fc.2)
  have hblt := code_sections (builtinSection comments) builtinCode
    (fun b => code_section comments _ _)
  change ((prologue ++ _) ++ _).filterMap Line.instr? = _
  rw [filterMap_append, filterMap_append, hblt]
  congr 1
  congr 1
  exact huser _

/-- If its functions have different names, every label of a program stands once. -/
theorem nodup_labels_generate (comments : Bool) (t : Table) (p : Tree.Program)
    (hnames : (p.functions.map (·.name)).Nodup) :
    (labels (generate comments t p).code).Nodup := by
  obtain ⟨keep, hcode⟩ := code_generate comments t p
  have huser := labelled_lowerFunctions t p.functions ⟨0, none⟩ hnames
  obtain ⟨hnodup, hblt⟩ := builtinLabels keep
  rw [hcode, labels_append, labels_append]
  refine nodup_append.mpr ⟨huser.nodup, hnodup, fun l hl l' hl' => ?_⟩
  rintro rfl
  have hl' := hblt l hl'
  rcases huser.range l hl with ⟨name, -, rfl⟩ | ⟨owner, tag, n, rfl, -⟩
  · cases hl'
  · cases hl'

end

end Ifj24.Code
