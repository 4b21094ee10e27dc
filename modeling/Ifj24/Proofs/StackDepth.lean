import Ifj24.Proofs.CodeText

/-!
The depth of the data stack at every instruction of a function. The code of a function is read
once from its label to its last return, with the number of values on the data stack and the number
of frames pushed. Both agree along every edge of the control flow: at labels and between statements
there is no value and one frame, and that frame is undone before every return.
-/

open List

namespace Ifj24

namespace Code.Instr

/-- How many values an instruction takes from the data stack, and how many it leaves there. -/
def effect? (t : Table) : Instr → Option (Nat × Nat)
  | .jumpIfEqs _ => some (2, 0)
  | .label _ | .jump _ | .return | .createFrame | .pushFrame | .popFrame => some (0, 0)
  | i => i.turn? t

/-- How many frames an instruction takes from the stack of frames, and how many it puts there. -/
def framing : Instr → Nat × Nat
  | .pushFrame => (0, 1)
  | .popFrame => (1, 0)
  | _ => (0, 0)

def falls : Instr → Bool
  | .jump _ | .return | .exit _ => false
  | _ => true

end Code.Instr

namespace Machine

open Ifj24.Tree Code Typing

/-- The edges of the control flow from the instruction `i` at the place `p`. -/
inductive Follows (code : List Instr) (p : Nat) (i : Instr) : Nat → Prop
  | fall (h : i.falls = true) : Follows code p i (p + 1)
  | jump {l : Label} {q : Nat} (hl : i.jump? = some l) (hq : code[q]? = some (.label l)) :
    Follows code p i q

/-- The depths of a stack agree along every edge, and no instruction takes more than there is. -/
def Consistent (effect : Instr → Option (Nat × Nat)) (code : List Instr) (depth : Nat → Nat) :
    Prop :=
  ∀ p i, code[p]? = some i → ∃ taken left, effect i = some (taken, left) ∧ taken ≤ depth p ∧
    ∀ q, Follows code p i q → depth q = depth p - taken + left

section

structure Stacks where
  data : Nat
  frames : Nat

open Stacks

def Stacks.rest : Stacks := ⟨0, 1⟩

/-- The depths behind an instruction. What stands behind a return is not reached from there. -/
def Stacks.next (t : Table) (s : Stacks) (i : Instr) : Stacks :=
  if i = .return then .rest
  else
    let effect := (i.effect? t).getD (0, 0)
    ⟨s.data - effect.1 + effect.2, s.frames - i.framing.1 + i.framing.2⟩

inductive Reads (t : Table) : Stacks → Instr → Prop
  | straight {i : Instr} {d n : Nat} (h : i.turn? t = some (taken, left)) : Reads t ⟨taken + d, n⟩ i
  | label {owner : Bytes} : Reads t .rest (.label (.flow owner tag k))
  | jump {owner : Bytes} : Reads t .rest (.jump (.flow owner tag k))
  | jumpIfEqs {owner : Bytes} : Reads t ⟨2, 1⟩ (.jumpIfEqs (.flow owner tag k))
  | function {d : Nat} : Reads t ⟨d, 0⟩ (.label (.function name))
  | createFrame {d : Nat} : Reads t ⟨d, 0⟩ .createFrame
  | pushFrame {d : Nat} : Reads t ⟨d, 0⟩ .pushFrame
  | popFrame {d : Nat} : Reads t ⟨d, 1⟩ .popFrame
  | return {d : Nat} : Reads t ⟨d, 0⟩ .return

def Scans (t : Table) : Stacks → List Instr → Stacks → Prop
  | s, [], s' => s = s'
  | s, i :: k, s' => Reads t s i ∧ Scans t (s.next t i) k s'

variable {t : Table} {s s' : Stacks} {i : Instr} {code : List Instr} {p q l d n : Nat}

theorem effect?_of_turn? (h : i.turn? t = some (l, m)) :
    i.effect? t = some (l, m) ∧ i.framing = (0, 0) ∧ i.jump? = none ∧ i ≠ .return := by
  cases i <;> first | exact ⟨h, rfl, rfl, by rintro ⟨⟩⟩ | cases h

theorem Stacks.next_of_turn? (h : i.turn? t = some (l, m)) :
    next t ⟨l + d, n⟩ i = ⟨m + d, n⟩ := by
  obtain ⟨heffect, hframing, -, hi⟩ := effect?_of_turn? h
  rw [next, if_neg hi, heffect, hframing]
  simp [Nat.add_comm d m]

theorem Scans.append (h : Scans t s code s') (h' : Scans t s' code' s'') :
    Scans t s (code ++ code') s'' := by
  induction code generalizing s with
  | nil => exact h ▸ h'
  | cons i k ih => exact ⟨h.1, ih h.2⟩

theorem scans_of_straight (h : Straight t code l m) (n : Nat) : Scans t ⟨l, n⟩ code ⟨m, n⟩ := by
  induction h with
  | nil m => exact rfl
  | cons hi _ ih => exact ⟨.straight hi, next_of_turn? hi ▸ ih⟩

def stacksAt (t : Table) (s : Stacks) (code : List Instr) (p : Nat) : Stacks :=
  (code.take p).foldl (next t) s

theorem stacksAt_succ (hi : code[p]? = some i) :
    stacksAt t s code (p + 1) = (stacksAt t s code p).next t i := by
  rw [stacksAt, take_add_one, hi, foldl_append]
  rfl

theorem Scans.foldl_eq (h : Scans t s code s') : code.foldl (next t) s = s' := by
  induction code generalizing s with
  | nil => exact h
  | cons i k ih => exact ih h.2

theorem Scans.stacksAt_eq (h : Scans t s code s') (more : List Instr) :
    stacksAt t s (code ++ more) code.length = s' := by
  rw [stacksAt, take_left, h.foldl_eq]

theorem Scans.reads (h : Scans t s code s') (hi : code[p]? = some i) :
    Reads t (stacksAt t s code p) i := by
  induction code generalizing s p with
  | nil => cases hi
  | cons j k ih =>
    cases p with
    | zero =>
      cases hi
      exact h.1
    | succ p => exact ih h.2 hi

/-- A jump goes to labels between statements, and nothing is left on the data stack there. -/
theorem Reads.next_of_jump (h : Reads t s i) (hi : i.jump? = some target) :
    s.next t i = .rest ∧ (Reads t s' (.label target) → s' = .rest) := by
  cases h with
  | straight h => cases (effect?_of_turn? h).2.2.1.symm.trans hi
  | jump | jumpIfEqs =>
    cases hi
    refine ⟨rfl, fun h => ?_⟩
    cases h with
    | straight h => cases h
    | label => rfl
  | _ => cases hi

theorem Scans.follows (h : Scans t s code s') (hi : code[p]? = some i)
    (hq : Follows code p i q) :
    i ≠ .return ∧ stacksAt t s code q = (stacksAt t s code p).next t i := by
  cases hq with
  | fall hfalls =>
    refine ⟨?_, stacksAt_succ hi⟩
    rintro rfl
    cases hfalls
  | jump hl hq =>
    obtain ⟨hnext, hlabel⟩ := (h.reads hi).next_of_jump hl
    refine ⟨?_, (hlabel (h.reads hq)).trans hnext.symm⟩
    rintro rfl
    cases hl

theorem Reads.enough (h : Reads t s i) :
    (∃ taken left, i.effect? t = some (taken, left) ∧ taken ≤ s.data) ∧
      i.framing.1 ≤ s.frames := by
  cases h with
  | straight h =>
    obtain ⟨heffect, hframing, -⟩ := effect?_of_turn? h
    exact ⟨⟨_, _, heffect, Nat.le_add_right _ _⟩, hframing ▸ Nat.zero_le _⟩
  | jumpIfEqs => exact ⟨⟨2, 0, rfl, Nat.le_refl 2⟩, Nat.zero_le _⟩
  | popFrame => exact ⟨⟨0, 0, rfl, Nat.zero_le _⟩, Nat.le_refl 1⟩
  | _ => exact ⟨⟨0, 0, rfl, Nat.zero_le _⟩, Nat.zero_le _⟩

theorem Scans.consistent (h : Scans t s code s') :
    Consistent (Instr.effect? t) code (fun p => (stacksAt t s code p).data) ∧
      Consistent (fun i => some i.framing) code (fun p => (stacksAt t s code p).frames) := by
  refine ⟨fun p i hi => ?_, fun p i hi => ?_⟩
  · obtain ⟨⟨taken, left, heffect, hle⟩, -⟩ := (h.reads hi).enough
    refine ⟨taken, left, heffect, hle, fun q hq => ?_⟩
    obtain ⟨hne, heq⟩ := h.follows hi hq
    rw [Stacks.next, if_neg hne, heffect] at heq
    exact congrArg data heq
  · refine ⟨_, _, rfl, (h.reads hi).enough.2, fun q hq => ?_⟩
    obtain ⟨hne, heq⟩ := h.follows hi hq
    rw [Stacks.next, if_neg hne] at heq
    exact congrArg frames heq

end

section

variable {t : Table} {owner : Bytes}

/-- The code of a statement consists of code of its own and of that of its blocks. -/
inductive Piece where
  | own (code : List Instr)
  | block (ss : List Stmt) (σ : LowerState)

def Piece.code (t : Table) (owner : Bytes) : Piece → List Instr
  | .own code => code
  | .block ss σ => (lowerStmts t owner ss σ).1

def pieces (t : Table) (owner : Bytes) (σ : LowerState) : Stmt → List Piece
  | .ifElse _ g yes no =>
    let jump := lowerGuard t (.flow owner .otherwise σ.labels) g σ.next
    [.own jump.1, .block yes.stmts jump.2] ++
      match no with
      | none => [.own [.label (.flow owner .otherwise σ.labels)]]
      | some e => [
        .own [.jump (.flow owner .endIf σ.labels), .label (.flow owner .otherwise σ.labels)],
        .block e.body.stmts (lowerStmts t owner yes.stmts jump.2).2,
        .own [.label (.flow owner .endIf σ.labels)]]
  | .while _ g body =>
    let jump := lowerGuard t (.flow owner .endLoop σ.labels) g σ.next
    [.own (.label (.flow owner .loop σ.labels) :: jump.1), .block body.stmts jump.2,
      .own [.jump (.flow owner .loop σ.labels), .label (.flow owner .endLoop σ.labels)]]
  | s => [.own (lowerStmt t owner s σ).1]

/-- The code of the statement `x`, generated in the state `τ`, stands behind some other code in
that of a list of statements, at whatever depth. -/
inductive Stands (t : Table) (owner : Bytes) (x : Stmt) (τ : LowerState) :
    List Stmt → LowerState → List Instr → Prop
  | here : Stands t owner x τ (x :: rest) τ []
  | later {s : Stmt} {σ : LowerState} (h : Stands t owner x τ rest (lowerStmt t owner s σ).2 pre) :
    Stands t owner x τ (s :: rest) σ ((lowerStmt t owner s σ).1 ++ pre)
  | inside {s : Stmt} {rest ss : List Stmt} {σ σ' : LowerState} {front back : List Piece}
      {pre : List Instr} (hss : pieces t owner σ s = front ++ .block ss σ' :: back)
      (h : Stands t owner x τ ss σ' pre) :
    Stands t owner x τ (s :: rest) σ (front.flatMap (Piece.code t owner) ++ pre)

/-- The code of a statement is read with nothing on the data stack at its ends. That of a return
statement puts its value there. -/
structure Rests (t : Table) (owner : Bytes) (s : Stmt) (σ : LowerState) : Prop where
  scans : Scans t .rest (lowerStmt t owner s σ).1 .rest
  value : ∀ pos x, s = .return pos x → ∃ value, Straight t value 0 x.isSome.toNat ∧
    (lowerStmt t owner s σ).1 = value ++ [.popFrame, .return]

/-- All statements in a list rest, at whatever depth, and the returns are those of the return
statements. -/
structure AllRest (t : Table) (owner : Bytes) (ss : List Stmt) (σ : LowerState) : Prop where
  scans : Scans t .rest (lowerStmts t owner ss σ).1 .rest
  stands : ∀ x τ pre, Stands t owner x τ ss σ pre → Rests t owner x τ ∧ Scans t .rest pre .rest ∧
    ∃ post, (lowerStmts t owner ss σ).1 = pre ++ ((lowerStmt t owner x τ).1 ++ post)
  returns : ∀ p, (lowerStmts t owner ss σ).1[p]? = some .return →
    ∃ pos x τ pre, Stands t owner (.return pos x) τ ss σ pre ∧
      p + 1 = pre.length + (lowerStmt t owner (.return pos x) τ).1.length

structure Tiled (t : Table) (owner : Bytes) (s : Stmt) (σ : LowerState) : Prop where
  code : (lowerStmt t owner s σ).1 = (pieces t owner σ s).flatMap (Piece.code t owner)
  pieces : ∀ q ∈ pieces t owner σ s,
    match q with
    | .own code => Scans t .rest code .rest ∧ (.return ∈ code → ∃ pos x, s = .return pos x)
    | .block ss σ' => AllRest t owner ss σ'
  value : ∀ pos x, s = .return pos x → ∃ value, Straight t value 0 x.isSome.toNat ∧
    (lowerStmt t owner s σ).1 = value ++ [.popFrame, .return]

section

variable {s : Stmt} {σ : LowerState} {code : List Instr} {p : Nat}

theorem place_of_return (hge : code.length ≤ p)
    (h : (code ++ [.popFrame, .return])[p]? = some Instr.return) : p = code.length + 1 := by
  rw [getElem?_append_right hge] at h
  generalize hk : p - code.length = k at h
  rcases k with _ | _ | k
  · cases h
  · omega
  · cases h

theorem le_place_of_return {more : List Instr} (hmem : Instr.return ∉ code)
    (h : (code ++ more)[p]? = some Instr.return) : code.length ≤ p :=
  Nat.le_of_not_lt fun hlt => hmem (mem_of_getElem? ((getElem?_append_left hlt).symm.trans h))

theorem Straight.return_not_mem {l m : Nat} (h : Straight t code l m) : Instr.return ∉ code := by
  induction h with
  | nil m => exact not_mem_nil
  | cons hi _ ih => exact not_mem_cons_of_ne_of_not_mem (effect?_of_turn? hi).2.2.2.symm ih

theorem Tiled.scans_flatMap (h : Tiled t owner s σ) {qs : List Piece}
    (hqs : ∀ q ∈ qs, q ∈ Machine.pieces t owner σ s) :
    Scans t .rest (qs.flatMap (Piece.code t owner)) .rest := by
  induction qs with
  | nil => exact rfl
  | cons q qs ih =>
    obtain ⟨hq, hothers⟩ := forall_mem_cons.mp hqs
    have hfirst := h.pieces q hq
    cases q with
    | own code => exact hfirst.1.append (ih hothers)
    | block ss σ' => exact hfirst.scans.append (ih hothers)

theorem Tiled.rests (h : Tiled t owner s σ) : Rests t owner s σ :=
  ⟨h.code ▸ h.scans_flatMap fun _ hq => hq, h.value⟩

theorem exists_piece {i : Instr} (h : (qs.flatMap (Piece.code t owner))[p]? = some i) :
    ∃ front q back k, qs = front ++ q :: back ∧
      p = (front.flatMap (Piece.code t owner)).length + k ∧ (q.code t owner)[k]? = some i := by
  induction qs generalizing p with
  | nil => cases h
  | cons q qs ih =>
    rw [flatMap_cons] at h
    rcases Nat.lt_or_ge p (q.code t owner).length with hlt | hge
    · rw [getElem?_append_left hlt] at h
      exact ⟨[], q, qs, p, rfl, (Nat.zero_add p).symm, h⟩
    · rw [getElem?_append_right hge] at h
      obtain ⟨front, q', back, k, rfl, hp, hk⟩ := ih h
      refine ⟨q :: front, q', back, k, rfl, ?_, hk⟩
      rw [flatMap_cons, length_append]
      omega

theorem Tiled.cons {rest : List Stmt} (hs : Tiled t owner s σ)
    (hrest : AllRest t owner rest (lowerStmt t owner s σ).2) : AllRest t owner (s :: rest) σ := by
  constructor
  case scans =>
    rw [lowerStmts_cons]
    exact hs.rests.scans.append hrest.scans
  case stands =>
    intro x τ pre hstands
    rw [lowerStmts_cons]
    cases hstands with
    | here => exact ⟨hs.rests, rfl, _, rfl⟩
    | later h =>
      obtain ⟨hx, hpre, post, hpost⟩ := hrest.stands _ _ _ h
      refine ⟨hx, hs.rests.scans.append hpre, post, ?_⟩
      rw [hpost, append_assoc]
    | @inside _ _ ss _ σ' front back pre hss h =>
      have hcode := hs.code
      have hpieces := hs.pieces
      have hfront := hs.scans_flatMap fun q hq => hss ▸ mem_append_left _ hq
      rw [hss] at hcode hpieces
      have hall : AllRest t owner ss σ' := hpieces _ (mem_append_right _ mem_cons_self)
      obtain ⟨hx, hpre, post, hpost⟩ := hall.stands _ _ _ h
      refine ⟨hx, hfront.append hpre, ?_⟩
      simp only [hcode, flatMap_append, flatMap_cons, Piece.code, hpost,
        append_assoc]
      exact ⟨_, rfl⟩
  case returns =>
    intro p h
    rw [lowerStmts_cons] at h
    rcases Nat.lt_or_ge p (lowerStmt t owner s σ).1.length with hlt | hge
    · rw [getElem?_append_left hlt] at h
      have hp := h
      rw [hs.code] at h
      obtain ⟨front, q, back, k, hss, rfl, hk⟩ := exists_piece h
      have hq := hs.pieces q (hss ▸ mem_append_right _ mem_cons_self)
      cases q with
      | own code =>
        obtain ⟨pos, x, rfl⟩ := hq.2 (mem_of_getElem? hk)
        obtain ⟨value, hvalue, hcode⟩ := hs.value pos x rfl
        refine ⟨pos, x, σ, [], .here, ?_⟩
        have hmem := hvalue.return_not_mem
        rw [hcode] at hp ⊢
        rw [place_of_return (le_place_of_return hmem hp) hp]
        simp [Nat.add_assoc]
      | block ss σ' =>
        obtain ⟨pos, x, τ, pre, hstands, hk⟩ := hq.returns k hk
        refine ⟨pos, x, τ, _, .inside hss hstands, ?_⟩
        rw [length_append]
        omega
    · rw [getElem?_append_right hge] at h
      obtain ⟨pos, x, τ, pre, hstands, hq⟩ := hrest.returns _ h
      refine ⟨pos, x, τ, _, .later hstands, ?_⟩
      rw [length_append]
      omega

theorem Forks.owned (h : Forks t (.flow owner tag number) code) :
    Scans t .rest code .rest ∧ (.return ∈ code → A) := by
  obtain ⟨front, back, rfl, hfront, hback⟩ := h
  refine ⟨(scans_of_straight hfront 1).append ⟨.jumpIfEqs, scans_of_straight hback 1⟩, ?_⟩
  simp [hfront.return_not_mem, hback.return_not_mem]

theorem Tiled.of_straight (hcode : Straight t code 0 0) (heq : (lowerStmt t owner s σ).1 = code)
    (hpieces : Machine.pieces t owner σ s = [.own (lowerStmt t owner s σ).1])
    (hs : ∀ pos x, s ≠ .return pos x) : Tiled t owner s σ where
  code := by rw [hpieces]; exact (append_nil _).symm
  pieces := by
    rw [hpieces, heq]
    exact forall_mem_singleton.mpr
      ⟨scans_of_straight hcode 1, fun h => absurd h hcode.return_not_mem⟩
  value pos x h := absurd h (hs pos x)

end

theorem tiled_composes (ht : Known t) :
    Composes t f owner (Tiled t owner) (AllRest t owner) where
  nil σ := by
    refine ⟨?_, ?_, ?_⟩ <;> rw [lowerStmts]
    · exact rfl
    · rintro x τ pre ⟨⟩
    · rintro p ⟨⟩
  cons := Tiled.cons
  blockEnd e σ := .of_straight (.nil 0) (by rw [lowerStmt]; rfl) rfl (by rintro _ _ ⟨⟩)
  store {_ r _ _ _} hs hx hσ := by
    have hcode := (emits_value ht hx _ hσ).2.append (.popped t (place t r))
    refine .of_straight hcode (by rw [hs.lowerStmt_eq]) ?_ ?_
    · cases hs <;> rfl
    · rintro _ _ rfl
      cases hs
  call {_ g _} hc hvoid hσ := by
    have hcode := (emits_call ht hc _ hσ).2
    have hnone : g.hasResult.toNat = 0 := by simp [FuncDef.hasResult, hvoid]
    rw [hnone] at hcode
    exact .of_straight hcode (by rw [lowerStmt]) rfl (by rintro _ _ ⟨⟩)
  returned {pos x σ} hx hσ := by
    obtain ⟨-, hres, value, hvalue, hcode⟩ := emits_return ht pos hx σ hσ
    refine ⟨(append_nil _).symm, forall_mem_singleton.mpr ⟨?_, fun _ => ⟨pos, x, rfl⟩⟩, ?_⟩
    · rw [hcode]
      exact (scans_of_straight hvalue 1).append ⟨.popFrame, .return, rfl⟩
    · rintro _ _ ⟨⟩
      exact ⟨value, hres ▸ hvalue, hcode⟩
  branch {pos g yes σ} hg hσ hyes := by
    have hjump := (emits_guard _ hg _ hσ).2
    refine ⟨?_, ?_, by rintro _ _ ⟨⟩⟩
    · simp [lowerStmt_if, branchCode, pieces, Piece.code]
    · simp only [pieces, cons_append, nil_append, forall_mem_cons]
      refine ⟨hjump.owned, hyes, ⟨⟨.label, rfl⟩, by simp⟩, forall_mem_nil _⟩
  branchElse {pos g yes e σ} hg hσ hyes hno := by
    have hjump := (emits_guard _ hg _ hσ).2
    refine ⟨?_, ?_, by rintro _ _ ⟨⟩⟩
    · simp [lowerStmt_ifElse, branchCode, pieces, Piece.code]
    · simp only [pieces, cons_append, nil_append, forall_mem_cons]
      exact ⟨hjump.owned, hyes, ⟨⟨.jump, .label, rfl⟩, by simp⟩, hno, ⟨⟨.label, rfl⟩, by simp⟩,
        forall_mem_nil _⟩
  loop {pos g body σ} hg hσ hbody := by
    obtain ⟨hscans, hreturn⟩ := (emits_guard _ hg _ hσ).2.owned
    refine ⟨?_, ?_, by rintro _ _ ⟨⟩⟩
    · simp [lowerStmt_while, loopCode, pieces, Piece.code]
    · simp only [pieces, forall_mem_cons]
      exact ⟨⟨⟨.label, hscans⟩, by simpa using hreturn⟩, hbody, ⟨⟨.jump, .label, rfl⟩, by simp⟩,
        forall_mem_nil _⟩

end

section

variable {t : Table} {fn : Function} {σ : LowerState}

/-- Depths of the data stack and of the stack of frames at the instructions of a function, which
agree along all edges. The arguments are on the data stack at first and taken at the entry; from
there on nothing is on it at labels and where the code of a statement, at whatever depth, begins
or ends. A return stands behind the instruction that undoes the only frame, and finds the value of
its return statement, if that has one. -/
structure Levels (t : Table) (fn : Function) (σ : LowerState) (depth frames : Nat → Nat) :
    Prop where
  consistent : Consistent (Instr.effect? t) (lowerFunction t fn σ).1 depth
  framed : Consistent (fun i => some i.framing) (lowerFunction t fn σ).1 frames
  start : depth 0 = fn.params.length ∧ frames 0 = 0
  entered : depth (entryCode t fn).length = 0
  labels : ∀ p l, (lowerFunction t fn σ).1[p + 1]? = some (.label l) → depth (p + 1) = 0
  between : ∀ s τ pre, Stands t fn.name s τ fn.body.stmts σ pre →
    let first := (entryCode t fn).length + pre.length
    depth first = 0 ∧ depth (first + (lowerStmt t fn.name s τ).1.length) = 0
  returned : ∀ p, (lowerFunction t fn σ).1[p]? = some .return →
    (∃ q, p = q + 1 ∧ (lowerFunction t fn σ).1[q]? = some .popFrame ∧ frames q = 1) ∧
    frames p = 0 ∧
    (p + 1 = (lowerFunction t fn σ).1.length ∧ depth p = 0 ∨
      ∃ pos x τ pre, Stands t fn.name (.return pos x) τ fn.body.stmts σ pre ∧
        p + 1 = (entryCode t fn).length + (pre.length +
          (lowerStmt t fn.name (.return pos x) τ).1.length) ∧
        depth p = x.isSome.toNat)

theorem scans_entry (t : Table) (fn : Function) :
    Scans t ⟨fn.params.length, 0⟩ (entryCode t fn) .rest := by
  have hlocals := straight_entry t (frameVars fn) fn.params.reverse
  rw [length_reverse] at hlocals
  rw [entryCode, append_assoc]
  exact ⟨.function, .createFrame, .pushFrame, scans_of_straight hlocals 1⟩

theorem Scans.returned {s : Stacks} {code pre value more : List Instr} {m p : Nat}
    (hpre : Scans t s pre .rest) (hvalue : Straight t value 0 m)
    (hcode : code = pre ++ (value ++ [.popFrame, .return] ++ more))
    (hp : p = pre.length + value.length + 1) :
    (∃ q, p = q + 1 ∧ code[q]? = some .popFrame ∧ (stacksAt t s code q).frames = 1) ∧
      stacksAt t s code p = ⟨m, 0⟩ := by
  have hat := (hpre.append (scans_of_straight hvalue 1)).stacksAt_eq ([.popFrame, .return] ++ more)
  have hpop : code[pre.length + value.length]? = some .popFrame := by simp [hcode]
  rw [length_append, append_assoc, ← append_assoc value, ← hcode] at hat
  subst hp
  exact ⟨⟨_, rfl, hpop, by rw [hat]⟩, by rw [stacksAt_succ hpop, hat]; rfl⟩

theorem exists_levels (hlink : Linked t fns program) (hfn : fn ∈ fns)
    (hσ : (lowerFunction t fn σ).2.failure = none) :
    ∃ depth frames, Levels t fn σ depth frames := by
  obtain ⟨-, hbody⟩ := composed_stmts hlink.known (tiled_composes hlink.known) fn.body.stmts
    (hlink.typed fn hfn) σ hσ
  have hentry := scans_entry t fn
  have hcode := lowerFunction_eq (t := t) fn σ
  have hscans : Scans t ⟨fn.params.length, 0⟩ (lowerFunction t fn σ).1 .rest := by
    rw [hcode]
    exact hentry.append (hbody.scans.append ⟨.popFrame, .return, rfl⟩)
  have hat {pre post : List Instr} (hpre : Scans t .rest pre .rest)
      (hsplit : (lowerStmts t fn.name fn.body.stmts σ).1 = pre ++ post) :
      stacksAt t ⟨fn.params.length, 0⟩ (lowerFunction t fn σ).1
        ((entryCode t fn).length + pre.length) = .rest := by
    have hat := (hentry.append hpre).stacksAt_eq (post ++ [.popFrame, .return])
    rw [length_append] at hat
    rw [hcode, hsplit]
    simpa only [append_assoc] using hat
  refine ⟨fun p => (stacksAt t ⟨fn.params.length, 0⟩ (lowerFunction t fn σ).1 p).data,
    fun p => (stacksAt t ⟨fn.params.length, 0⟩ (lowerFunction t fn σ).1 p).frames, ?_⟩
  constructor
  case consistent => exact hscans.consistent.1
  case framed => exact hscans.consistent.2
  case start => exact ⟨rfl, rfl⟩
  case entered => exact congrArg Stacks.data (@hat [] _ rfl rfl)
  case labels =>
    intro p l hl
    obtain ⟨k, hk, hflow⟩ := lowerFunction_cons (t := t) fn σ
    obtain ⟨tag, n, rfl⟩ : ∃ tag n, l = .flow fn.name tag n := by
      rw [hk] at hl
      exact hflow l (mem_of_getElem? hl)
    generalize hs : stacksAt t _ _ (p + 1) = s
    cases hs ▸ hscans.reads hl with
    | straight h => cases h
    | label => rfl
  case between =>
    intro s τ pre hstands
    obtain ⟨hs, hpre, post, hsplit⟩ := hbody.stands s τ pre hstands
    refine ⟨congrArg Stacks.data (hat hpre hsplit), ?_⟩
    rw [← append_assoc] at hsplit
    have hend := congrArg Stacks.data (hat (hpre.append hs.scans) hsplit)
    rwa [length_append, ← Nat.add_assoc] at hend
  case returned =>
    intro p hp
    have hmem : Instr.return ∉ entryCode t fn := by simp [entryCode]
    rw [hcode] at hp
    rcases Nat.lt_or_ge p (entryCode t fn ++ (lowerStmts t fn.name fn.body.stmts σ).1).length
      with hlt | hge
    · have hge := le_place_of_return hmem hp
      obtain ⟨q, rfl⟩ := Nat.exists_eq_add_of_le hge
      have hq : (lowerStmts t fn.name fn.body.stmts σ).1[q]? = some .return := by
        rw [length_append, Nat.add_lt_add_iff_left] at hlt
        rwa [getElem?_append_right hge, Nat.add_sub_cancel_left, getElem?_append_left hlt] at hp
      obtain ⟨pos, x, τ, pre, hstands, hplace⟩ := hbody.returns q hq
      obtain ⟨hx, hpre, post, hsplit⟩ := hbody.stands _ τ pre hstands
      obtain ⟨value, hvalue, hreturn⟩ := hx.value pos x rfl
      have hwhole : (lowerFunction t fn σ).1 = entryCode t fn ++ pre ++
          (value ++ [.popFrame, .return] ++ (post ++ [.popFrame, .return])) := by
        rw [hcode, hsplit, hreturn]
        simp
      have hlast : (entryCode t fn).length + q =
          (entryCode t fn ++ pre).length + value.length + 1 := by
        rw [hreturn] at hplace
        simp only [length_append, length_cons, length_nil] at hplace ⊢
        omega
      obtain ⟨hpop, hat⟩ := (hentry.append hpre).returned hvalue hwhole hlast
      exact ⟨hpop, congrArg Stacks.frames hat, .inr ⟨pos, x, τ, pre, hstands, by omega,
        congrArg Stacks.data hat⟩⟩
    · have hwhole : (lowerFunction t fn σ).1 = entryCode t fn ++
          (lowerStmts t fn.name fn.body.stmts σ).1 ++ ([] ++ [.popFrame, .return] ++ []) := by
        rw [hcode]
        simp
      rw [← append_assoc] at hp
      have hlast := place_of_return hge hp
      obtain ⟨hpop, hat⟩ := (hentry.append hbody.scans).returned (.nil 0) hwhole hlast
      exact ⟨hpop, congrArg Stacks.frames hat, .inl ⟨by simp [hwhole, hlast, Nat.add_assoc], congrArg Stacks.data hat⟩⟩

end

/-- The generated code has one depth of the data stack at every instruction. For each function of a
program that is parsed and checked there are depths for the instructions of its code, which agree
along every edge of the control flow: never less than what an instruction takes, none at labels
and statement boundaries, the value of a return statement at its return and none at any other.
With the same rule for frames, every return finds the one frame of the function just undone. -/
theorem generate_levels_stack (tokens : List Token) (hash : NameHash) (strict : Bool)
    (parsed : Parsed) (t : Table)
    (hparse : parse (.ofTokens tokens) (.fresh hash strict) = .ok parsed t)
    (hcheck : (check { parsed with unused := none } t).failure = none) (comments : Bool)
    (hgenerate : (generate comments (check parsed t).table (check parsed t).program).failure =
      none) :
    let table := (check parsed t).table
    let program := (generate comments table (check parsed t).program).code
    ∀ fn ∈ (check parsed t).program.functions, ∃ σ after,
      codeAt (.function fn.name) program = some ((lowerFunction table fn σ).1 ++ after) ∧
        ∃ depth frames, Levels table fn σ depth frames := by
  obtain ⟨p, hpass⟩ := exists_passed hparse hcheck
  intro table program fn hfn
  obtain ⟨σ, after, hσ, -, hcode⟩ := placed_of_passed hpass hgenerate hfn
  exact ⟨σ, after, hcode, exists_levels (linked_of_passed hpass comments) hfn hσ⟩

/-- A function that returns a value in both branches of a conditional statement. -/
theorem generate_levels_choice :
    ∃ parsed t, parse (.ofTokens choiceTokens) (.fresh (fun _ => 0) false) = .ok parsed t ∧
      (check { parsed with unused := none } t).failure = none ∧
      (generate false (check parsed t).table (check parsed t).program).failure = none ∧
      ∃ fn ∈ (check parsed t).program.functions, fn.name = "f" ∧
        ∃ σ depth frames, Levels (check parsed t).table fn σ depth frames := by
  obtain ⟨parsed, t, hparse, hcheck, hgen, fn, hfn, hname⟩ : ∃ parsed t,
      parse (.ofTokens choiceTokens) (.fresh (fun _ => 0) false) = .ok parsed t ∧
        (check { parsed with unused := none } t).failure = none ∧
        (generate false (check parsed t).table (check parsed t).program).failure = none ∧
        ∃ fn ∈ (check parsed t).program.functions, fn.name = "f" := by
    decide +kernel
  obtain ⟨σ, after, -, depth, frames, hlevels⟩ :=
    generate_levels_stack _ _ _ parsed t hparse hcheck false hgen fn hfn
  exact ⟨parsed, t, hparse, hcheck, hgen, fn, hfn, hname, σ, depth, frames, hlevels⟩

end Machine

end Ifj24
