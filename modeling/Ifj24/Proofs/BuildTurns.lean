import Ifj24.Watch

/-!
What the two flags of a watched file ensure. One builder at a time holds the flag `busy`, so
builds never overlap. A note may be left when the last builder has already looked for one: the
caller fails to start a build, the builder releases, finds no note and ends, and only then the
note is left. Nobody is alive to see it. In every other order of the steps each change is
built after it was announced.
-/

namespace Ifj24.Watch

def Builder.holds : Builder → Bool
  | .clearing | .building | .releasing => true
  | .checking | .claiming => false

open Builder

structure Tally where
  /-- How many times the caller has begun to ask. -/
  begun : Nat
  /-- How many of these had begun when the latest build started. -/
  served : Nat
  /-- Whether the latest note since then was left when no builder was alive. -/
  unattended : Bool
  deriving DecidableEq, Repr

variable {s : State} {c : Tally}

namespace Tally

def zero : Tally := ⟨0, 0, false⟩

def afterCaller (c : Tally) (s : State) : Tally :=
  match s.caller with
  | .idle => { c with begun := c.begun + 1 }
  | .asking => c
  | .noting => { c with unattended := s.builders.isEmpty }

/-- The tally after a step of the builder with a number. A build starts when the note is taken
away. -/
def afterBuilder (c : Tally) (s : State) (i : Nat) : Tally :=
  if s.builders[i]? = some .clearing then { c with served := c.begun, unattended := false } else c

def returned (c : Tally) : Caller → Nat
  | .idle => c.begun
  | .asking | .noting => c.begun - 1

theorem returned_le (c : Tally) (caller : Caller) : c.returned caller ≤ c.begun := by
  cases caller with
  | idle => exact Nat.le_refl _
  | asking | noting => exact Nat.sub_le _ _

end Tally

/-- The states that any order of steps leads to, each with the tally of these steps. -/
inductive Counted : Tally → State → Prop where
  | initial : Counted .zero .initial
  | caller {c : Tally} {s : State} : Counted c s → Counted (c.afterCaller s) s.callerStep
  | builder {c : Tally} {s : State} {i : Nat} : Counted c s → i < s.builders.length →
      Counted (c.afterBuilder s i) (s.builderStep i)

theorem exists_counted (h : Reachable s) : ∃ c, Counted c s := by
  induction h with
  | initial => exact ⟨_, .initial⟩
  | step _ hstep ih =>
    obtain ⟨c, hc⟩ := ih
    cases hstep with
    | caller => exact ⟨_, hc.caller⟩
    | builder i hi => exact ⟨_, hc.builder hi⟩

theorem Counted.reachable (h : Counted c s) : Reachable s := by
  induction h with
  | initial => exact .initial
  | caller _ ih => exact ih.step (.caller _)
  | builder _ hi ih => exact ih.step (.builder _ _ hi)

/-- The state after a step of the builder that stands between two lists of builders. -/
def State.advance (s : State) (front back : List Builder) : Builder → State
  | .clearing => { s with pending := false, builders := front ++ .building :: back }
  | .building => { s with builders := front ++ .releasing :: back }
  | .releasing => { s with busy := false, builders := front ++ .checking :: back }
  | .checking =>
    if s.pending then { s with builders := front ++ .claiming :: back }
    else { s with builders := front ++ back }
  | .claiming =>
    if s.busy then { s with builders := front ++ back }
    else { s with busy := true, builders := front ++ .clearing :: back }

theorem exists_advance (h : i < s.builders.length) :
    ∃ front b back, s.builders = front ++ b :: back ∧ s.builders[i]? = some b ∧
      s.builderStep i = s.advance front back b := by
  refine ⟨s.builders.take i, s.builders[i], s.builders.drop (i + 1), ?_, by simp, ?_⟩
  · simp
  · have hset (b : Builder) : s.builders.set i b =
        s.builders.take i ++ b :: s.builders.drop (i + 1) := by
      rw [List.set_eq_take_append_cons_drop, if_pos h]
    have herase : s.builders.eraseIdx i = s.builders.take i ++ s.builders.drop (i + 1) :=
      List.eraseIdx_eq_take_drop_succ s.builders i
    have hget : s.builders[i]? = some s.builders[i] := by simp
    unfold State.builderStep State.advance
    rw [hget]
    cases s.builders[i] <;> simp only [hset, herase]

structure Orderly (c : Tally) (s : State) : Prop where
  busy : s.builders.countP holds = s.busy.toNat
  bound : c.served ≤ c.begun
  /-- A call that has returned is built, or there is a note, or a builder is about to start. -/
  due : c.returned s.caller ≤ c.served ∨ s.pending = true ∨ .clearing ∈ s.builders
  alive : s.pending = true → s.builders ≠ [] ∨ c.unattended = true
  noted : c.unattended = true → s.pending = true

namespace Orderly

variable {c : Tally} {s : State}

theorem initial : Orderly .zero .initial where
  busy := rfl
  bound := Nat.le_refl _
  due := .inl (Nat.le_refl _)
  alive h := by cases h
  noted h := by cases h

theorem caller (h : Orderly c s) : Orderly (c.afterCaller s) s.callerStep := by
  obtain ⟨busy, pending, caller, builders⟩ := s
  cases caller with
  | idle => exact ⟨h.busy, Nat.le_succ_of_le h.bound, h.due, h.alive, h.noted⟩
  | asking =>
    cases busy with
    | true => exact ⟨h.busy, h.bound, h.due, h.alive, h.noted⟩
    | false =>
      have hnobody : builders.countP holds = 0 := h.busy
      refine ⟨?_, h.bound, .inr (.inr ?_), fun _ => .inl ?_, h.noted⟩
      · show (builders ++ [clearing]).countP holds = 1
        rw [List.countP_append, hnobody]
        rfl
      · show clearing ∈ builders ++ [.clearing]
        simp
      · show builders ++ [.clearing] ≠ []
        simp
  | noting =>
    refine ⟨h.busy, h.bound, .inr (.inl rfl), fun _ => ?_, fun _ => rfl⟩
    cases builders with
    | nil => exact .inr rfl
    | cons b rest => exact .inl (List.cons_ne_nil _ _)

theorem countP_between (front back : List Builder) (b : Builder) :
    (front ++ b :: back).countP holds =
      (front ++ back).countP holds + b.holds.toNat := by
  cases hb : b.holds <;> simp [List.countP_append, hb, Nat.add_assoc]

theorem builder (h : Orderly c s) (hi : i < s.builders.length) :
    Orderly (c.afterBuilder s i) (s.builderStep i) := by
  obtain ⟨front, b, back, hsplit, hget, hstep⟩ := exists_advance hi
  rw [hstep, Tally.afterBuilder, hget]
  obtain ⟨busy, pending, caller, builders⟩ := s
  subst hsplit
  obtain ⟨hbusy, hbound, hdue, halive, hnoted⟩ := h
  rw [countP_between] at hbusy
  have hne (b : Builder) : front ++ b :: back ≠ [] := by simp
  -- A builder that does not itself start leaves the others as they are.
  have hothers (b' : Builder) (hb : b ≠ .clearing) (h : .clearing ∈ front ++ b :: back) :
      .clearing ∈ front ++ back ∧ .clearing ∈ front ++ b' :: back := by
    have hmem : .clearing ∈ front ++ back := by simpa [Ne.symm hb] using h
    exact ⟨hmem, by simp [or_left_comm, List.mem_append.mp hmem]⟩
  cases b with
  | clearing =>
    refine ⟨?_, Nat.le_refl _, .inl (Tally.returned_le _ _), ?_, ?_⟩
    · exact (countP_between front back .building).trans hbusy
    · exact fun hpend => by cases hpend
    · exact fun hlost => by cases hlost
  | building =>
    refine ⟨?_, hbound, ?_, fun _ => .inl (hne _), hnoted⟩
    · exact (countP_between front back .releasing).trans hbusy
    · exact hdue.imp_right (.imp_right fun h => (hothers _ (by decide) h).2)
  | releasing =>
    refine ⟨?_, hbound, ?_, fun _ => .inl (hne _), hnoted⟩
    · have hle : busy.toNat ≤ 1 := Bool.toNat_le busy
      have hlast : (front ++ back).countP holds + 1 = busy.toNat := hbusy
      refine (countP_between front back .checking).trans ?_
      show (front ++ back).countP holds = 0
      omega
    · exact hdue.imp_right (.imp_right fun h => (hothers _ (by decide) h).2)
  | checking =>
    cases pending with
    | true =>
      refine ⟨?_, hbound, .inr (.inl rfl), fun _ => .inl (hne .claiming), hnoted⟩
      exact (countP_between front back .claiming).trans hbusy
    | false =>
      refine ⟨hbusy, hbound, ?_, ?_, hnoted⟩
      · exact hdue.imp_right (.imp_right fun h => (hothers .building (by decide) h).1)
      · exact fun hpend => by cases hpend
  | claiming =>
    cases busy with
    | true =>
      -- The flag belongs to another builder.
      have hother : (front ++ back).countP holds = 1 := hbusy
      have hsome : front ++ back ≠ [] := by
        intro hnil
        rw [hnil] at hother
        cases hother
      refine ⟨hother, hbound, ?_, fun _ => .inl hsome, hnoted⟩
      exact hdue.imp_right (.imp_right fun h => (hothers .building (by decide) h).1)
    | false =>
      refine ⟨?_, hbound, .inr (.inr ?_), fun _ => .inl (hne .clearing), hnoted⟩
      · refine (countP_between front back .clearing).trans ?_
        exact congrArg (· + 1) hbusy
      · exact List.mem_append_right front List.mem_cons_self

end Orderly

theorem Counted.orderly (h : Counted c s) : Orderly c s := by
  induction h with
  | initial => exact .initial
  | caller _ ih => exact ih.caller
  | builder _ hi ih => exact ih.builder hi

/-- Builds never overlap: one builder has the flag, or none. Once the caller and all builders
have ended, a note is left over exactly if it was left when no builder was alive; if there is
none, every call was followed by a build that started after the call had begun. -/
theorem builds_in_turn {s : State} (h : Reachable s) :
    s.builders.countP holds = s.busy.toNat ∧
    s.builders.countP (· == .building) ≤ 1 ∧
    (∃ c, Counted c s) ∧
    ∀ c, Counted c s → s.caller = .idle → s.builders = [] →
      (s.pending = true ↔ c.unattended = true) ∧ (s.pending = false → c.served = c.begun) := by
  obtain ⟨c, hc⟩ := exists_counted h
  have hbusy := hc.orderly.busy
  have hle : s.builders.countP (· == .building) ≤ s.builders.countP holds := by
    refine List.countP_mono_left fun b _ hb => ?_
    rw [eq_of_beq hb]
    rfl
  have hone : s.busy.toNat ≤ 1 := Bool.toNat_le s.busy
  refine ⟨hbusy, by omega, ⟨c, hc⟩, fun c hc hidle hnobody => ?_⟩
  obtain ⟨-, hbound, hdue, halive, hnoted⟩ := hc.orderly
  rw [hidle, hnobody] at hdue
  rw [hnobody] at halive
  refine ⟨⟨fun hpend => (halive hpend).resolve_left (by simp), hnoted⟩, fun hclear => ?_⟩
  have hserved : c.begun ≤ c.served := by simpa [hclear, Tally.returned] using hdue
  exact Nat.le_antisymm hbound hserved

inductive Move where
  | caller
  | builder (i : Nat)
  deriving DecidableEq, Repr

def play (c : Tally) (s : State) : List Move → Tally × State
  | [] => (c, s)
  | .caller :: moves => play (c.afterCaller s) s.callerStep moves
  | .builder i :: moves => play (c.afterBuilder s i) (s.builderStep i) moves

theorem Counted.play (h : Counted c s) (moves : List Move) :
    Counted (play c s moves).1 (play c s moves).2 := by
  induction moves generalizing c s with
  | nil => exact h
  | cons move moves ih =>
    cases move with
    | caller => exact ih h.caller
    | builder i =>
      by_cases hi : i < s.builders.length
      · exact ih (h.builder hi)
      · have hnone : s.builders[i]? = none := List.getElem?_eq_none (Nat.le_of_not_lt hi)
        have hstay : s.builderStep i = s := by simp [State.builderStep, hnone]
        have hkept : c.afterBuilder s i = c := by simp [Tally.afterBuilder, hnone]
        rw [Watch.play, hstay, hkept]
        exact ih h

/-- A change during a build, noted before the builder looks. -/
def attendedMoves : List Move :=
  [.caller, .caller, .builder 0, .caller, .caller, .builder 0, .caller, .builder 0, .builder 0,
    .builder 0, .builder 0, .builder 0, .builder 0, .builder 0]

/-- Two calls, and a build after the second. -/
theorem builds_in_turn_attended :
    Reachable ⟨false, false, .idle, []⟩ ∧
      ∃ c, Counted c ⟨false, false, .idle, []⟩ ∧ c.begun = 2 ∧ c.served = c.begun := by
  have hc : Counted ⟨2, 2, false⟩ ⟨false, false, .idle, []⟩ := Counted.initial.play attendedMoves
  obtain ⟨-, -, -, hend⟩ := builds_in_turn hc.reachable
  exact ⟨hc.reachable, _, hc, rfl, (hend _ hc rfl rfl).2 rfl⟩

/-- A change during a build, noted after the builder has looked. -/
def unattendedMoves : List Move :=
  [.caller, .caller, .builder 0, .caller, .caller, .builder 0, .builder 0, .builder 0, .caller]

/-- The second call has returned, no builder is alive, and no build has started since the call
began: the note is left behind. -/
theorem note_left_behind :
    Reachable ⟨false, true, .idle, []⟩ ∧ Counted ⟨2, 1, true⟩ ⟨false, true, .idle, []⟩ := by
  have hc : Counted ⟨2, 1, true⟩ ⟨false, true, .idle, []⟩ := Counted.initial.play unattendedMoves
  exact ⟨hc.reachable, hc⟩

end Ifj24.Watch
