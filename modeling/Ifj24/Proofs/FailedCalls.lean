import Ifj24.Proofs.Precedence

/-!
What failed calls leave behind. A call of a builder that fails may have moved operators to the
output before, and an end that meets an opening parenthesis has dropped it. So the number of
parentheses that are open goes down by one with each end that fails for one, until the expression
can be finished without them.
-/

open List

namespace Ifj24.Tree.Builder

inductive Call where
  | term (x : Expr)
  | operator (o : Operand)
  | finish

def call (b : Builder) : Call → Attempt
  | .term x => b.addTerm x
  | .operator o => b.addOperator o
  | .finish => b.finish

def after (b : Builder) (calls : List Call) : Builder :=
  calls.foldl (fun b c => (b.call c).builder) b

def depth (b : Builder) : Nat := b.operators.countP (·.op == .lparen)

def HasContent (b : Builder) : Prop := b.output ≠ [] ∨ b.depth < b.operators.length

/-- What a call leaves behind when it fails: a `)` has moved all operators to the output, and an
end those above the last parenthesis, which is gone. -/
def residue (b : Builder) : Call → Builder
  | .term _ => b
  | .operator o =>
    if b.finished = false ∧ o.op = .rparen then
      { b with output := b.output ++ b.operators.map .operand, operators := [] }
    else b
  | .finish =>
    let above := b.operators.takeWhile (·.op != .lparen)
    { b with
      output := b.output ++ above.map .operand
      operators := b.operators.drop (above.length + 1) }

/-- What a call adds to the parentheses that are open: one that is opened, less one that is closed
or that an end drops. -/
def change (b : Builder) (c : Call) : Int :=
  match c, (b.call c).failure with
  | .operator o, none => if o.op = .lparen then 1 else if o.op = .rparen then -1 else 0
  | .finish, some ⟨_, .unbalancedOpen⟩ => -1
  | _, _ => 0

def changes (b : Builder) : List Call → Int
  | [] => 0
  | c :: calls => b.change c + (b.call c).builder.changes calls

variable {b : Builder}

theorem drain_cases (ops : List Operand) (output : List Expr) :
    (ops.countP (·.op == .lparen) = 0 ∧ ops.takeWhile (·.op != .lparen) = ops ∧
      drain ops output = ([], output ++ ops.map .operand, none) ∧
      closeParen ops output = ([], output ++ ops.map .operand, false)) ∨
    ∃ above o below, ops = above ++ o :: below ∧ above.countP (·.op == .lparen) = 0 ∧
      o.op = .lparen ∧ ops.takeWhile (·.op != .lparen) = above ∧
      drain ops output = (below, output ++ above.map .operand, some o) ∧
      closeParen ops output = (below, output ++ above.map .operand, true) := by
  induction ops generalizing output with
  | nil => exact .inl (by simp [drain, closeParen])
  | cons top rest ih =>
    by_cases htop : top.op = .lparen
    · exact .inr ⟨[], top, rest, by simp [drain, closeParen, htop]⟩
    · rcases ih (output ++ [.operand top]) with h | ⟨above, o, below, rfl, h⟩
      · exact .inl (by simp [drain, closeParen, htop, h])
      · exact .inr ⟨top :: above, o, below, by simp [drain, closeParen, htop, h]⟩

theorem countP_yieldTo (n : Nat) (ops : List Operand) (output : List Expr) :
    (yieldTo n ops output).1.countP (·.op == .lparen) = ops.countP (·.op == .lparen) := by
  induction ops generalizing output with
  | nil => rfl
  | cons top rest ih =>
    rw [yieldTo]
    split
    · rfl
    · rename_i htop
      rw [ih, countP_cons_of_neg (by simpa using (not_or.mp htop).1)]

theorem finish_cases (h : b.finished = false) :
    (b.depth = 0 ∧ b.HasContent ∧ ∃ c, b.finish = ⟨c, none⟩ ∧ c.finished = true ∧ c.depth = 0) ∨
      (b.depth = 0 ∧ ¬ b.HasContent ∧ b.residue .finish = b ∧
        b.finish = ⟨b, some ⟨b.pos, .emptyExpression⟩⟩) ∨
      b.depth = (b.residue .finish).depth + 1 ∧
        ((b.residue .finish).HasContent ↔ b.HasContent) ∧
        ∃ pos, b.finish = ⟨b.residue .finish, some ⟨pos, .unbalancedOpen⟩⟩ := by
  obtain ⟨pos, output, operators, finished⟩ := b
  cases h
  unfold finish HasContent residue depth
  rcases drain_cases operators output with
    ⟨hcount, htake, hdrain, -⟩ | ⟨above, o, below, rfl, hcount, ho, htake, hdrain, -⟩
  · by_cases hempty : output = [] ∧ operators = []
    · obtain ⟨rfl, rfl⟩ := hempty
      exact .inr (.inl ⟨rfl, by simp, rfl, rfl⟩)
    · refine .inl ⟨hcount, ?_, ⟨pos, output ++ operators.map .operand, [], true⟩, ?_, rfl, rfl⟩
      · rw [hcount, length_pos_iff]
        exact Decidable.not_and_iff_or_not.mp hempty
      · simp [hdrain, hempty]
  · refine .inr (.inr ⟨?_, ?_, o.pos, ?_⟩)
    · simp [htake, hcount, ho]
    · simp [htake, hcount, ho]
      have hle := countP_le_length (p := fun o : Operand => o.op == .lparen) (l := below)
      cases output <;> cases above <;> simp
      omega
    · simp [htake, hdrain]

theorem after_replicate_finished (n : Nat) (h : b.finished = true) :
    b.after (replicate n .finish) = b := by
  induction n with
  | zero => rfl
  | succ n ih =>
    rw [replicate_succ, after, foldl_cons, call, finish, if_pos h]
    exact ih

theorem finish_after_replicate (n : Nat) (h : b.finished = false) :
    (b.after (replicate n .finish)).finish.failure = none ↔ b.depth ≤ n ∧ b.HasContent := by
  induction n generalizing b with
  | zero =>
    show b.finish.failure = none ↔ _
    rcases finish_cases h with ⟨hdepth, hcontent, c, hrun, -⟩ | ⟨hdepth, hcontent, -, hrun⟩ |
      ⟨hdepth, -, pos, hrun⟩ <;> simp [*]
  | succ n ih =>
    show ((b.finish).builder.after (replicate n .finish)).finish.failure = none ↔ _
    rcases finish_cases h with ⟨hdepth, hcontent, c, hrun, hc, -⟩ | ⟨hdepth, hcontent, -, hrun⟩ |
      ⟨hdepth, hcontent, pos, hrun⟩
    · rw [hrun, after_replicate_finished n hc, finish, if_pos hc]
      simp [hdepth, hcontent]
    · rw [hrun, ih h]
      simp [hcontent]
    · rw [hrun, ih (show (b.residue .finish).finished = false from h), hcontent, hdepth,
        Nat.succ_le_succ_iff]

theorem call_step (b : Builder) (c : Call) :
    (∀ d, (b.call c).failure = some d → (b.call c).builder = b.residue c) ∧
      ((b.call c).builder.depth : Int) = b.depth + b.change c := by
  unfold change call
  cases c with
  | term x => cases h : b.finished <;> cases x <;> simp [addTerm, residue, depth, h]
  | operator o =>
    dsimp only [addOperator]
    cases h : b.finished with
    | true => simp [residue, h]
    | false =>
      by_cases hopen : o.op = .lparen
      · simp [depth, hopen]
      by_cases hclose : o.op = .rparen
      · rcases drain_cases b.operators b.output with
          ⟨hcount, -, -, hrun⟩ | ⟨above, p, below, hops, hcount, hp, -, -, hrun⟩
        · simp [hrun, residue, depth, h, hclose, hcount]
        · have hsum : b.depth = countP (·.op == .lparen) below + 1 := by
            simp [depth, hops, hcount, hp]
          simp [hrun, hclose]
          change (countP (·.op == .lparen) below : Int) = _
          omega
      by_cases harith : o.op.isArith = true
      · simp [depth, countP_yieldTo, hopen, hclose, harith]
      · simp [residue, hopen, hclose, harith]
  | finish =>
    cases h : b.finished with
    | true => simp [finish, h]
    | false =>
      rcases finish_cases h with ⟨hdepth, -, c, hrun, -, hc⟩ | ⟨-, -, hres, hrun⟩ |
        ⟨hdepth, -, pos, hrun⟩
      · simp [hrun, hdepth, hc]
      · simp [hrun, hres]
      · simp [hrun]
        omega

theorem depth_after (b : Builder) (calls : List Call) :
    ((b.after calls).depth : Int) = b.depth + b.changes calls := by
  induction calls generalizing b with
  | nil => exact (Int.add_zero _).symm
  | cons c calls ih =>
    have hrest := ih (b.call c).builder
    rw [(call_step b c).2, Int.add_assoc] at hrest
    exact hrest

/-- Failed calls leave traces in an expression. Whatever calls there have been, one that fails
leaves what `residue` says: a `)` that closes nothing and an end that meets a parenthesis may change
the expression, no other call does. The parentheses that are open are those that were opened less
those that were closed and those that were dropped by ends. An end succeeds if none is open and
there is anything else; so ends in turn fail once for each parenthesis, and then succeed. -/
theorem failed_calls_leave_residue (pos : Pos) (calls : List Call) :
    let b := (start pos).after calls
    (∀ c d, (b.call c).failure = some d → (b.call c).builder = b.residue c) ∧
      b.depth = (start pos).changes calls ∧
      (b.finished = false → ∀ n, (b.after (replicate n .finish)).finish.failure = none ↔
        b.depth ≤ n ∧ b.HasContent) := by
  intro b
  have hdepth := depth_after (start pos) calls
  refine ⟨fun c => (call_step b c).1, ?_, fun h n => finish_after_replicate n h⟩
  rw [hdepth]
  exact Int.zero_add _

/-- Behind two parentheses the third end succeeds. -/
theorem failed_calls_leave_residue_nested :
    let opening := Call.operator (.untyped .none .lparen)
    let b := (start .none).after [opening, opening, .term (.value (.ofNull .none))]
    (b.finish.failure = some ⟨.none, .unbalancedOpen⟩ ∧ b.finish.builder = b.residue .finish) ∧
      b.finished = false ∧ (b.after (replicate 2 .finish)).finish.failure = none := by
  intro opening b
  obtain ⟨hfails, -, hends⟩ := failed_calls_leave_residue .none
    [opening, opening, .term (.value (.ofNull .none))]
  exact ⟨⟨rfl, hfails .finish _ rfl⟩, rfl, (hends rfl 2).mpr ⟨by decide, .inl nofun⟩⟩

/-- An end drops the parenthesis for which it fails, and the next end succeeds. -/
theorem finish_succeeds_after_failure :
    let b := (start .none).after
      [.operator (.untyped .none .lparen), .term (.value (.ofNull .none))]
    b.operators ≠ [] ∧ b.finish.failure = some ⟨.none, .unbalancedOpen⟩ ∧
      b.finish.builder.operators = [] ∧ b.finish.builder.finish.failure = none ∧
      b.finish.builder.finish.builder.items = [.value (.ofNull .none)] :=
  ⟨nofun, rfl, rfl, rfl, rfl⟩

end Ifj24.Tree.Builder
