import Ifj24.Proofs.Precedence

/-!
What the precedence automaton accepts. The stack always spells the tokens shifted
so far if every nonterminal on it is read as the tokens it was reduced from, and
this does not depend on the order of operators; so what is accepted is a sentence
or a comparison of two. Together with the reading of trees this fixes the outcome
on every token sequence.
-/

open List

namespace Ifj24.Tree

open ArithTree

variable {table : Table} {a op : Token}

inductive Comparison : List Token → Prop where
  | intro {left right : List Token} {op : Token} :
      Sentence left → op.kind.isRelational = true → Sentence right →
      Comparison (left ++ op :: right)

def Covers : TermClass → Token → Prop
  | .addSub, a | .mulDiv, a => a.kind.isArith = true
  | .lparen, a => a.kind = .lparen
  | .rparen, a => a.kind = .rparen
  | .operand, a => a.kind.isOperand = true
  | .rel, a => a.kind.isRelational = true
  | .stop, _ => False

inductive Spells : List StackItem → List Token → Prop where
  | bottom : Spells [.bottom] []
  | terminal {stack : List StackItem} {ts : List Token} {c : TermClass} {a : Token} :
      Spells stack ts → Covers c a → Spells (.terminal c a :: stack) (ts ++ [a])
  | marker {stack : List StackItem} {ts : List Token} :
      Spells stack ts → Spells (.marker :: stack) ts
  | expr {stack : List StackItem} {ts us : List Token} :
      Spells stack ts → Sentence us → Spells (.expr :: stack) (ts ++ us)
  | relation {stack : List StackItem} {ts us : List Token} :
      Spells stack ts → Comparison us → Spells (.relation :: stack) (ts ++ us)

variable {ts pending : List Token} {truth : Bool} {last : Token}

namespace Spells

open StackItem

variable {next : List StackItem} {c : TermClass}

variable {below stack : List StackItem}

theorem insert_marker (h : Spells (above ++ below) ts) (hb : below ≠ []) :
    Spells (above ++ .marker :: below) ts := by
  induction above generalizing ts with
  | nil => exact .marker h
  | cons it rest ih =>
    rw [cons_append] at h ⊢
    generalize hstack : rest ++ below = stack at h
    cases h with
    | bottom => simp_all
    | terminal h hc => exact .terminal (ih (hstack ▸ h)) hc
    | marker h => exact .marker (ih (hstack ▸ h))
    | expr h hs => exact .expr (ih (hstack ▸ h)) hs
    | relation h hs => exact .relation (ih (hstack ▸ h)) hs

theorem dropWhile_ne_nil (h : Spells stack ts) : stack.dropWhile (!·.isTerminal) ≠ [] := by
  induction h with
  | bottom => simp [isTerminal]
  | terminal h hc ih => simp [isTerminal]
  | marker h ih => simpa [isTerminal, dropWhile_cons] using ih
  | expr h hs ih => simpa [isTerminal, dropWhile_cons] using ih
  | relation h hs ih => simpa [isTerminal, dropWhile_cons] using ih

theorem mark (h : Spells stack ts) : Spells (mark stack) ts := by
  apply insert_marker
  · rw [takeWhile_append_dropWhile]
    exact h
  · exact h.dropWhile_ne_nil

theorem splitHandle?_eq (h : splitHandle? stack above = some (handle, below)) :
    ∃ front, stack = front ++ .marker :: below ∧ handle = front.reverse ++ above := by
  induction stack generalizing above with
  | nil => simp [splitHandle?] at h
  | cons it rest ih =>
    have pass (hrest : splitHandle? rest (it :: above) = some (handle, below)) :
        ∃ front, it :: rest = front ++ .marker :: below ∧ handle = front.reverse ++ above := by
      obtain ⟨front, rfl, rfl⟩ := ih hrest
      exact ⟨it :: front, rfl, by simp⟩
    cases it with
    | marker =>
      obtain ⟨rfl, rfl⟩ := h
      exact ⟨[], rfl, rfl⟩
    | _ =>
      simp only [splitHandle?] at h
      split at h
      · cases h
      · exact pass h

theorem eq_terminal_of_isClass {it : StackItem} (h : it.isClass c = true)
    (hc : c ≠ .stop) : ∃ a, it = .terminal c a := by
  cases it with
  | bottom => exact absurd (by simpa [isClass] using h) (Ne.symm hc)
  | terminal c' a =>
    obtain rfl : c' = c := by simpa [isClass] using h
    exact ⟨a, rfl⟩
  | marker => simp [isClass] at h
  | expr => simp [isClass] at h
  | relation => simp [isClass] at h

theorem binary_handle {a : Token}
    (h : Spells (.expr :: .terminal c a :: .expr :: .marker :: below) ts) :
    ∃ us left right, Spells below us ∧ Sentence left ∧ Covers c a ∧ Sentence right ∧
      ts = us ++ (left ++ a :: right) := by
  cases h with
  | expr h hr =>
    cases h with
    | terminal h hc =>
      cases h with
      | expr h hl =>
        cases h with
        | marker h => exact ⟨_, _, _, h, hl, hc, hr, by simp⟩

theorem paren_handle {c : Token}
    (h : Spells (.terminal .rparen c :: .expr :: .terminal .lparen o :: .marker :: below) ts) :
    ∃ us inner, Spells below us ∧ o.kind = .lparen ∧ Sentence inner ∧ c.kind = .rparen ∧
      ts = us ++ (o :: inner ++ [c]) := by
  cases h with
  | terminal h hc =>
    cases h with
    | expr h hs =>
      cases h with
      | terminal h ho =>
        cases h with
        | marker h => exact ⟨_, _, h, ho, hs, hc, by simp⟩

theorem reduce (h : Spells stack ts)
    (hreduce : reduce? truth stack = some next) : Spells next ts := by
  simp only [reduce?, Option.bind_eq_bind, Option.pure_def, Option.bind_eq_some_iff,
    Option.some.injEq] at hreduce
  obtain ⟨⟨handle, below⟩, hsplit, nonterminal, hmatch, rfl⟩ := hreduce
  obtain ⟨front, rfl, hhandle⟩ := splitHandle?_eq hsplit
  rw [append_nil] at hhandle
  obtain rfl : front = handle.reverse := by rw [hhandle, reverse_reverse]
  rcases handle with _ | ⟨x, _ | ⟨y, _ | ⟨z, _ | ⟨w, more⟩⟩⟩⟩
  · simp [match?] at hmatch
  · simp only [match?] at hmatch
    split at hmatch
    · rename_i hx
      obtain ⟨a, rfl⟩ := eq_terminal_of_isClass hx (by simp)
      cases hmatch
      cases h with
      | terminal h hc =>
        cases h with
        | marker h => exact .expr h (.operand hc)
    · cases hmatch
  · simp [match?] at hmatch
  · simp only [reverse_cons, reverse_nil, nil_append, cons_append] at h
    simp only [match?] at hmatch
    split at hmatch
    · rename_i hcond
      simp only [Bool.and_eq_true, decide_eq_true_eq, Bool.or_eq_true] at hcond
      obtain ⟨⟨rfl, rfl⟩, hy⟩ := hcond
      cases hmatch
      obtain ⟨c, a, rfl, hc⟩ : ∃ c a, y = .terminal c a ∧ (Covers c a → a.kind.isArith = true) := by
        rcases hy with hy | hy
        · obtain ⟨a, rfl⟩ := eq_terminal_of_isClass hy (by simp)
          exact ⟨_, a, rfl, id⟩
        · obtain ⟨a, rfl⟩ := eq_terminal_of_isClass hy (by simp)
          exact ⟨_, a, rfl, id⟩
      obtain ⟨us, left, right, hbelow, hl, hop, hr, rfl⟩ := binary_handle h
      exact .expr hbelow (.binary hl (hc hop) hr)
    · split at hmatch
      · rename_i hcond
        simp only [Bool.and_eq_true, decide_eq_true_eq] at hcond
        obtain ⟨⟨hx, rfl⟩, hz⟩ := hcond
        obtain ⟨o, rfl⟩ := eq_terminal_of_isClass hx (by simp)
        obtain ⟨c, rfl⟩ := eq_terminal_of_isClass hz (by simp)
        cases hmatch
        obtain ⟨us, inner, hbelow, ho, hs, hc, rfl⟩ := paren_handle h
        exact .expr hbelow (.paren ho hs hc)
      · split at hmatch
        · rename_i hcond
          simp only [Bool.and_eq_true, decide_eq_true_eq] at hcond
          obtain ⟨⟨⟨-, rfl⟩, rfl⟩, hy⟩ := hcond
          obtain ⟨a, rfl⟩ := eq_terminal_of_isClass hy (by simp)
          cases hmatch
          obtain ⟨us, left, right, hbelow, hl, hop, hr, rfl⟩ := binary_handle h
          exact .relation hbelow (.intro hl hop hr)
        · cases hmatch
  · simp [match?] at hmatch

end Spells

namespace Analyzer

open PrecedenceAction StackItem

variable {input rest : List Token} {depth : Nat} {names table : Table}
  {c top : TermClass}

theorem covers_of_classify {a : Token}
    (h : classify truth depth a = .ok (c, depth')) (hc : c ≠ .stop) : Covers c a := by
  unfold classify at h
  split at h
  case h_1 hk | h_2 hk | h_3 hk | h_4 hk =>
    cases h
    simp [Covers, hk, TokenKind.isArith]
  case h_5 hk =>
    cases h
    exact hk
  case h_6 hk =>
    split at h <;> cases h
    · split at hc
      · exact absurd rfl hc
      · rename_i hdepth
        rw [if_neg hdepth]
        exact hk
    · exact hk
  case h_7 hk | h_8 hk | h_9 hk | h_10 hk | h_11 hk =>
    cases h
    simp [Covers, hk, TokenKind.isOperand]
  case h_12 hk =>
    split at h <;> cases h
    exact absurd rfl hc
  case h_13 =>
    split at h
    · rename_i hrel
      split at h <;> cases h
      exact hrel
    · cases h

/-- What holds of the automaton between two steps, if it reads `input` with the
names of `names`. -/
structure Reading (truth : Bool) (names : Table) (input : List Token) (a : Analyzer) : Prop where
  mode : a.truth = truth
  spells : ∃ ts, Spells a.stack ts ∧ input = ts ++ a.pending ∧ a.shifted = ts.length ∧
    ∀ x ∈ ts, x.kind = .name → names.Sees x.literal
  scopes : names.SameScopes a.table
  looked : ∃ token rest depth, a.pending = token :: rest ∧
    classify a.truth depth token = .ok (a.cls, a.depth)

inductive Shifts (a : Analyzer) (stack : List StackItem) : Outcome → Prop
  | exhausted : Shifts a stack (.failed ⟨a.last.pos, .inExpression a.last⟩ { a with stack })
  | refused {rest : List Token} (hp : a.pending = token :: rest)
      (hfeed : feed { a with stack } = .error d) : Shifts a stack (.failed d { a with stack })
  | lost {rest : List Token} {fed moved : Analyzer} (hlook : moved.look = .error d)
      (hp : a.pending = token :: rest) (hfeed : feed { a with stack } = .ok fed)
      (hmoved : moved = { fed with
        stack := .terminal a.cls token :: stack
        shifted := a.shifted + 1
        pending := rest }) : Shifts a stack (.failed d moved)
  | shifted {rest : List Token} {fed b : Analyzer} (hp : a.pending = token :: rest)
      (hfeed : feed { a with stack } = .ok fed)
      (hlook : look { fed with
        stack := .terminal a.cls token :: stack
        shifted := a.shifted + 1
        pending := rest } = .ok b) : Shifts a stack (.next b)

/-- What a step leads to: it reduces, accepts, shifts the input or fails. -/
inductive Steps (a : Analyzer) : Outcome → Prop
  | blocked (hactive : active? a.stack = none) :
    Steps a (.failed (.nowhere .stackWithoutTerminal) a)
  | shift {stack : List StackItem} (hstack : stack = mark a.stack ∨ stack = a.stack)
      (hc : a.cls ≠ .stop) (hshift : Shifts a stack outcome) {top : TermClass}
      (hactive : active? a.stack = some top)
      (hselect : select top a.cls = .shift ∧ stack = mark a.stack ∨
        select top a.cls = .equal ∧ stack = a.stack) : Steps a outcome
  | reduce {next : List StackItem} (hreduce : reduce? a.truth a.stack = some next)
      {top : TermClass} (hactive : active? a.stack = some top)
      (hselect : select top a.cls = .reduce) :
    Steps a (.next { a with stack := next })
  | malformed : Steps a (.failed ⟨a.input.pos, .malformedBefore a.input⟩ a)
  | accept (haccept : a.accept = none) (hc : a.cls = .stop) : Steps a (.accepted a)
  | reject (haccept : a.accept = some d) : Steps a (.failed d a)
  | disordered {top : TermClass} : Steps a (.failed ⟨a.input.pos, .operatorOrder a.input top⟩ a)

variable {a b : Analyzer}

theorem shifts_shift (a : Analyzer) (stack : List StackItem) :
    Shifts a stack (shift { a with stack }) := by
  unfold shift
  split
  · exact .exhausted
  · rename_i hp
    split
    · rename_i hfeed
      exact .refused hp hfeed
    · rename_i hfeed
      dsimp only
      split
      · rename_i hlook
        exact .lost hlook hp hfeed rfl
      · rename_i hlook
        exact .shifted hp hfeed hlook

theorem select_stop (top c : TermClass) :
    select top .stop ≠ .shift ∧ select top .stop ≠ .equal ∧ (select top c = .stop → c = .stop) := by
  cases top <;> cases c <;> simp [select]

theorem steps_of_step (h : a.step = outcome) : Steps a outcome := by
  subst h
  unfold step
  split
  · rename_i hactive
    exact .blocked hactive
  · rename_i top hactive
    obtain ⟨hshift, hequal, hstop⟩ := select_stop top a.cls
    split
    · rename_i hselect
      exact .shift (.inl rfl) (fun hc => hshift (hc ▸ hselect)) (shifts_shift a _) hactive
        (.inl ⟨hselect, rfl⟩)
    · rename_i hselect
      exact .shift (.inr rfl) (fun hc => hequal (hc ▸ hselect)) (shifts_shift a _) hactive
        (.inr ⟨hselect, rfl⟩)
    · rename_i hselect
      split
      · rename_i hreduce
        exact .reduce hreduce hactive hselect
      · exact .malformed
    · rename_i hselect
      split
      · rename_i haccept
        exact .accept haccept (hstop hselect)
      · rename_i haccept
        exact .reject haccept
    · exact .disordered

theorem look_ok (h : a.look = .ok b) :
    ∃ token rest c depth, a.pending = token :: rest ∧
      classify a.truth a.depth token = .ok (c, depth) ∧ b = { a with cls := c, depth } := by
  unfold look at h
  split at h
  · cases h
  · rename_i token rest hp
    cases hc : classify a.truth a.depth token with
    | error d => simp [hc, Except.map] at h
    | ok pair =>
      simp only [hc, Except.map, Except.ok.injEq] at h
      exact ⟨token, rest, pair.1, pair.2, hp, hc, h.symm⟩

theorem leaf_ok {a : Token} (h : leaf t a = .ok (x, u)) :
    t.SameScopes u ∧ (a.kind = .name → t.Sees a.literal) := by
  have hoperand : a.kind.isOperand = true := by
    cases hk : a.kind <;> simp [leaf, hk, TokenKind.isOperand] at h ⊢
  rw [leaf_operand hoperand] at h
  cases huse : use a t with
  | error d v => simp [huse] at h
  | ok _ v =>
    simp only [huse, Except.ok.injEq, Prod.mk.injEq] at h
    obtain ⟨-, rfl⟩ := h
    refine ⟨use_sameScopes huse, ?_⟩
    have hall : ∃ v, useAll [a] t = .ok () v := ⟨v, by simp [useAll_cons, huse, useAll_nil]⟩
    exact (useAll_ok_iff [a] t).mp hall a (by simp)

theorem feed_ok (hp : a.pending = token :: rest) (h : a.feed = .ok fed) :
    fed.truth = a.truth ∧ fed.depth = a.depth ∧ a.table.SameScopes fed.table ∧
      (a.cls = .operand → token.kind = .name → a.table.Sees token.literal) := by
  have hinput : a.input = token := by simp [input, hp]
  have same : a.table.SameScopes a.table := fun _ => rfl
  unfold feed at h
  rw [hinput] at h
  simp only [bind, Except.bind, pure, Except.pure] at h
  split at h
  · split at h
    · cases h
    · rename_i pair hleaf
      obtain ⟨hscope, hsees⟩ := leaf_ok hleaf
      split at h
      · cases h
      · cases h
        exact ⟨rfl, rfl, hscope, fun _ => hsees⟩
  · rename_i hc
    split at h
    · cases h
    · split at h
      · cases h
      · cases h
        exact ⟨rfl, rfl, same, by simp [hc]⟩
  · rename_i hoperand hrel
    split at h
    · cases h
    · cases h
      exact ⟨rfl, rfl, same, fun hc => absurd hc hoperand⟩

/-- A step keeps what the stack spells in agreement with the input. -/
theorem Reading.next (h : Reading truth names input a)
    (hstep : a.step = .next b) : Reading truth names input b := by
  obtain ⟨ts, hspell, hinput, hshifted, hseen⟩ := h.spells
  cases steps_of_step hstep with
  | reduce hreduce =>
    exact ⟨h.mode, ⟨ts, hspell.reduce hreduce, hinput, hshifted, hseen⟩, h.scopes, h.looked⟩
  | @shift _ stack hstack hc hshift =>
    obtain _ | _ | _ | ⟨hp, hfeed, hlook⟩ := hshift
    obtain ⟨token', rest', c, depth, hp', hclass, rfl⟩ := look_ok hlook
    obtain ⟨htruth, -, hscope, hname⟩ := feed_ok (a := { a with stack }) hp hfeed
    obtain ⟨first, more, depth₀, hfirst, hlooked⟩ := h.looked
    obtain ⟨rfl, rfl⟩ : first = _ ∧ more = _ := by simpa [hfirst] using hp
    have hstack' : Spells stack ts := by
      rcases hstack with rfl | rfl
      · exact hspell.mark
      · exact hspell
    refine ⟨htruth.trans h.mode,
      ⟨ts ++ [first], .terminal hstack' (covers_of_classify hlooked hc), ?_, ?_, ?_⟩, ?_,
      ⟨token', rest', _, hp', hclass⟩⟩
    · rw [hinput, hfirst]
      simp
    · simp [hshifted]
    · intro x hx hk
      rw [mem_append, mem_singleton] at hx
      rcases hx with hx | rfl
      · exact hseen x hx hk
      · -- A name is classified as an operand, so it was looked up when it was fed.
        have hoperand : a.cls = .operand := by
          have := classify_operand (a := x) (by simp [hk, TokenKind.isOperand]) a.truth depth₀
          rw [hlooked] at this
          simp only [Except.ok.injEq, Prod.mk.injEq] at this
          exact this.1
        have hsees := hname hoperand hk
        rw [Table.Sees] at hsees ⊢
        rw [h.scopes]
        exact hsees
    · intro name
      exact (h.scopes name).trans (hscope name)

theorem Reading.accepted (h : Reading truth names input a) (hrun : a.run = (.ok (), b)) :
    Reading truth names input b ∧ b.accept = none ∧ b.cls = .stop := by
  fun_induction run a with
  | case1 a final hstep =>
    cases hrun
    cases steps_of_step hstep with
    | accept haccept hc => exact ⟨h, haccept, hc⟩
    | shift _ _ hshift => cases hshift
  | case2 a d final hstep => simp at hrun
  | case3 a next hstep ih => exact ih (h.next hstep) hrun

theorem kind_of_classify_stop {a : Token} (h : classify truth depth a = .ok (.stop, depth')) :
    a.kind = if truth then .rparen else .semi := by
  unfold classify at h
  cases truth <;> cases hk : a.kind <;> simp [hk, TokenKind.isRelational] at h ⊢

theorem stack_of_accept (h : a.accept = none) :
    a.stack = [if a.truth then .relation else .expr, .bottom] := by
  unfold accept at h
  dsimp only at h
  split at h
  · rename_i top hstack
    have htop : top = if a.truth then .relation else .expr := by
      by_cases heq : top = if a.truth then .relation else .expr
      · exact heq
      · simp [heq] at h
    rw [hstack, htop]
  · cases h
  · cases h

theorem Reading.start (h : (start truth pending last table).look = .ok ready) :
    Reading truth table pending ready := by
  obtain ⟨token, rest, c, depth, hp, hclass, rfl⟩ := look_ok h
  exact ⟨rfl, ⟨[], .bottom, rfl, rfl, by simp⟩, fun _ => rfl, ⟨token, rest, _, hp, hclass⟩⟩

/-- An accepted run has shifted tokens that its final nonterminal derives. -/
theorem runFromStart_sound (h : (start truth pending last table).runFromStart = (.ok (), b)) :
    ∃ ts, (if truth then Comparison ts else Sentence ts) ∧ pending = ts ++ b.pending ∧
      b.shifted = ts.length ∧ (∀ x ∈ ts, x.kind = .name → table.Sees x.literal) ∧
      ∃ token rest depth, b.pending = token :: rest ∧
        classify truth depth token = .ok (.stop, b.depth) := by
  unfold runFromStart at h
  split at h
  · cases h
  · rename_i ready hlook
    obtain ⟨hreading, haccept, hc⟩ := (Reading.start hlook).accepted h
    obtain ⟨ts, hspell, hinput, hshifted, hseen⟩ := hreading.spells
    obtain ⟨token, rest, depth, hp, hclass⟩ := hreading.looked
    rw [hreading.mode, hc] at hclass
    refine ⟨ts, ?_, hinput, hshifted, hseen, token, rest, depth, hp, hclass⟩
    have hstack := stack_of_accept haccept
    rw [hreading.mode] at hstack
    rw [hstack] at hspell
    cases truth with
    | false =>
      cases hspell with
      | expr h hs =>
        cases h
        simpa using hs
    | true =>
      cases hspell with
      | relation h hs =>
        cases h
        simpa using hs

theorem kind_of_accept (h : a.accept = some d) : d.kind = .grammar := by
  have hcases : ∀ pos found, Diagnostic.kind
      ⟨pos, if a.truth then .notComparison else .malformedBefore found⟩ = .grammar := by
    intro pos found
    cases a.truth <;> rfl
  unfold accept at h
  dsimp only at h
  split at h
  · rename_i top hstack
    by_cases htop : top = if a.truth then .relation else .expr
    · rw [if_pos htop] at h
      cases h
    · rw [if_neg htop] at h
      rw [← Option.some.inj h]
      exact hcases _ _
  · cases h
    rfl
  · rw [← Option.some.inj h]
    exact hcases _ _

end Analyzer

open Analyzer

theorem analyzeExpression_sound (h : (analyzeExpression pending last t).result = .ok e) :
    ∃ tree : ArithTree, ∃ semi rest, tree.Grouped ∧ semi.kind = .semi ∧
      pending = tree.tokens ++ semi :: rest ∧
      ∀ x ∈ tree.tokens, x.kind = .name → t.Sees x.literal := by
  unfold analyzeExpression at h
  cases hrun : (start false pending last t).runFromStart with
  | mk outcome a =>
    rw [hrun] at h
    cases outcome with
    | error d => simp [bind, Except.bind] at h
    | ok _ =>
      obtain ⟨ts, hs, hinput, -, hseen, token, rest, depth, hp, hclass⟩ :=
        runFromStart_sound hrun
      obtain ⟨tree, hg, rfl⟩ := exists_grouped (by simpa using hs)
      refine ⟨tree, token, rest, hg, ?_, ?_, hseen⟩
      · exact kind_of_classify_stop hclass
      · rw [hinput, hp]

/-- What comes of a grouped tree before a semicolon. -/
theorem analyzeExpression_tree (tree : ArithTree) (hg : tree.Grouped)
    (hsemi : semi.kind = .semi) (rest : List Token) (last : Token) (t : Table) :
    match useAll tree.tokens t with
    | .ok _ u => ∃ a : Analyzer,
      analyzeExpression (tree.tokens ++ semi :: rest) last t =
        ⟨.ok ⟨tree.first.pos, tree.postOrder t.visible, true, .any, false⟩, a⟩ ∧
      a.table = u ∧ a.pending = semi :: rest ∧ a.shifted = tree.tokens.length
    | .error d u => ∃ a : Analyzer,
      analyzeExpression (tree.tokens ++ semi :: rest) last t = ⟨.error d, a⟩ ∧ a.table = u := by
  have hread := runFromStart_tree tree hg false 0 0 0 [.bottom]
    (.start tree.first.pos) none t semi rest last .stop .stop .stop ⟨_, _, rfl, rfl⟩
    (by simp [PrecedenceAction.Opens]) tree.strength_pos rfl trivial (by simp)
    (by simp [classify, hsemi]) (by simp [PrecedenceAction.Follows, PrecedenceAction.hold])
  have hstart : start false (tree.tokens ++ semi :: rest) last t =
      .mk false 0 [.bottom] (.start tree.first.pos) none t 0 (tree.tokens ++ semi :: rest) last
        .stop := by
    simp only [start, headD_tokens]
    rfl
  unfold analyzeExpression
  rw [hstart]
  cases huse : useAll tree.tokens t with
  | error d u =>
    rw [huse] at hread
    obtain ⟨b, hrun, htable⟩ := hread
    rw [hrun]
    exact ⟨b, rfl, htable⟩
  | ok _ u =>
    rw [huse] at hread
    let final := Analyzer.mk false 0 [.expr, .bottom]
      ((Builder.start tree.first.pos).afterTree t.visible tree) none u (0 + tree.tokens.length)
      (semi :: rest) last .stop
    have hacc : final.step = .accepted final := rfl
    have hfinish : final.builder.finish.toExcept =
        .ok ⟨tree.first.pos, tree.postOrder t.visible, [], true⟩ :=
      Builder.finish_afterTree _ _ hg
    rw [hread, run_of_accepted hacc]
    refine ⟨final, ?_, rfl, rfl, Nat.zero_add _⟩
    simp [bind, Except.bind, hfinish, pure, Except.pure, Builder.expression, Builder.items]

theorem analyzeCondition_sound {c : Truth} (h : (analyzeCondition pending last t).result = .ok c) :
    ∃ l r : ArithTree, ∃ op close rest, l.Grouped ∧ r.Grouped ∧ op.kind.isRelational = true ∧
      close.kind = .rparen ∧ pending = l.tokens ++ op :: (r.tokens ++ close :: rest) ∧
      ∀ x ∈ l.tokens ++ op :: r.tokens, x.kind = .name → t.Sees x.literal := by
  unfold analyzeCondition at h
  cases hrun : (start true pending last t).runFromStart with
  | mk outcome a =>
    rw [hrun] at h
    cases outcome with
    | error d => simp [bind, Except.bind] at h
    | ok _ =>
      obtain ⟨ts, hs, hinput, -, hseen, token, rest, depth, hp, hclass⟩ :=
        runFromStart_sound hrun
      obtain ⟨hl, hop, hr⟩ : Comparison ts := by simpa using hs
      obtain ⟨l, hlg, rfl⟩ := exists_grouped hl
      obtain ⟨r, hrg, rfl⟩ := exists_grouped hr
      refine ⟨l, r, _, token, rest, hlg, hrg, hop, kind_of_classify_stop hclass, ?_, hseen⟩
      rw [hinput, hp]
      simp

theorem Analyzer.classify_rel (h : a.kind.isRelational = true) (depth : Nat) :
    classify true depth a = .ok (.rel, depth) := by
  unfold classify
  cases hk : a.kind <;> simp [hk, TokenKind.isRelational] at h ⊢

theorem Analyzer.run_shift_relation {depth shifted : Nat} {builder builder' : Builder}
      {rest : List Token} (hb : builder.finish.toExcept = .ok builder') :
    (mk true depth [.expr, .bottom] builder none table shifted (op :: rest) last .rel).run =
      (mk true depth [.terminal .rel op, .expr, .marker, .bottom] (.start (rest.headD last).pos)
        (some (builder'.expression, op)) table (shifted + 1) rest last .rel).runFromStart := by
  have hstep : (mk true depth [.expr, .bottom] builder none table shifted (op :: rest) last
      .rel).step = (mk true depth [.expr, .marker, .bottom] builder none table shifted
        (op :: rest) last .rel).shift := rfl
  rw [run_of_shift hstep rfl]
  simp [feed, input, bind, Except.bind, hb, pure, Except.pure]

theorem analyzeCondition_trees (l r : ArithTree) (hl : l.Grouped) (hr : r.Grouped)
     (hop : op.kind.isRelational = true) (hclose : close.kind = .rparen)
    (rest : List Token) (last : Token) (t : Table) :
    match useAll (l.tokens ++ op :: r.tokens) t with
    | .ok _ u => ∃ a : Analyzer,
      analyzeCondition (l.tokens ++ op :: (r.tokens ++ close :: rest)) last t =
        ⟨.ok ⟨op.pos, ⟨l.first.pos, l.postOrder t.visible, true, .any, false⟩, op.kind,
          ⟨r.first.pos, r.postOrder t.visible, true, .any, false⟩, .any⟩, a⟩ ∧
      a.table = u ∧ a.pending = close :: rest ∧
      a.shifted = (l.tokens ++ op :: r.tokens).length
    | .error d u => ∃ a : Analyzer,
      analyzeCondition (l.tokens ++ op :: (r.tokens ++ close :: rest)) last t = ⟨.error d, a⟩ ∧
        a.table = u := by
  have hnotName : op.kind ≠ .name := by
    intro h
    simp [h, TokenKind.isRelational] at hop
  have hstart : start true (l.tokens ++ op :: (r.tokens ++ close :: rest)) last t =
      .mk true 1 [.bottom] (.start l.first.pos) none t 0
        (l.tokens ++ op :: (r.tokens ++ close :: rest)) last .stop := by
    simp only [start, headD_tokens]
    rfl
  have hleft := runFromStart_tree l hl true 1 1 0 [.bottom] (.start l.first.pos) none t
    op (r.tokens ++ close :: rest) last .stop .rel .stop ⟨_, _, rfl, rfl⟩
    (by simp [PrecedenceAction.Opens]) l.strength_pos rfl trivial (by simp)
    (classify_rel hop 1) (by simp [PrecedenceAction.Follows, PrecedenceAction.hold])
  unfold analyzeCondition
  rw [hstart, useAll_append]
  cases huse : useAll l.tokens t with
  | error d u =>
    rw [huse] at hleft
    obtain ⟨b, hrun, htable⟩ := hleft
    rw [hrun]
    exact ⟨b, rfl, htable⟩
  | ok _ u =>
    rw [huse] at hleft
    dsimp only at hleft ⊢
    rw [useAll_cons, use_of_not_name hnotName, hleft,
      run_shift_relation (Builder.finish_afterTree _ _ hl), headD_tokens]
    dsimp only
    have hright := runFromStart_tree r hr true 1 0 (0 + l.tokens.length + 1)
      [.terminal .rel op, .expr, .marker, .bottom] (.start r.first.pos)
      (some (Builder.expression ⟨l.first.pos, l.postOrder t.visible, [], true⟩, op)) u close rest
      last .rel .stop .rel ⟨_, _, rfl, rfl⟩ (by simp [PrecedenceAction.Opens]) r.strength_pos rfl
      trivial (by simp) (by simp [classify, hclose])
      (by simp [PrecedenceAction.Follows, PrecedenceAction.hold])
    cases huse' : useAll r.tokens u with
    | error d v =>
      rw [huse'] at hright
      obtain ⟨b, hrun, htable⟩ := hright
      rw [hrun]
      exact ⟨b, rfl, htable⟩
    | ok _ v =>
      rw [huse'] at hright
      let final := Analyzer.mk true 0 [.relation, .bottom]
        ((Builder.start r.first.pos).afterTree u.visible r)
        (some (Builder.expression ⟨l.first.pos, l.postOrder t.visible, [], true⟩, op)) v
        (0 + l.tokens.length + 1 + r.tokens.length) (close :: rest) last .stop
      have hacc : final.step = .accepted final := rfl
      have hfinish : final.builder.finish.toExcept =
          .ok ⟨r.first.pos, r.postOrder t.visible, [], true⟩ := by
        rw [(useAll_sameScopes huse).visible_eq]
        exact Builder.finish_afterTree _ _ hr
      rw [hright, run_reduce .rel rfl rfl rfl, run_of_accepted hacc]
      refine ⟨final, ?_, rfl, rfl, ?_⟩
      · simp [bind, Except.bind, final, hfinish, pure, Except.pure, Builder.expression,
          Builder.items]
      · simp [final]
        omega

theorem Sentence.forall_kind {P : TokenKind → Prop} (h : Sentence ts)
    (hP : ∀ k, k.isOperand = true ∨ k.isArith = true ∨ k = .lparen ∨ k = .rparen → P k) :
    ∀ x ∈ ts, P x.kind := by
  induction h with
  | operand ha => exact forall_mem_singleton.mpr (hP _ (.inl ha))
  | binary _ hop _ ihl ihr =>
    exact forall_mem_append.mpr ⟨ihl, forall_mem_cons.mpr ⟨hP _ (.inr (.inl hop)), ihr⟩⟩
  | paren ho _ hc ih =>
    refine forall_mem_append.mpr ⟨forall_mem_cons.mpr ⟨hP _ (.inr (.inr (.inl ho))), ih⟩, ?_⟩
    exact forall_mem_singleton.mpr (hP _ (.inr (.inr (.inr hc))))

end Ifj24.Tree

namespace Ifj24.TokenBuffer

variable {b : TokenBuffer}

def between (b : TokenBuffer) (start stop : Nat) : List Token :=
  (List.range' start (stop - start)).map fun i : Nat => b.get i

theorem get_of_le (h : b.front.length ≤ i) : b.get i = b.last := by
  simp only [get, items, Int.toNat_natCast, getD_eq_getElem?_getD]
  rcases Nat.eq_or_lt_of_le h with rfl | hlt
  · simp
  · rw [getElem?_eq_none (by simp; omega)]
    rfl

theorem readFrom_ofNat (b : TokenBuffer) (start : Nat) : b.readFrom start = b.items.drop start := by
  simp [readFrom]

theorem drop_eq_between {start stop : Nat} (hle : start ≤ stop) (hstop : stop ≤ b.front.length) :
    b.items.drop start = b.between start stop ++ b.get stop :: b.items.drop (stop + 1) := by
  have hlen : b.items.length = b.front.length + 1 := by simp [items]
  have hget (i : Nat) (hi : i < b.items.length) : b.get i = b.items[i] := by
    simp [get, hi]
  induction hn : stop - start generalizing start with
  | zero =>
    obtain rfl : start = stop := by omega
    rw [drop_eq_getElem_cons (by omega), hget start (by omega)]
    simp [between]
  | succ n ih =>
    have hnext := ih (show start + 1 ≤ stop by omega) (by omega)
    rw [drop_eq_getElem_cons (by omega), hnext, ← hget start (by omega)]
    have hcons : b.between start stop = b.get start :: b.between (start + 1) stop := by
      simp only [between, hn, show stop - (start + 1) = n by omega, range'_succ, map_cons]
    rw [hcons, cons_append]

end Ifj24.TokenBuffer

namespace Ifj24.Tree

open TokenBuffer

variable {start stop : Nat}

variable {b : TokenBuffer}

/-- A sentence before a semicolon lies inside the buffer, since the last token is
met again and again behind it. -/
theorem stop_le_of_sentence (hle : start ≤ stop)
    (hs : Sentence (b.between start stop)) (hsemi : (b.get stop).kind = .semi) :
    stop ≤ b.front.length := by
  by_cases h : stop ≤ b.front.length
  · exact h
  · have hne : start ≠ stop := by
      rintro rfl
      obtain ⟨tree, -, htoks⟩ := ArithTree.exists_grouped hs
      exact tree.tokens_ne_nil (by simpa [between] using htoks)
    have hmem : b.last ∈ b.between start stop := by
      rw [between, mem_map]
      refine ⟨max start b.front.length, ?_, get_of_le (by omega)⟩
      rw [mem_range'_1]
      omega
    rw [get_of_le (by omega)] at hsemi
    refine absurd hsemi (hs.forall_kind (P := (· ≠ .semi)) ?_ b.last hmem)
    rintro _ hk rfl
    simp [TokenKind.isOperand, TokenKind.isArith] at hk

theorem analyzeExpressionAt_tree (he : (analyzeExpressionAt b start t).result = .ok e)
    (hstop : (analyzeExpressionAt b start t).stop start = stop) :
    ∃ tree : ArithTree, start ≤ stop ∧ tree.Grouped ∧ tree.tokens = b.between start stop ∧
      (b.get stop).kind = .semi ∧
      (∀ x ∈ b.between start stop, x.kind = .name → t.Sees x.literal) ∧
      e.items = tree.postOrder t.visible := by
  simp only [analyzeExpressionAt, readFrom_ofNat, Analysis.stop] at he hstop
  obtain ⟨tree, semi, rest, hg, hsemi, hpend, hseen⟩ := analyzeExpression_sound he
  obtain ⟨u, huse⟩ := (useAll_ok_iff tree.tokens t).mpr hseen
  have hread := analyzeExpression_tree tree hg hsemi rest b.last t
  rw [huse] at hread
  obtain ⟨a, heq, -, -, hshifted⟩ := hread
  rw [hpend, heq] at he hstop
  dsimp only at hstop
  have hlen : b.items.length = b.front.length + 1 := by simp [items]
  have hbound : start + tree.tokens.length + 1 ≤ b.items.length := by
    have := congrArg List.length hpend
    simp only [length_drop, length_append, length_cons] at this
    omega
  have hdrop : b.items.drop start = _ := drop_eq_between (show start ≤ stop by omega) (by omega)
  have hsplit := append_inj (hpend.symm.trans hdrop)
    (by simp only [between, length_map, length_range']; omega)
  obtain ⟨htoks, htail⟩ := hsplit
  have hget : semi = b.get stop := (List.cons.inj htail).1
  refine ⟨tree, by omega, hg, htoks, hget ▸ hsemi, htoks ▸ hseen, ?_⟩
  cases he
  rfl

theorem analyzeExpressionAt_of_sentence (hle : start ≤ stop)
    (hs : Sentence (b.between start stop)) (hsemi : (b.get stop).kind = .semi)
    (hseen : ∀ x ∈ b.between start stop, x.kind = .name → t.Sees x.literal) :
    (∃ e, (analyzeExpressionAt b start t).result = .ok e) ∧
      (analyzeExpressionAt b start t).stop start = stop := by
  obtain ⟨tree, hg, htoks⟩ := ArithTree.exists_grouped hs
  rw [← htoks] at hseen
  obtain ⟨u, huse⟩ := (useAll_ok_iff tree.tokens t).mpr hseen
  have hread := analyzeExpression_tree tree hg hsemi (b.items.drop (stop + 1)) b.last t
  rw [huse] at hread
  obtain ⟨a, heq, -, -, hshifted⟩ := hread
  have hdrop := drop_eq_between hle (stop_le_of_sentence hle hs hsemi)
  rw [← htoks] at hdrop
  have hlen : tree.tokens.length = stop - start := by simp [htoks, between]
  simp only [analyzeExpressionAt, readFrom_ofNat, Analysis.stop, hdrop, heq]
  exact ⟨⟨_, rfl⟩, by omega⟩

/-- The reader of expressions succeeds up to an index exactly if a sentence, all of
whose names are visible, stands before a semicolon there; and it builds the
post-order of the one grouped tree of that sentence. -/
theorem analyzeExpressionAt_ok_iff (b : TokenBuffer) (start stop : Nat) (t : Table) :
    (((∃ e, (analyzeExpressionAt b start t).result = .ok e) ∧
        (analyzeExpressionAt b start t).stop start = stop) ↔
      start ≤ stop ∧ Sentence (b.between start stop) ∧ (b.get stop).kind = .semi ∧
        ∀ x ∈ b.between start stop, x.kind = .name → t.Sees x.literal) ∧
    ∀ e, (analyzeExpressionAt b start t).result = .ok e →
      (analyzeExpressionAt b start t).stop start = stop →
      ∃ tree : ArithTree, (tree.Grouped ∧ tree.tokens = b.between start stop) ∧
        (∀ other : ArithTree, other.Grouped ∧ other.tokens = b.between start stop →
          other = tree) ∧
        e.items = tree.postOrder t.visible := by
  constructor
  · constructor
    · rintro ⟨⟨e, he⟩, hstop⟩
      obtain ⟨tree, hle, hg, htoks, hsemi, hseen, -⟩ := analyzeExpressionAt_tree he hstop
      exact ⟨hle, htoks ▸ tree.sentence_tokens, hsemi, hseen⟩
    · rintro ⟨hle, hs, hsemi, hseen⟩
      exact analyzeExpressionAt_of_sentence hle hs hsemi hseen
  · intro e he hstop
    obtain ⟨tree, -, hg, htoks, -, -, hitems⟩ := analyzeExpressionAt_tree he hstop
    refine ⟨tree, ⟨hg, htoks⟩, ?_, hitems⟩
    rintro other ⟨hother, heq⟩
    exact ArithTree.grouped_unique hother hg (heq.trans htoks.symm)

def sumOfProduct : TokenBuffer :=
  ⟨[⟨.int, "1", .none⟩, ⟨.add, [], .none⟩, ⟨.int, "2", .none⟩, ⟨.mul, [], .none⟩,
    ⟨.int, "3", .none⟩, ⟨.semi, [], .none⟩], ⟨.eof, [], .none⟩⟩

theorem analyzeExpressionAt_sumOfProduct :
    (∃ e, (analyzeExpressionAt sumOfProduct (0 : Nat) (.fresh .fnv1a true)).result = .ok e) ∧
    (analyzeExpressionAt sumOfProduct (0 : Nat) (.fresh .fnv1a true)).stop (0 : Nat) = (5 : Nat) ∧
    ∀ e, (analyzeExpressionAt sumOfProduct (0 : Nat) (.fresh .fnv1a true)).result = .ok e →
      e.items =
        [.value (.ofLiteral .none .i32 "1"), .value (.ofLiteral .none .i32 "2"),
          .value (.ofLiteral .none .i32 "3"), .operand (.untyped .none .mul),
          .operand (.untyped .none .add)] := by
  have hmain := analyzeExpressionAt_ok_iff sumOfProduct 0 5 (.fresh .fnv1a true)
  let tree : ArithTree := .binary (.operand ⟨.int, "1", .none⟩ rfl) ⟨.add, [], .none⟩ rfl
    (.binary (.operand ⟨.int, "2", .none⟩ rfl) ⟨.mul, [], .none⟩ rfl
      (.operand ⟨.int, "3", .none⟩ rfl))
  have htoks : tree.tokens = sumOfProduct.between 0 5 := rfl
  have hgrouped : tree.Grouped := by
    simp [tree, ArithTree.Grouped, ArithTree.strength, TokenKind.precedence]
  obtain ⟨hok, hstop⟩ := hmain.1.mpr
    ⟨by decide, htoks ▸ tree.sentence_tokens, rfl, by
      rw [← htoks]
      simp [tree, ArithTree.tokens]⟩
  refine ⟨hok, hstop, ?_⟩
  intro e he
  obtain ⟨other, -, hunique, hitems⟩ := hmain.2 e he hstop
  rw [hitems, ← hunique tree ⟨hgrouped, htoks⟩]
  rfl

end Ifj24.Tree
