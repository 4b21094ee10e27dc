import Ifj24.Proofs.Parsing

/-!
Which token sequences are read as comparisons. The automaton counts parentheses, so it
ends at the one that closes the comparison and never looks behind it; a comparison has its
operator outside of all parentheses and only once, so it can be taken apart in one way. What
is not of this form is refused by the grammar, unless a name that means nothing comes first.
-/

open List

namespace Ifj24.Tree

open TokenKind

variable {a c last op op' : Token}

def opens (ts : List Token) : Nat := ts.countP (·.kind == .lparen)

def closes (ts : List Token) : Nat := ts.countP (·.kind == .rparen)

@[simp] theorem opens_nil : opens [] = 0 := rfl

@[simp] theorem closes_nil : closes [] = 0 := rfl

@[simp] theorem opens_append (ts us : List Token) : opens (ts ++ us) = opens ts + opens us :=
  countP_append

@[simp] theorem closes_append (ts us : List Token) : closes (ts ++ us) = closes ts + closes us :=
  countP_append

theorem opens_cons (a : Token) (ts : List Token) : opens (a :: ts) = opens [a] + opens ts :=
  opens_append [a] ts

theorem closes_cons (a : Token) (ts : List Token) : closes (a :: ts) = closes [a] + closes ts :=
  closes_append [a] ts

theorem opens_singleton (a : Token) : opens [a] = if a.kind = .lparen then 1 else 0 := by
  simp [opens, countP_singleton]

theorem closes_singleton (a : Token) : closes [a] = if a.kind = .rparen then 1 else 0 := by
  simp [closes, countP_singleton]

def Unbroken (ts : List Token) : Prop := ∀ front, front <+: ts → closes front ≤ opens front

structure Matched (ts : List Token) : Prop where
  unbroken : Unbroken ts
  all : closes ts = opens ts

variable {ts : List Token}

theorem Unbroken.snoc (h : Unbroken ts) (ha : closes (ts ++ [a]) ≤ opens (ts ++ [a])) :
    Unbroken (ts ++ [a]) := by
  intro front hfront
  rcases prefix_concat_iff.mp hfront with rfl | hfront
  · exact ha
  · exact h front hfront

theorem Matched.append (h : Matched ts) (hu : Matched us) :
    Matched (ts ++ us) where
  unbroken := by
    intro front hfront
    rcases prefix_or_prefix_of_prefix hfront (prefix_append ts us) with hfront' | hback
    · exact h.unbroken front hfront'
    · obtain ⟨more, rfl⟩ := hback
      have hmore := hu.unbroken more ((prefix_append_right_inj ts).mp hfront)
      simp only [closes_append, opens_append, h.all]
      omega
  all := by simp [h.all, hu.all]

theorem Matched.singleton (ho : a.kind ≠ .lparen) (hc : a.kind ≠ .rparen) :
    Matched [a] where
  unbroken := by
    intro front hfront
    have hsub := hfront.sublist.countP_le (p := (·.kind == .rparen))
    have hzero : closes [a] = 0 := by simp [closes_singleton, hc]
    exact Nat.le_trans (Nat.le_trans hsub (Nat.le_of_eq hzero)) (Nat.zero_le _)
  all := by simp [opens_singleton, closes_singleton, ho, hc]

theorem Matched.enclose {inner : List Token} (ho : o.kind = .lparen)
    (h : Matched inner) (hc : c.kind = .rparen) : Matched (o :: inner ++ [c]) := by
  have hopen : opens [o] = 1 ∧ closes [o] = 0 := by simp [opens_singleton, closes_singleton, ho]
  have hclose : opens [c] = 0 ∧ closes [c] = 1 := by simp [opens_singleton, closes_singleton, hc]
  have hall : closes (o :: inner ++ [c]) = opens (o :: inner ++ [c]) := by
    rw [opens_append, closes_append, opens_cons o, closes_cons o, h.all]
    omega
  have hinner : Unbroken (o :: inner) := by
    intro front hfront
    rcases prefix_cons_iff.mp hfront with rfl | ⟨more, rfl, hmore⟩
    · simp
    · have := h.unbroken more hmore
      rw [opens_cons, closes_cons]
      omega
  exact ⟨hinner.snoc (Nat.le_of_eq hall), hall⟩

theorem Sentence.matched (h : Sentence ts) : Matched ts := by
  induction h with
  | operand ha =>
    refine .singleton ?_ ?_ <;>
    · intro hk
      simp [hk, isOperand] at ha
  | @binary left right op _ hop _ ihl ihr =>
    have hsingle : Matched [op] := by
      refine .singleton ?_ ?_ <;>
      · intro hk
        simp [hk, isArith] at hop
    exact ihl.append (hsingle.append ihr)
  | paren ho _ hc ih => exact ih.enclose ho hc

theorem Sentence.not_relational (h : Sentence ts) : ∀ x ∈ ts, x.kind.isRelational = false := by
  refine h.forall_kind (P := fun k => k.isRelational = false) fun k hk => ?_
  cases k <;> simp [isOperand, isArith, isRelational] at hk ⊢

theorem relational_split_unique
    (hl : ∀ x ∈ l, x.kind.isRelational = false) (hop : op.kind.isRelational = true)
    (hr : ∀ x ∈ r, x.kind.isRelational = false) (hop' : op'.kind.isRelational = true)
    (h : l ++ op :: r = l' ++ op' :: r') : l = l' ∧ op = op' ∧ r = r' := by
  rcases append_eq_append_iff.mp h with ⟨more, rfl, hmore⟩ | ⟨more, rfl, hmore⟩
  · cases more with
    | nil => simpa using hmore
    | cons a more =>
      rw [cons_append, List.cons.injEq] at hmore
      have := hr op' (by rw [hmore.2]; simp)
      rw [hop'] at this
      cases this
  · cases more with
    | nil =>
      obtain ⟨rfl, rfl⟩ : op' = op ∧ r' = r := by simpa using hmore
      simp
    | cons a more =>
      rw [cons_append, List.cons.injEq] at hmore
      have := hl op' (by simp [hmore.1])
      rw [hop'] at this
      cases this

theorem Comparison.matched (h : Comparison ts) : Matched ts := by
  cases h with
  | @intro left right op hl hop hr =>
    have hsingle : Matched [op] := by
      refine .singleton ?_ ?_ <;>
      · intro hk
        simp [hk, isRelational] at hop
    exact hl.matched.append (hsingle.append hr.matched)

/-- Sequences that compare in a place or a number in which no comparison does. -/
inductive Miscompared : List Token → Prop where
  /-- Inside of parentheses. -/
  | nested {op : Token} (hop : op.kind.isRelational = true)
      (h : closes l < opens l) : Miscompared (l ++ op :: r)
  /-- Twice. -/
  | chained {op op' : Token} (hop : op.kind.isRelational = true)
      (hop' : op'.kind.isRelational = true) : Miscompared (l ++ op :: (m ++ op' :: r))
  /-- Nowhere: a bare expression, or nothing at all. -/
  | bare {ts : List Token} (h : ∀ x ∈ ts, x.kind.isRelational = false) : Miscompared ts
  /-- Nothing with the rest. -/
  | noLeft {op : Token} (hop : op.kind.isRelational = true) : Miscompared (op :: r)
  /-- The rest with nothing. -/
  | noRight {op : Token} (hop : op.kind.isRelational = true) : Miscompared (l ++ [op])

theorem Sentence.ne_nil (h : Sentence ts) : ts ≠ [] := by
  cases h <;> simp

theorem Miscompared.not_comparison (h : Miscompared ts) : ¬ Comparison ts := by
  intro hc
  generalize hts : ts = us at hc
  cases hc with
  | @intro left right rel hl hrel hr =>
    -- The operator of the comparison is the only one, so a second split is the same.
    have hunique {l r : List Token} {op : Token} (hop : op.kind.isRelational = true)
        (heq : l ++ op :: r = left ++ rel :: right) : left = l ∧ rel = op ∧ right = r :=
      relational_split_unique hl.not_relational hrel hr.not_relational hop heq.symm
    cases h with
    | nested hop hopen =>
      obtain ⟨rfl, -, -⟩ := hunique hop hts
      exact absurd hl.matched.all (Nat.ne_of_lt hopen)
    | chained hop hop' =>
      obtain ⟨-, -, rfl⟩ := hunique hop hts
      have := hr.not_relational _ (mem_append_right _ (mem_cons_self ..))
      rw [hop'] at this
      cases this
    | bare hnone =>
      have := hnone rel (by rw [hts]; simp)
      rw [hrel] at this
      cases this
    | noLeft hop =>
      obtain ⟨rfl, -, -⟩ := hunique (l := []) hop hts
      exact hl.ne_nil rfl
    | noRight hop =>
      obtain ⟨-, -, rfl⟩ := hunique hop hts
      exact hr.ne_nil rfl

namespace Analyzer

open PrecedenceAction StackItem

/-- The depth follows the parentheses; where it does not end the comparison, it stays
above zero. -/
theorem classify_depth {depth depth' : Nat} {a : Token} {c : TermClass} (hpos : 0 < depth)
    (h : classify true depth a = .ok (c, depth')) :
    depth' + closes [a] = depth + opens [a] ∧ (c ≠ .stop → 0 < depth') := by
  rw [opens_singleton, closes_singleton]
  unfold classify at h
  cases hk : a.kind <;> simp [hk, isRelational] at h ⊢
  case rparen =>
    obtain ⟨hc, rfl⟩ := h
    refine ⟨by omega, ?_⟩
    intro hne
    by_cases hlast : depth - 1 = 0
    · rw [if_pos hlast] at hc
      exact absurd hc.symm hne
    · omega
  all_goals
    obtain ⟨-, rfl⟩ := h
    omega

/-- The automaton between two steps of a comparison. The parenthesis before the comparison
is still open behind the tokens shifted. -/
structure Counting (names : Table) (input : List Token) (a : Analyzer) : Prop
    extends Building true names input a where
  counts : ∃ ts, input = ts ++ a.pending ∧ Unbroken ts ∧
    a.depth + closes (ts ++ [a.input]) = 1 + opens (ts ++ [a.input])
  inside : a.cls ≠ .stop → 0 < a.depth

namespace Counting

variable {names : Table} {input : List Token} {a b : Analyzer}

theorem next (h : Counting names input a) (hstep : a.step = .next b) :
    Counting names input b := by
  obtain ⟨ts, hinput, hunbroken, hdepth⟩ := h.counts
  have hbuilding := h.toBuilding.next hstep
  cases steps_of_step hstep with
  | reduce hreduce => exact ⟨hbuilding, h.counts, h.inside⟩
  | @shift _ stack hstack hc hshift =>
    obtain _ | _ | _ | @⟨token, rest, fed, _, hp, hfeed, hlook⟩ := hshift
    obtain ⟨token', rest', c, depth, hp', hclass, rfl⟩ := look_ok hlook
    have hpos := h.inside hc
    have htoken : a.input = token := by simp [Analyzer.input, hp]
    have htoken' : Analyzer.input { fed with
        stack := .terminal a.cls token :: stack
        shifted := a.shifted + 1
        pending := rest
        cls := c
        depth } = token' := by
      simp [Analyzer.input, show rest = token' :: rest' from hp']
    rw [htoken] at hdepth
    obtain ⟨htruth, hfed, -⟩ := feed_ok (a := { a with stack }) hp hfeed
    simp only [hfed, htruth, h.mode] at hclass
    obtain ⟨hcounts, hins⟩ := classify_depth hpos hclass
    refine ⟨hbuilding, ⟨ts ++ [token], ?_, hunbroken.snoc (by omega), ?_⟩, hins⟩
    · rw [hinput, hp]
      simp
    · rw [htoken', closes_append (ts ++ [token]), opens_append (ts ++ [token])]
      dsimp only
      omega

theorem start {pending : List Token} {last : Token} {table : Table} {ready : Analyzer}
    (h : (start true pending last table).look = .ok ready) : Counting table pending ready := by
  have hreading := Reading.start h
  obtain ⟨token, rest, c, depth, hp, hclass, rfl⟩ := look_ok h
  obtain ⟨hcounts, hins⟩ := classify_depth Nat.one_pos hclass
  have hp' : pending = token :: rest := hp
  refine ⟨⟨hreading, rfl⟩, ⟨[], rfl, ?_, ?_⟩, hins⟩
  · intro front hfront
    rw [prefix_nil.mp hfront]
    simp
  · simp only [Analyzer.input, Analyzer.start, hp', headD_cons, nil_append]
    exact hcounts

end Counting

end Analyzer

/-! ### Why a comparison is refused -/

namespace Builder

variable {b : Builder} {d : Diagnostic}

theorem kind_of_addTerm (h : (b.addTerm x).toExcept = .error d) :
    d.kind = .internal := by
  unfold addTerm at h
  split at h
  · cases h
    rfl
  · split at h <;> cases h
    rfl

theorem kind_of_addOperator {o : Operand} (h : (b.addOperator o).toExcept = .error d) :
    d.kind = .grammar ∨ d.kind = .internal := by
  unfold addOperator at h
  split at h
  · cases h
    exact .inr rfl
  split at h
  · cases h
  split at h
  · dsimp only [Attempt.toExcept] at h
    split at h
    · rename_i hfail
      split at hfail <;> cases hfail
      cases h
      exact .inl rfl
    · cases h
  split at h <;> cases h
  exact .inr rfl

theorem kind_of_finish (h : b.finish.toExcept = .error d) : d.kind = .grammar := by
  unfold finish at h
  split at h
  · cases h
  dsimp only at h
  split at h
  · cases h
    rfl
  · split at h <;> cases h
    rfl

end Builder

namespace Analyzer

variable {b : Analyzer}

variable {d : Diagnostic} {a : Analyzer}

theorem leaf_error {t : Table} {a : Token} (h : leaf t a = .error d) :
    d.kind = .internal ∨
      a.kind = .name ∧ ¬ t.Sees a.literal ∧ d = ⟨a.pos, .undefined a.literal⟩ := by
  unfold leaf at h
  split at h
  · rename_i hk
    cases hr : t.resolve? a.literal with
    | some pair => simp [Table.find?, hr] at h
    | none =>
      rw [Table.find?, hr] at h
      cases h
      exact .inr ⟨hk, by simp [Table.Sees, hr], rfl⟩
  case h_6 =>
    cases h
    exact .inl rfl
  all_goals cases h

theorem feed_error (h : a.feed = .error d) (hd : d.Ordinary) :
    d.kind = .grammar ∨ leaf a.table a.input = .error d := by
  unfold feed at h
  simp only [bind, Except.bind, pure, Except.pure] at h
  split at h
  · split at h
    · rename_i hleaf
      cases h
      exact .inr hleaf
    · split at h
      · rename_i hterm
        cases h
        exact absurd (Builder.kind_of_addTerm hterm) hd.ne
      · cases h
  · split at h
    · cases h
      exact .inl rfl
    · split at h
      · rename_i hfinish
        cases h
        exact .inl (Builder.kind_of_finish hfinish)
      · cases h
  · split at h
    · rename_i hoperator
      cases h
      exact .inl ((Builder.kind_of_addOperator hoperator).resolve_right hd.ne)
    · cases h

/-- A step fails for the grammar, or for what the input means. -/
theorem step_error (h : a.step = .failed d b) (hd : d.Ordinary) :
    d.kind = .grammar ∨ leaf a.table a.input = .error d := by
  cases steps_of_step h with
  | blocked => exact absurd rfl hd.ne
  | @shift _ stack _ _ hshift =>
    cases hshift with
    | exhausted => exact .inl rfl
    | refused _ hfeed => exact feed_error (a := { a with stack }) hfeed hd
    | lost hlook => exact .inl (kind_of_look hlook)
  | malformed => exact .inl rfl
  | reject haccept => exact .inl (kind_of_accept haccept)
  | disordered => exact .inl rfl

/-- The first name of `input` that means nothing is what a failure names, and the
parenthesis before the comparison is not closed before it. -/
def Names (names : Table) (input : List Token) (d : Diagnostic) : Prop :=
  ∃ ts x rest, input = ts ++ x :: rest ∧ Unbroken ts ∧ x.kind = .name ∧ ¬ names.Sees x.literal ∧
    d = ⟨x.pos, .undefined x.literal⟩

theorem Counting.run_error {names : Table} {input : List Token}
    (h : Counting names input a) (hrun : a.run = (.error d, b)) :
    d.kind = .grammar ∨ Names names input d := by
  fun_induction run a with
  | case1 a final hstep => simp at hrun
  | case2 a d' final hstep =>
    obtain ⟨rfl, rfl⟩ : d' = d ∧ final = b := by simpa using hrun
    have hd := h.ordinary_of_step hstep
    refine (step_error hstep hd).imp_right ?_
    intro hleaf
    obtain ⟨hk, hsees, hd'⟩ := (leaf_error hleaf).resolve_left hd.ne
    obtain ⟨ts, hinput, hunbroken, -⟩ := h.counts
    obtain ⟨token, rest, -, hp, -⟩ := h.looked
    have htoken : a.input = token := by simp [Analyzer.input, hp]
    rw [htoken] at hk hsees hd'
    refine ⟨ts, token, rest, hp ▸ hinput, hunbroken, hk, ?_, hd'⟩
    rw [Table.Sees, h.scopes]
    exact hsees
  | case3 a next hstep ih => exact ih (h.next hstep) hrun

end Analyzer

theorem analyzeCondition_error {t : Table} {d : Diagnostic}
    (h : (analyzeCondition pending last t).result = .error d) :
    d.kind = .grammar ∨ Analyzer.Names t pending d := by
  unfold analyzeCondition at h
  cases hrun : (Analyzer.start true pending last t).runFromStart with
  | mk outcome a =>
    rw [hrun] at h
    cases outcome with
    | error d' =>
      obtain rfl : d' = d := by simpa [bind, Except.bind] using h
      unfold Analyzer.runFromStart at hrun
      split at hrun
      · rename_i hlook
        cases hrun
        exact .inl (Analyzer.kind_of_look hlook)
      · rename_i hlook
        exact (Analyzer.Counting.start hlook).run_error hrun
    | ok _ =>
      simp only [bind, Except.bind, pure, Except.pure] at h
      split at h
      · split at h
        · rename_i hfinish
          cases h
          exact .inl (Builder.kind_of_finish hfinish)
        · cases h
      · cases h
        exact .inl rfl

end Ifj24.Tree

namespace Ifj24.TokenBuffer

open Ifj24.Tree

variable {rest ts : List Token} {i stop' : Nat}

/-- Whether the parenthesis opened right before `start` is closed at `stop`. -/
structure ClosesAt (b : TokenBuffer) (start stop : Nat) : Prop where
  le : start ≤ stop
  matched : Matched (b.between start stop)
  closing : (b.get stop).kind = .rparen

def AllSeen (b : TokenBuffer) (t : Table) (start stop : Nat) : Prop :=
  ∀ x ∈ b.between start stop, x.kind = .name → t.Sees x.literal

theorem length_between (b : TokenBuffer) (start stop : Nat) :
    (b.between start stop).length = stop - start := by
  simp [between]

variable {b : TokenBuffer} {start stop : Nat}

theorem le_of_rparen (hlast : b.last.kind = .eof) (h : (b.get i).kind = .rparen) :
    i ≤ b.front.length := by
  by_cases hle : i ≤ b.front.length
  · exact hle
  · rw [get_of_le (by omega), hlast] at h
    cases h

theorem between_of_drop
    (h : b.items.drop start = ts ++ x :: rest) (hstop : stop = start + ts.length) :
    b.between start stop = ts ∧ b.get stop = x := by
  have hlen : b.items.length = b.front.length + 1 := by simp [items]
  have hbound := congrArg List.length h
  simp only [length_drop, length_append, length_cons] at hbound
  have hdrop := drop_eq_between (b := b) (show start ≤ stop by omega) (by omega)
  obtain ⟨htoks, htail⟩ := append_inj (hdrop.symm.trans h)
    (by rw [length_between]; omega)
  exact ⟨htoks, (List.cons.inj htail).1⟩

theorem get_mem_between (hstart : start ≤ i) (hstop : i < stop) :
    b.get i ∈ b.between start stop := by
  rw [between, mem_map]
  refine ⟨i, ?_, rfl⟩
  rw [mem_range'_1]
  omega

theorem ClosesAt.le_of_unbroken (hlast : b.last.kind = .eof) (h : b.ClosesAt start stop)
     (hdrop : b.items.drop start = ts ++ rest) (hts : Unbroken ts) :
    start + ts.length ≤ stop := by
  by_cases hle : start + ts.length ≤ stop
  · exact hle
  · have hstart := h.le
    have hsplit := (drop_eq_between hstart (le_of_rparen hlast h.closing)).symm.trans hdrop
    have hfront : b.between start stop ++ [b.get stop] <+: ts := by
      have hmore : b.between start stop ++ [b.get stop] <+: ts ++ rest := by
        rw [← hsplit]
        exact ⟨b.items.drop (stop + 1), by simp⟩
      refine prefix_of_prefix_length_le hmore (prefix_append _ _) ?_
      rw [length_append, length_between, length_singleton]
      omega
    have hcloses := hts _ hfront
    have hone : opens [b.get stop] = 0 ∧ closes [b.get stop] = 1 := by
      simp [opens_singleton, closes_singleton, h.closing]
    rw [closes_append, opens_append, h.matched.all] at hcloses
    omega

theorem ClosesAt.unique (hlast : b.last.kind = .eof) (h : b.ClosesAt start stop)
    (h' : b.ClosesAt start stop') : stop = stop' := by
  have hle {i j : Nat} (hi : b.ClosesAt start i) (hj : b.ClosesAt start j) : i ≤ j := by
    have hdrop := drop_eq_between hi.le (le_of_rparen hlast hi.closing)
    have := hj.le_of_unbroken hlast hdrop hi.matched.unbroken
    have := hi.le
    rw [length_between] at *
    omega
  exact Nat.le_antisymm (hle h h') (hle h' h)

end Ifj24.TokenBuffer

namespace Ifj24.Tree

open TokenBuffer

variable {start stop : Nat} {t : Table}

variable {b : TokenBuffer}

theorem analyzeConditionAt_trees {c : Truth} (hc : (analyzeConditionAt b start t).result = .ok c)
    (hstop : (analyzeConditionAt b start t).stop start = stop) :
    ∃ l r : ArithTree, ∃ op : Token, l.Grouped ∧ r.Grouped ∧ op.kind.isRelational = true ∧
      b.between start stop = l.tokens ++ op :: r.tokens ∧ b.ClosesAt start stop ∧
      b.AllSeen t start stop ∧
      c = ⟨op.pos, ⟨l.first.pos, l.postOrder t.visible, true, .any, false⟩, op.kind,
        ⟨r.first.pos, r.postOrder t.visible, true, .any, false⟩, .any⟩ := by
  simp only [analyzeConditionAt, readFrom_ofNat, Analysis.stop] at hc hstop
  obtain ⟨l, r, op, close, rest, hl, hr, hop, hclose, hpend, hseen⟩ := analyzeCondition_sound hc
  obtain ⟨u, huse⟩ := (useAll_ok_iff _ t).mpr hseen
  have hread := analyzeCondition_trees l r hl hr hop hclose rest b.last t
  rw [huse] at hread
  obtain ⟨a, heq, -, -, hshifted⟩ := hread
  rw [hpend, heq] at hc hstop
  dsimp only at hstop
  have hdrop : b.items.drop start = (l.tokens ++ op :: r.tokens) ++ close :: rest := by
    rw [hpend]
    simp
  have hlen : stop = start + (l.tokens ++ op :: r.tokens).length := by omega
  obtain ⟨hbetween, hget⟩ := between_of_drop hdrop hlen
  have hcmp : Comparison (b.between start stop) :=
    hbetween ▸ .intro l.sentence_tokens hop r.sentence_tokens
  refine ⟨l, r, op, hl, hr, hop, hbetween, ⟨by omega, hcmp.matched, hget ▸ hclose⟩,
    ?_, ?_⟩
  · rw [AllSeen, hbetween]
    exact hseen
  · cases hc
    rfl

theorem analyzeConditionAt_of_comparison (hlast : b.last.kind = .eof)
    (h : Comparison (b.between start stop)) (hcloses : b.ClosesAt start stop)
    (hseen : b.AllSeen t start stop) :
    (∃ c, (analyzeConditionAt b start t).result = .ok c) ∧
      (analyzeConditionAt b start t).stop start = stop := by
  have hdrop := drop_eq_between hcloses.le (le_of_rparen hlast hcloses.closing)
  have hlen := b.length_between start stop
  have hle := hcloses.le
  unfold AllSeen at hseen
  generalize b.between start stop = ts at h hseen hdrop hlen
  cases h with
  | @intro left right op hl hop hr =>
    obtain ⟨l, hlg, rfl⟩ := ArithTree.exists_grouped hl
    obtain ⟨r, hrg, rfl⟩ := ArithTree.exists_grouped hr
    obtain ⟨u, huse⟩ := (useAll_ok_iff _ t).mpr hseen
    have hread := analyzeCondition_trees l r hlg hrg hop hcloses.closing
      (b.items.drop (stop + 1)) b.last t
    rw [huse] at hread
    obtain ⟨a, heq, -, -, hshifted⟩ := hread
    rw [append_assoc, cons_append] at hdrop
    simp only [analyzeConditionAt, readFrom_ofNat, Analysis.stop, hdrop, heq]
    exact ⟨⟨_, rfl⟩, by omega⟩

theorem analyzeConditionAt_error (hlast : b.last.kind = .eof)
    {d : Diagnostic} (h : (analyzeConditionAt b start t).result = .error d) :
    d.kind = .grammar ∨ ∃ i, start ≤ i ∧ (∀ stop, b.ClosesAt start stop → i < stop) ∧
      (b.get i).kind = .name ∧ ¬ t.Sees (b.get i).literal ∧
      d = ⟨(b.get i).pos, .undefined (b.get i).literal⟩ := by
  rw [analyzeConditionAt, readFrom_ofNat] at h
  refine (analyzeCondition_error h).imp_right ?_
  rintro ⟨ts, x, rest, hdrop, hts, hx, hsees, rfl⟩
  have hget := (between_of_drop hdrop rfl).2
  refine ⟨start + ts.length, by omega, ?_, ?_⟩
  · intro stop hcloses
    refine Nat.lt_of_le_of_ne (hcloses.le_of_unbroken hlast hdrop hts) ?_
    rintro rfl
    rw [← hget, hcloses.closing] at hx
    cases hx
  · rw [hget]
    exact ⟨hx, hsees, rfl⟩

/-- The reader of comparisons succeeds up to an index exactly if two sentences around one
relational operator, all of whose names are visible, stand before the parenthesis that is
closed there. The operator and the grouped trees of the two sides are then the only ones,
and they are what is returned. Where it fails, the grammar is to blame, unless a name that
is not visible stands in front of that parenthesis; so a comparison inside of parentheses,
a chain of them, a bare expression and an empty side are refused by the grammar. -/
theorem analyzeConditionAt_ok_iff (tokens : List Token) (start : Nat) (t : Table) :
    let b := ofTokens tokens
    let analysis := analyzeConditionAt b start t
    (∀ stop : Nat, ((∃ c, analysis.result = .ok c) ∧ analysis.stop start = stop) ↔
      Comparison (b.between start stop) ∧ b.ClosesAt start stop ∧ b.AllSeen t start stop) ∧
    (∀ (stop : Nat) (c : Truth), analysis.result = .ok c → analysis.stop start = stop →
      ∃ l r : ArithTree, ∃ op : Token,
        (l.Grouped ∧ op.kind.isRelational = true ∧ r.Grouped ∧
          b.between start stop = l.tokens ++ op :: r.tokens) ∧
        (∀ (l' r' : ArithTree) (op' : Token), l'.Grouped ∧ op'.kind.isRelational = true ∧
          r'.Grouped ∧ b.between start stop = l'.tokens ++ op' :: r'.tokens →
          l' = l ∧ op' = op ∧ r' = r) ∧
        c.op = op.kind ∧ c.pos = op.pos ∧
        c.left.items = l.postOrder t.visible ∧ c.right.items = r.postOrder t.visible) ∧
    (∀ d, analysis.result = .error d → d.kind = .grammar ∨
      ∃ i, start ≤ i ∧ (∀ stop, b.ClosesAt start stop → i < stop) ∧ (b.get i).kind = .name ∧
        ¬ t.Sees (b.get i).literal ∧ d = ⟨(b.get i).pos, .undefined (b.get i).literal⟩) ∧
    ∀ stop : Nat, b.ClosesAt start stop → b.AllSeen t start stop →
      Miscompared (b.between start stop) →
      ∃ d, analysis.result = .error d ∧ d.kind = .grammar := by
  intro b analysis
  have hlast : b.last.kind = .eof := TokenBuffer.last_ofTokens tokens
  refine ⟨?_, ?_, fun d => analyzeConditionAt_error hlast, ?_⟩
  · intro stop
    constructor
    · rintro ⟨⟨c, hc⟩, hstop⟩
      obtain ⟨l, r, op, -, -, hop, hbetween, hcloses, hseen, -⟩ := analyzeConditionAt_trees hc hstop
      exact ⟨hbetween ▸ .intro l.sentence_tokens hop r.sentence_tokens, hcloses, hseen⟩
    · rintro ⟨hcmp, hcloses, hseen⟩
      exact analyzeConditionAt_of_comparison hlast hcmp hcloses hseen
  · intro stop c hc hstop
    obtain ⟨l, r, op, hl, hr, hop, hbetween, -, -, rfl⟩ := analyzeConditionAt_trees hc hstop
    refine ⟨l, r, op, ⟨hl, hop, hr, hbetween⟩, ?_, rfl, rfl, rfl, rfl⟩
    rintro l' r' op' ⟨hl', hop', hr', hbetween'⟩
    obtain ⟨htoks, rfl, htoks'⟩ := relational_split_unique l'.sentence_tokens.not_relational
      hop' r'.sentence_tokens.not_relational hop (hbetween'.symm.trans hbetween)
    exact ⟨ArithTree.grouped_unique hl' hl htoks, rfl, ArithTree.grouped_unique hr' hr htoks'⟩
  · intro stop hcloses hseen hmiscompared
    cases hres : analysis.result with
    | ok c =>
      have hstop : analysis.stop start = (start + analysis.state.shifted : Nat) := by
        simp [Analysis.stop]
      obtain ⟨l, r, op, -, -, hop, hbetween, hcloses', -⟩ := analyzeConditionAt_trees hres hstop
      obtain rfl := hcloses.unique hlast hcloses'
      refine absurd ?_ hmiscompared.not_comparison
      exact hbetween ▸ .intro l.sentence_tokens hop r.sentence_tokens
    | error d =>
      refine ⟨d, rfl, (analyzeConditionAt_error hlast hres).resolve_right ?_⟩
      rintro ⟨i, hstart, hbef, hname, hunseen, -⟩
      exact hunseen (hseen _ (get_mem_between hstart (hbef stop hcloses)) hname)

/-- The tokens of `((1+2)*3>=4)`. -/
def sumCompared : List Token :=
  [⟨.lparen, [], .none⟩, ⟨.lparen, [], .none⟩, ⟨.int, "1", .none⟩, ⟨.add, [], .none⟩,
    ⟨.int, "2", .none⟩, ⟨.rparen, [], .none⟩, ⟨.mul, [], .none⟩, ⟨.int, "3", .none⟩,
    ⟨.geq, [], .none⟩, ⟨.int, "4", .none⟩, ⟨.rparen, [], .none⟩]

theorem analyzeConditionAt_sumCompared :
    let analysis := analyzeConditionAt (ofTokens sumCompared) (1 : Nat) (.fresh .fnv1a true)
    analysis.stop (1 : Nat) = (10 : Nat) ∧ ∃ c, analysis.result = .ok c ∧ c.op = .geq ∧
      c.left.items =
        [.value (.ofLiteral .none .i32 "1"), .value (.ofLiteral .none .i32 "2"),
          .operand (.untyped .none .add), .value (.ofLiteral .none .i32 "3"),
          .operand (.untyped .none .mul)] ∧
      c.right.items = [.value (.ofLiteral .none .i32 "4")] := by
  have hmain := analyzeConditionAt_ok_iff sumCompared 1 (.fresh .fnv1a true)
  let l : ArithTree := .binary
    (.paren ⟨.lparen, [], .none⟩ rfl
      (.binary (.operand ⟨.int, "1", .none⟩ rfl) ⟨.add, [], .none⟩ rfl
        (.operand ⟨.int, "2", .none⟩ rfl)) ⟨.rparen, [], .none⟩ rfl)
    ⟨.mul, [], .none⟩ rfl (.operand ⟨.int, "3", .none⟩ rfl)
  let r : ArithTree := .operand ⟨.int, "4", .none⟩ rfl
  have hl : l.Grouped := by simp [l, ArithTree.Grouped, ArithTree.strength, TokenKind.precedence]
  have htoks : (ofTokens sumCompared).between 1 10 =
    l.tokens ++ ⟨.geq, [], .none⟩ :: r.tokens := rfl
  have hcmp : Comparison ((ofTokens sumCompared).between 1 10) :=
    htoks ▸ .intro l.sentence_tokens rfl r.sentence_tokens
  obtain ⟨⟨c, hc⟩, hstop⟩ := (hmain.1 10).mpr
    ⟨hcmp, ⟨by decide, hcmp.matched, rfl⟩, by
      rw [AllSeen, htoks]
      simp [l, r, ArithTree.tokens]⟩
  obtain ⟨l', r', op, -, hunique, hop, -, hleft, hright⟩ := hmain.2.1 10 c hc hstop
  obtain ⟨rfl, rfl, rfl⟩ := hunique l r ⟨.geq, [], .none⟩ ⟨hl, rfl, trivial, htoks⟩
  exact ⟨hstop, c, hc, hop, hleft, hright⟩

end Ifj24.Tree
