import Ifj24.Proofs.FailedCalls
import Ifj24.Proofs.Progress

/-!
The shape of the precedence stack. Shifting puts a terminal above a marker with at most one
nonterminal between them, and a handle is reduced down to its marker; so between two steps the
stack is made of such groups. The builder holds the operators of the stack, and above them those
that were reduced since the last shift: the next operator that is shifted makes the builder give
up just these.
-/

open List

namespace Ifj24.Tree

open ArithTree TokenBuffer

theorem Covers.ne_stop {c : TermClass} {a : Token} (h : Covers c a) : c ≠ .stop := by
  rintro rfl
  exact h

namespace StackItem

def isNonterminal : StackItem → Bool
  | .expr | .relation => true
  | _ => false

inductive Slot : List StackItem → Prop where
  | empty : Slot []
  | filled {x : StackItem} : x.isNonterminal = true → Slot [x]

/-- Above the bottom, which is the only one, each terminal but a closing parenthesis has a marker
below it, and nonterminals stand apart. -/
structure Laid (stack : List StackItem) : Prop where
  bottom : ∃ above, stack = above ++ [.bottom] ∧ ∀ it ∈ above, it.isClass .stop = false
  marked : ∀ above c a below, stack = above ++ .terminal c a :: below → c ≠ .rparen →
    ∃ held rest, Slot held ∧ below = held ++ .marker :: rest
  apart : ∀ above x y below, stack = above ++ x :: y :: below →
    ¬ (x.isNonterminal = true ∧ y.isNonterminal = true)

/-- Such a stack with at most a nonterminal above the topmost terminal. -/
structure Shaped (stack : List StackItem) : Prop extends Laid stack where
  top : ∃ held t rest, stack = held ++ t :: rest ∧ Slot held ∧ t.isTerminal = true

/-- The arithmetic operators and the parentheses that are not closed, the topmost first, as far as
a relational operator. Above the stack stand `closed` closing parentheses. -/
def operators : Nat → List StackItem → List Token
  | _, [] => []
  | closed, .terminal .rparen _ :: rest => operators (closed + 1) rest
  | 0, .terminal .lparen a :: rest => a :: operators 0 rest
  | closed + 1, .terminal .lparen _ :: rest => operators closed rest
  | closed, .terminal .addSub a :: rest => a :: operators closed rest
  | closed, .terminal .mulDiv a :: rest => a :: operators closed rest
  | _, .terminal .rel _ :: _ => []
  | closed, _ :: rest => operators closed rest

/-- A terminal that can be shifted above a marker. A relational operator only comes above the
bottom. -/
structure Opening (c : TermClass) (a : Token) (stack : List StackItem) : Prop where
  covers : Covers c a
  open_ : c ≠ .rparen
  weight : a.kind.isArith = true → PrecedenceAction.hold c = a.kind.precedence
  rel : c = .rel → stack = [.bottom]

/-- Stacks with a terminal on top. A closing parenthesis stands above the opening one. -/
inductive Based : List StackItem → Prop where
  | bottom : Based [.bottom]
  | shifted {stack held : List StackItem} {c : TermClass} {a : Token} : Based stack →
      Slot held → Opening c a stack → Based (.terminal c a :: (held ++ .marker :: stack))
  | closed {stack inner held : List StackItem} {o a : Token} : Based stack → Slot inner →
      Slot held → Opening .lparen o stack →
      Based (.terminal .rparen a :: (inner ++ .terminal .lparen o :: (held ++ .marker :: stack)))

variable {stack held : List StackItem}

namespace Slot

theorem forall_mem (h : Slot held) : ∀ it ∈ held, it.isNonterminal = true := by
  cases h with
  | empty => simp
  | filled hx => simpa using hx

end Slot

theorem class?_of_isNonterminal {it : StackItem} (h : it.isNonterminal = true) :
    it.class? = none ∧ it ≠ .marker := by
  cases it <;> simp [isNonterminal, class?] at h ⊢

namespace Slot

theorem mark_append (h : Slot held) {t : StackItem} (ht : t.isTerminal = true)
    (rest : List StackItem) : mark (held ++ t :: rest) = held ++ .marker :: t :: rest := by
  cases h with
  | empty => simp [mark, ht]
  | @filled x hx =>
    have hfree : x.isTerminal = false := by simp [isTerminal, (class?_of_isNonterminal hx).1]
    simp [mark, ht, hfree]

theorem active?_append (h : Slot held) (rest : List StackItem) :
    active? (held ++ rest) = active? rest := by
  cases h with
  | empty => rfl
  | filled hx => simp [active?, (class?_of_isNonterminal hx).1]

theorem operators_append (h : Slot held) (closed : Nat) (rest : List StackItem) :
    operators closed (held ++ rest) = operators closed rest := by
  cases h with
  | empty => rfl
  | @filled x hx => cases x <;> first | rfl | cases hx

end Slot

theorem not_isNonterminal {t : StackItem} (h : t.isTerminal = true) : t.isNonterminal = false := by
  cases t <;> first | rfl | cases h

variable {base below : List StackItem} {c top : TermClass}

namespace Laid

theorem cons {x : StackItem} (h : Laid stack) (hx : x.isClass .stop = false)
    (hmarked : ∀ c a, x = .terminal c a → c ≠ .rparen →
      ∃ held rest, Slot held ∧ stack = held ++ .marker :: rest)
    (hapart : ∀ y rest, stack = y :: rest → ¬ (x.isNonterminal = true ∧ y.isNonterminal = true)) :
    Laid (x :: stack) where
  bottom := by
    obtain ⟨above, rfl, habove⟩ := h.bottom
    exact ⟨x :: above, rfl, by simpa [hx] using habove⟩
  marked above c a below hcut hc := by
    cases above with
    | nil =>
      obtain ⟨rfl, rfl⟩ := List.cons.inj hcut
      exact hmarked c a rfl hc
    | cons y above => exact h.marked above c a below (List.cons.inj hcut).2 hc
  apart above y z below hcut := by
    cases above with
    | nil =>
      obtain ⟨rfl, rfl⟩ := List.cons.inj hcut
      exact hapart z below rfl
    | cons _ above => exact h.apart above y z below (List.cons.inj hcut).2

theorem marker (h : Laid stack) : Laid (.marker :: stack) :=
  h.cons rfl (fun _ _ h => by cases h) fun _ _ _ h => by cases h.1

theorem terminal (a : Token) (h : Laid stack) (hc : c ≠ .stop)
    (hmarked : c = .rparen ∨ ∃ held rest, Slot held ∧ stack = held ++ .marker :: rest) :
    Laid (.terminal c a :: stack) := by
  refine h.cons (by simpa [isClass, class?] using hc) ?_ fun _ _ _ h => by cases h.1
  rintro _ _ ⟨⟩ hne
  exact hmarked.resolve_left hne

theorem hold {x : StackItem} (h : Laid (x :: stack)) (hheld : Slot held)
    (hx : x.isNonterminal = false) : Laid (held ++ x :: stack) := by
  cases hheld with
  | empty => exact h
  | @filled y hy =>
    refine h.cons (by simp [isClass, (class?_of_isNonterminal hy).1]) ?_ ?_
    · rintro _ _ rfl
      cases hy
    · rintro _ _ ⟨⟩ hboth
      rw [hx] at hboth
      cases hboth.2

end Laid

namespace Based

theorem exists_cons (h : Based base) :
    ∃ t rest, base = t :: rest ∧ t.isTerminal = true := by
  cases h with
  | bottom => exact ⟨_, _, rfl, rfl⟩
  | shifted => exact ⟨_, _, rfl, rfl⟩
  | closed => exact ⟨_, _, rfl, rfl⟩

theorem laid (h : Based base) : Laid base := by
  induction h with
  | bottom =>
    refine ⟨⟨[], rfl, by simp⟩, fun above c a below h => ?_, fun above x y below h => ?_⟩
    · cases above <;> simp at h
    · cases above <;> simp at h
  | shifted _ hheld hopen ih =>
    exact (ih.marker.hold hheld rfl).terminal _ hopen.covers.ne_stop (.inr ⟨_, _, hheld, rfl⟩)
  | @closed _ _ _ o a _ hinner hheld hopen ih =>
    have hbelow := (ih.marker.hold hheld rfl).terminal o hopen.covers.ne_stop
      (.inr ⟨_, _, hheld, rfl⟩)
    exact (hbelow.hold hinner rfl).terminal a (by simp) (.inl rfl)

theorem shaped (h : Based base) (hheld : Slot held) : Shaped (held ++ base) := by
  obtain ⟨t, rest, rfl, ht⟩ := h.exists_cons
  exact ⟨h.laid.hold hheld (not_isNonterminal ht), held, t, rest, rfl, hheld, ht⟩

theorem blocked (h : Based base) (hactive : active? base = some top) (ho : top ≠ .operand)
    (hc : top ≠ .rparen) (hlimit : PrecedenceAction.hold top < limit) :
    Builder.Blocked limit ((operators 0 base).map operator) := by
  cases h with
  | bottom => trivial
  | closed => exact absurd (Option.some.inj hactive).symm hc
  | @shifted _ _ c a _ _ hopen =>
    obtain rfl : c = top := Option.some.inj hactive
    have hcovers := hopen.covers
    cases c with
    | addSub => exact .inr (hopen.weight hcovers ▸ hlimit)
    | mulDiv => exact .inr (hopen.weight hcovers ▸ hlimit)
    | lparen => exact .inl hcovers
    | rparen => exact absurd rfl hc
    | operand => exact absurd rfl ho
    | rel => trivial
    | stop => exact absurd hcovers id

theorem exists_lparen (h : Based base) (hactive : active? base = some .lparen) :
    ∃ o held below, base = .terminal .lparen o :: (held ++ .marker :: below) ∧ Slot held ∧
      Based below ∧ Opening .lparen o below := by
  cases h with
  | bottom => cases hactive
  | closed => cases hactive
  | @shifted _ _ c _ hbelow hheld hopen =>
    obtain rfl : c = .lparen := Option.some.inj hactive
    exact ⟨_, _, _, rfl, hheld, hbelow, hopen⟩

theorem eq_bottom (h : Based base) (hactive : active? base = some .stop) : base = [.bottom] := by
  cases h with
  | bottom => rfl
  | shifted _ _ hopen => exact absurd (Option.some.inj hactive) hopen.covers.ne_stop
  | closed => cases hactive

end Based

def Passed (front : List StackItem) : Prop := ∀ it ∈ front, it ≠ .marker ∧ it.isClass .stop = false

theorem Slot.passed (h : Slot held) : Passed held := by
  intro it hit
  obtain ⟨hclass, hne⟩ := class?_of_isNonterminal (h.forall_mem it hit)
  exact ⟨hne, by simp [isClass, hclass]⟩

theorem Passed.terminal {front below : List StackItem} (hfront : Passed front)
    (hbelow : Passed below) (a : Token) (hc : c ≠ .stop) :
    Passed (front ++ .terminal c a :: below) := by
  refine forall_mem_append.mpr ⟨hfront, forall_mem_cons.mpr ⟨⟨by simp, ?_⟩, hbelow⟩⟩
  simpa [isClass] using hc

/-- The handle reaches down to the topmost marker if the bottom is not met before. -/
theorem splitHandle?_append {front : List StackItem} (below above : List StackItem)
    (h : Passed front) :
    splitHandle? (front ++ .marker :: below) above = some (front.reverse ++ above, below) := by
  induction front generalizing above with
  | nil => rfl
  | cons it front ih =>
    obtain ⟨hmarker, hstop⟩ := h it (by simp)
    have hrest := ih (it :: above) fun x hx => h x (by simp [hx])
    cases it with
    | marker => exact absurd rfl hmarker
    | _ => simp [splitHandle?, hstop, hrest]

theorem isNonterminal_of_match? {truth : Bool} {handle : List StackItem} {x : StackItem}
    (h : match? truth handle = some x) : x.isNonterminal = true := by
  unfold match? at h
  split at h
  · split at h <;> cases h
    rfl
  · split at h
    · cases h
      rfl
    split at h
    · cases h
      rfl
    split at h <;> cases h
    rfl
  · cases h

theorem select_reduce (h : PrecedenceAction.select top c = .reduce) :
    c ≠ .operand ∧ c ≠ .lparen ∧ top ≠ .lparen ∧ top ≠ .stop ∧
      (top ≠ .rparen → top ≠ .operand → top ≠ .rel →
        PrecedenceAction.hold c ≤ PrecedenceAction.hold top) := by
  cases top <;> cases c <;> simp [PrecedenceAction.select, PrecedenceAction.hold] at h ⊢

/-- A reduction uncovers what is below the topmost marker, and takes at most an operator that
does not yield to the input. -/
theorem Based.reduce {truth : Bool} {next : List StackItem} (h : Based base) (hheld : Slot held)
    (hactive : active? base = some top) (hselect : PrecedenceAction.select top c = .reduce)
    (hreduce : reduce? truth (held ++ base) = some next) :
    ∃ front x below removed, held ++ base = front ++ .marker :: below ∧ .bottom ∉ front ∧
      next = x :: below ∧ x.isNonterminal = true ∧ Based below ∧
      operators 0 base = removed ++ operators 0 below ∧
      ∀ a ∈ removed, a.kind.isArith = true ∧ PrecedenceAction.hold c ≤ a.kind.precedence := by
  have cut (front below : List StackItem) (hstack : held ++ base = front ++ .marker :: below)
      (hfront : Passed front) :
      .bottom ∉ front ∧ ∃ x, next = x :: below ∧ x.isNonterminal = true := by
    refine ⟨fun hmem => absurd (hfront _ hmem).2 (by decide), ?_⟩
    rw [hstack, reduce?, splitHandle?_append below [] hfront] at hreduce
    simp only [Option.bind_eq_bind, Option.bind_some, Option.pure_def, Option.bind_eq_some_iff,
      Option.some.injEq] at hreduce
    obtain ⟨x, hmatch, rfl⟩ := hreduce
    exact ⟨x, rfl, isNonterminal_of_match? hmatch⟩
  obtain ⟨-, -, hlparen, hstop, hhold⟩ := select_reduce hselect
  cases h with
  | bottom => exact absurd (Option.some.inj hactive).symm hstop
  | @shifted below inner c' a hbelow hinner hopen =>
    obtain rfl : c' = top := Option.some.inj hactive
    obtain ⟨hbottom, x, rfl, hx⟩ := cut _ below (by simp)
      (hheld.passed.terminal hinner.passed a hstop)
    have hcovers := hopen.covers
    have hpass : operators 0 (inner ++ .marker :: below) = operators 0 below :=
      hinner.operators_append 0 _
    obtain ⟨removed, hops, hremoved⟩ : ∃ removed,
        operators 0 (.terminal c' a :: (inner ++ .marker :: below)) = removed ++ operators 0 below ∧
        ∀ a ∈ removed, a.kind.isArith = true ∧ PrecedenceAction.hold c ≤ a.kind.precedence := by
      cases c' with
      | addSub =>
        have hle := hopen.weight hcovers ▸ hhold (by decide) (by decide) (by decide)
        exact ⟨[a], congrArg (a :: ·) hpass, by simpa using ⟨hcovers, hle⟩⟩
      | mulDiv =>
        have hle := hopen.weight hcovers ▸ hhold (by decide) (by decide) (by decide)
        exact ⟨[a], congrArg (a :: ·) hpass, by simpa using ⟨hcovers, hle⟩⟩
      | lparen => exact absurd rfl hlparen
      | rparen => exact absurd rfl hopen.open_
      | operand => exact ⟨[], hpass, by simp⟩
      | rel =>
        rw [hopen.rel rfl]
        exact ⟨[], rfl, by simp⟩
      | stop => exact absurd rfl hstop
    exact ⟨_, x, below, removed, by simp, hbottom, rfl, hx, hbelow, hops, hremoved⟩
  | @closed below inner inner' o a hbelow hinner hinner' hopen =>
    have hfront := (hheld.passed.terminal hinner.passed a (c := .rparen) (by decide)).terminal
      hinner'.passed o (c := .lparen) (by decide)
    obtain ⟨hbottom, x, rfl, hx⟩ := cut _ below (by simp) hfront
    refine ⟨_, x, below, [], by simp, hbottom, rfl, hx, hbelow, ?_, by simp⟩
    calc operators 1 (inner ++ .terminal .lparen o :: (inner' ++ .marker :: below))
      _ = operators 0 (inner' ++ .marker :: below) := hinner.operators_append 1 _
      _ = operators 0 below := hinner'.operators_append 0 _

end StackItem

namespace Builder

variable {b d : Builder}

theorem operators_of_addTerm {x : Expr} (h : (b.addTerm x).toExcept = .ok d) :
    d.operators = b.operators := by
  unfold addTerm at h
  split at h
  · cases h
  · split at h <;> cases h <;> rfl

theorem operators_of_lparen {o : Operand} (hb : b.finished = false) (ho : o.op = .lparen)
    (h : (b.addOperator o).toExcept = .ok d) : d.operators = o :: b.operators := by
  rw [addOperator, if_neg (by simp [hb]), if_pos ho] at h
  cases h
  rfl

theorem ne_lparen_of_finish (hb : b.finished = false) (h : b.finish.toExcept = .ok d) :
    ∀ o ∈ b.operators, o.op ≠ .lparen := by
  rcases drain_cases b.operators b.output with
    ⟨hcount, -⟩ | ⟨above, o, below, hops, -, -, -, hdrain, -⟩
  · simpa [countP_eq_zero] using hcount
  · simp [finish, hb, hdrain, Attempt.toExcept] at h

end Builder

namespace Analyzer

open PrecedenceAction StackItem

variable {a b fed : Analyzer} {token : Token} {rest : List Token} {top : TermClass}
  {stack : List StackItem}

theorem feed_cases (hp : a.pending = token :: rest) (h : feed { a with stack } = .ok fed) :
    (a.cls = .operand ∧ fed.builder.operators = a.builder.operators) ∨
    (a.cls = .rel ∧ fed.builder.operators = [] ∧ ∃ d, a.builder.finish.toExcept = .ok d) ∨
    a.cls ≠ .operand ∧ a.cls ≠ .rel ∧
      (a.builder.addOperator (operator token)).toExcept = .ok fed.builder := by
  have hinput : input { a with stack } = token := by simp [input, hp]
  unfold feed at h
  rw [hinput] at h
  simp only [bind, Except.bind, pure, Except.pure] at h
  split at h
  · rename_i hc
    split at h
    · cases h
    split at h
    · cases h
    · rename_i hadd
      cases h
      exact .inl ⟨hc, Builder.operators_of_addTerm hadd⟩
  · rename_i hc
    split at h
    · cases h
    split at h
    · cases h
    · rename_i hfinish
      cases h
      exact .inr (.inl ⟨hc, rfl, _, hfinish⟩)
  · rename_i hoperand hrel
    split at h
    · cases h
    · rename_i hadd
      cases h
      exact .inr (.inr ⟨hoperand, hrel, hadd⟩)

theorem hold_of_classify {truth : Bool} {depth depth' : Nat} {c : TermClass}
    (h : classify truth depth token = .ok (c, depth')) (ha : token.kind.isArith = true) :
    hold c = token.kind.precedence := by
  unfold classify at h
  cases hk : token.kind <;> simp [hk, TokenKind.isArith] at h ha
  all_goals
    rw [← h.1]
    rfl

/-- The builder holds the operators of the stack. Above them are those that were reduced since
the last shift, which bind at least as tightly as the input. -/
structure Keeping (a : Analyzer) : Prop where
  based : ∃ held base, a.stack = held ++ base ∧ Slot held ∧ Based base
  operators : ∃ reduced, a.builder.operators =
      (reduced ++ operators 0 a.stack).map operator ∧
    ∀ t ∈ reduced, t.kind.isArith = true ∧ hold a.cls ≤ t.kind.precedence ∧
      a.cls ≠ .operand ∧ a.cls ≠ .lparen

theorem select_shift {c : TermClass} (h : select top c = .shift) :
    c ≠ .rparen ∧ top ≠ .operand ∧ top ≠ .rparen ∧
      (c = .rel → top = .lparen ∨ top = .stop) ∧
      (c = .addSub ∨ c = .mulDiv → hold top < hold c) := by
  cases top <;> cases c <;> simp [select, hold] at h ⊢

theorem select_equal {c : TermClass} (h : select top c = .equal) : top = .lparen ∧ c = .rparen := by
  cases top <;> cases c <;> simp [select] at h ⊢

namespace Keeping

theorem push {truth : Bool} {depth depth' : Nat} (h : Keeping a) (hb : a.builder.finished = false)
    (hclass : classify truth depth token = .ok (a.cls, depth')) (hc : a.cls ≠ .stop)
    (hp : a.pending = token :: rest) (hactive : active? a.stack = some top)
    (hselect : select top a.cls = .shift ∧ stack = mark a.stack ∨
      select top a.cls = .equal ∧ stack = a.stack) (hfeed : feed { a with stack } = .ok fed) :
    Based (.terminal a.cls token :: stack) ∧ fed.builder.operators =
      (StackItem.operators 0 (.terminal a.cls token :: stack)).map operator := by
  obtain ⟨held, base, hstack, hheld, hbase⟩ := h.based
  obtain ⟨reduced, hops, hreduced⟩ := h.operators
  have hcovers := covers_of_classify hclass hc
  have hcases := feed_cases hp hfeed
  have hnone (hcls : a.cls = .operand ∨ a.cls = .lparen) : reduced = [] := by
    refine eq_nil_iff_forall_not_mem.mpr fun t ht => ?_
    obtain ⟨-, -, hoperand, hlparen⟩ := hreduced t ht
    exact hcls.elim hoperand hlparen
  rw [hstack, hheld.active?_append] at hactive
  rw [hstack, hheld.operators_append, map_append] at hops
  rw [hstack] at hselect
  generalize a.cls = c at *
  rcases hselect with ⟨hselect, rfl⟩ | ⟨hselect, rfl⟩
  · obtain ⟨hrparen, hoperand, hclosed, hrel, hlt⟩ := select_shift hselect
    obtain ⟨t, tail, hcons, ht⟩ := hbase.exists_cons
    rw [show mark (held ++ base) = held ++ .marker :: base by rw [hcons, hheld.mark_append ht]]
    have hpass : StackItem.operators 0 (held ++ .marker :: base) = StackItem.operators 0 base :=
      hheld.operators_append 0 _
    have hbased (hr : c = .rel → base = [.bottom]) :=
      hbase.shifted hheld ⟨hcovers, hrparen, hold_of_classify hclass, hr⟩
    have arith (hcls : c = .addSub ∨ c = .mulDiv) (harith : token.kind.isArith = true)
        (hadd : (a.builder.addOperator (operator token)).toExcept = .ok fed.builder) :
        fed.builder.operators =
          (token :: StackItem.operators 0 (held ++ .marker :: base)).map operator := by
      have hweight := hold_of_classify hclass harith
      have hok := Builder.addOperator_arith (o := operator token) hb harith hops
        (forall_mem_map.mpr fun t ht => ⟨(hreduced t ht).1, hweight ▸ (hreduced t ht).2.1⟩)
        (hbase.blocked hactive hoperand hclosed (hweight ▸ hlt hcls))
      rw [← Except.ok.inj (hok.symm.trans hadd), hpass]
      rfl
    rcases hcases with ⟨rfl, hfed⟩ | ⟨rfl, hfed, d, hfinish⟩ | ⟨hoperand', hrel', hadd⟩
    · refine ⟨hbased (by simp), ?_⟩
      rw [hfed, hops, hnone (.inl rfl), ← hpass]
      rfl
    · -- A parenthesis that is open below the operator is still with the builder, so the left
      -- side could not be finished.
      have hbottom : base = [.bottom] := by
        rcases hrel rfl with rfl | rfl
        · obtain ⟨o, held', below, rfl, -, -, hopen⟩ := hbase.exists_lparen hactive
          have hmem : operator o ∈ a.builder.operators := by
            rw [hops]
            exact mem_append_right _ mem_cons_self
          exact absurd hopen.covers (Builder.ne_lparen_of_finish hb hfinish _ hmem)
        · exact hbase.eq_bottom hactive
      refine ⟨hbased fun _ => hbottom, ?_⟩
      rw [hfed]
      rfl
    · refine ⟨hbased (absurd · hrel'), ?_⟩
      cases c with
      | addSub => exact arith (.inl rfl) hcovers hadd
      | mulDiv => exact arith (.inr rfl) hcovers hadd
      | lparen =>
        have hparen := Builder.operators_of_lparen (o := operator token) hb hcovers hadd
        rw [hparen, hops, hnone (.inr rfl), ← hpass]
        rfl
      | rparen => exact absurd rfl hrparen
      | operand => exact absurd rfl hoperand'
      | rel => exact absurd rfl hrel'
      | stop => exact absurd rfl hc
  · obtain ⟨rfl, rfl⟩ := select_equal hselect
    obtain ⟨o, held', below, rfl, hheld', hbelow, hopen⟩ := hbase.exists_lparen hactive
    refine ⟨hbelow.closed hheld hheld' hopen, ?_⟩
    obtain ⟨h', -⟩ | ⟨h', -⟩ | ⟨-, -, hadd⟩ := hcases
    · cases h'
    · cases h'
    have hok := Builder.addOperator_rparen (o := operator token) hb hcovers hops
      (forall_mem_map.mpr fun t ht => (hreduced t ht).1) hopen.covers
    rw [← Except.ok.inj (hok.symm.trans hadd)]
    have hclosed : StackItem.operators 0 (.terminal .rparen token ::
        (held ++ .terminal .lparen o :: (held' ++ .marker :: below))) =
        StackItem.operators 0 (held' ++ .marker :: below) := hheld.operators_append 1 _
    rw [hclosed]

theorem reduce {next : List StackItem} (h : Keeping a) (hactive : active? a.stack = some top)
    (hselect : select top a.cls = .reduce) (hreduce : reduce? a.truth a.stack = some next) :
    Keeping { a with stack := next } ∧ ∃ handle x below, a.stack = handle ++ .marker :: below ∧
      .bottom ∉ handle ∧ next = x :: below ∧ x.isNonterminal = true := by
  obtain ⟨held, base, hstack, hheld, hbase⟩ := h.based
  obtain ⟨reduced, hops, hreduced⟩ := h.operators
  rw [hstack] at hactive hops hreduce ⊢
  rw [hheld.active?_append] at hactive
  rw [hheld.operators_append] at hops
  obtain ⟨handle, x, below, removed, hcut, hbottom, rfl, hx, hbelow, hremoved, htight⟩ :=
    hbase.reduce hheld hactive hselect hreduce
  obtain ⟨hoperand, hlparen, -⟩ := select_reduce hselect
  have hpass := (Slot.filled hx).operators_append 0 below
  refine ⟨⟨⟨[x], below, rfl, .filled hx, hbelow⟩, reduced ++ removed, ?_, fun t ht => ?_⟩,
    handle, x, below, hcut, hbottom, rfl, hx⟩
  · show a.builder.operators = _
    rw [hops, hremoved, ← append_assoc, ← hpass]
    rfl
  · rcases mem_append.mp ht with ht | ht
    · exact hreduced t ht
    · exact ⟨(htight t ht).1, (htight t ht).2, hoperand, hlparen⟩

end Keeping

variable {truth : Bool} {names : Table} {tokens : List Token}

theorem Reading.take_shifted (h : Reading truth names tokens a) :
    Spells a.stack (tokens.take a.shifted) := by
  obtain ⟨ts, hspells, rfl, hshifted, -⟩ := h.spells
  rwa [hshifted, take_left]

theorem Reading.take_push (h : Reading truth names tokens a) (hc : a.cls ≠ .stop)
    (hp : a.pending = token :: rest) (hstack : stack = mark a.stack ∨ stack = a.stack) :
    Spells (.terminal a.cls token :: stack) (tokens.take (a.shifted + 1)) := by
  obtain ⟨ts, hspells, rfl, hshifted, -⟩ := h.spells
  obtain ⟨first, more, depth, hfirst, hlooked⟩ := h.looked
  obtain ⟨rfl, rfl⟩ : first = token ∧ more = rest := by simpa [hfirst] using hp
  have hbelow : Spells stack ts := by
    rcases hstack with rfl | rfl
    · exact hspells.mark
    · exact hspells
  rw [hshifted, hfirst, take_length_add_append]
  exact hbelow.terminal (covers_of_classify hlooked hc)

structure Pushed (tokens : List Token) (a : Analyzer) : Prop where
  based : Based a.stack
  spells : Spells a.stack (tokens.take a.shifted)
  operators : a.builder.operators = (StackItem.operators 0 a.stack).map operator

theorem Pushed.keeping (h : Pushed tokens a) : Keeping a :=
  ⟨⟨[], a.stack, rfl, .empty, h.based⟩, [], h.operators, by simp⟩

theorem Pushed.look (h : Pushed tokens a) (hlook : a.look = .ok b) :
    Pushed tokens b ∧ b.shifted = a.shifted := by
  obtain ⟨-, -, -, -, -, -, rfl⟩ := look_ok hlook
  exact ⟨⟨h.based, h.spells, h.operators⟩, rfl⟩

theorem Keeping.pushed (hkeep : Keeping a) (h : Building truth names tokens a)
    (hc : a.cls ≠ .stop) (hp : a.pending = token :: rest) (hactive : active? a.stack = some top)
    (hselect : select top a.cls = .shift ∧ stack = mark a.stack ∨
      select top a.cls = .equal ∧ stack = a.stack) (hfeed : feed { a with stack } = .ok fed) :
    Pushed tokens { fed with
      stack := .terminal a.cls token :: stack
      shifted := a.shifted + 1
      pending := rest } := by
  obtain ⟨first, more, depth, hfirst, hlooked⟩ := h.looked
  obtain ⟨rfl, rfl⟩ : first = token ∧ more = rest := by simpa [hfirst] using hp
  obtain ⟨hbased, hops⟩ := hkeep.push h.unfinished hlooked hc hp hactive hselect hfeed
  exact ⟨hbased, h.take_push hc hp (hselect.imp And.right And.right), hops⟩

/-- A step that goes on is a shift, or it reduces a handle above the bottom. -/
theorem Keeping.next (hkeep : Keeping a) (h : Building truth names tokens a)
    (hstep : a.step = .next b) :
    Keeping b ∧ (b.shifted = a.shifted + 1 ∧ Pushed tokens b ∨
      b.shifted = a.shifted ∧ b.stack.length < a.stack.length ∧ ∃ handle x below,
        a.stack = handle ++ .marker :: below ∧ .bottom ∉ handle ∧ b.stack = x :: below ∧
          x.isNonterminal = true) := by
  cases steps_of_step hstep with
  | reduce hreduce hactive hselect =>
    obtain ⟨hnext, hhandle⟩ := hkeep.reduce hactive hselect hreduce
    exact ⟨hnext, .inr ⟨rfl, length_of_reduce? hreduce, hhandle⟩⟩
  | shift _ hc hshift hactive hselect =>
    obtain _ | _ | _ | ⟨hp, hfeed, hlook⟩ := hshift
    obtain ⟨hpushed, hshifted⟩ := (hkeep.pushed h hc hp hactive hselect hfeed).look hlook
    exact ⟨hpushed.keeping, .inl ⟨hshifted, hpushed⟩⟩

/-- A step that fails has shifted nothing, or has failed for the token behind. -/
theorem Keeping.failed {d : Diagnostic} (hkeep : Keeping a) (h : Building truth names tokens a)
    (hstep : a.step = .failed d b) : b.shifted = a.shifted ∨ Pushed tokens b := by
  cases steps_of_step hstep with
  | shift _ hc hshift hactive hselect =>
    cases hshift with
    | lost _ hp hfeed hmoved =>
      subst hmoved
      exact .inr (hkeep.pushed h hc hp hactive hselect hfeed)
    | _ => exact .inl rfl
  | _ => exact .inl rfl

theorem Arises.keeping {pending : List Token} {last : Token} {table : Table}
    (h : Arises truth pending last table a) : Keeping a ∧ Building truth table pending a := by
  induction h with
  | look hlook =>
    refine (And.imp_right fun hopen => ⟨Reading.start hlook, hopen⟩) ?_
    obtain ⟨-, -, -, -, -, -, rfl⟩ := look_ok hlook
    exact ⟨⟨⟨[], _, rfl, .empty, .bottom⟩, [], rfl, by simp⟩, rfl⟩
  | step _ hstep ih =>
    obtain ⟨hkeep, hbuilding⟩ := ih
    exact ⟨(hkeep.next hbuilding hstep).1, hbuilding.next hstep⟩

/-- Between two steps of a run the stack has its shape and spells the tokens shifted so far, and
so it does right after a shift, where the builder has the operators of the stack. A reduction
leaves the bottom alone and makes the stack shorter. -/
theorem stack_keeps_shape (buffer : TokenBuffer) (index : Int) (truth : Bool) (table : Table)
    (h : Arises truth (buffer.readFrom index) buffer.last table a) :
    let spelled (a : Analyzer) :=
      Shaped a.stack ∧ Spells a.stack ((buffer.readFrom index).take a.shifted)
    spelled a ∧ (active? a.stack).isSome = true ∧
    (∀ b, a.step = .next b ∨ (∃ d, a.step = .failed d b) → b.shifted = a.shifted + 1 →
      spelled b ∧
        b.builder.operators = (StackItem.operators 0 b.stack).map operator) ∧
    ∀ b, a.step = .next b → b.shifted = a.shifted →
      b.stack.length < a.stack.length ∧ ∃ handle x below,
        a.stack = handle ++ .marker :: below ∧ .bottom ∉ handle ∧ b.stack = x :: below ∧
          x.isNonterminal = true := by
  intro spelled
  obtain ⟨hkeep, hbuilding⟩ := h.keeping
  obtain ⟨held, base, hstack, hheld, hbase⟩ := hkeep.based
  have hshaped : Shaped a.stack := hstack ▸ hbase.shaped hheld
  refine ⟨⟨hshaped, hbuilding.take_shifted⟩, ?_, fun b hstep hshift => ?_, fun b hstep hsame => ?_⟩
  · obtain ⟨above, hbottom, -⟩ := hshaped.bottom
    rw [active?, findSome?_isSome_iff]
    exact ⟨.bottom, by simp [hbottom], rfl⟩
  · have hpushed : Pushed (buffer.readFrom index) b := by
      rcases hstep with hstep | ⟨d, hstep⟩
      · obtain ⟨-, ⟨-, hpushed⟩ | ⟨hsame, -⟩⟩ := hkeep.next hbuilding hstep
        · exact hpushed
        · omega
      · obtain hsame | hpushed := hkeep.failed hbuilding hstep
        · omega
        · exact hpushed
    exact ⟨⟨hpushed.based.shaped .empty, hpushed.spells⟩, hpushed.operators⟩
  · obtain ⟨-, ⟨hshift, -⟩ | ⟨-, hreduced⟩⟩ := hkeep.next hbuilding hstep
    · omega
    · exact hreduced

/-- A sum in parentheses behind an operator. -/
def nestedTokens : List Token :=
  [⟨.int, "1", ⟨"t", 1, 1⟩⟩, ⟨.mul, "*", ⟨"t", 1, 2⟩⟩, ⟨.lparen, "(", ⟨"t", 1, 3⟩⟩,
    ⟨.int, "2", ⟨"t", 1, 4⟩⟩, ⟨.add, "+", ⟨"t", 1, 5⟩⟩, ⟨.int, "3", ⟨"t", 1, 6⟩⟩,
    ⟨.rparen, ")", ⟨"t", 1, 7⟩⟩, ⟨.semi, ";", ⟨"t", 1, 8⟩⟩, ⟨.eof, [], ⟨"t", 1, 9⟩⟩]

theorem stack_keeps_shape_nested :
    ∃ a, Arises false ((ofTokens nestedTokens).readFrom 0)
        (ofTokens nestedTokens).last (.fresh (fun _ => 0) false) a ∧
      a.stack.map StackItem.class? =
        [some .addSub, none, none, some .lparen, none, some .mulDiv, none, none, some .stop] ∧
      Shaped a.stack := by
  have hstart : Arises false ((ofTokens nestedTokens).readFrom 0)
      (ofTokens nestedTokens).last (.fresh (fun _ => 0) false) _ := .look rfl
  have hshift := ((((((hstart.step rfl).step rfl).step rfl).step rfl).step rfl).step rfl).step rfl
  exact ⟨_, hshift, rfl, (stack_keeps_shape _ _ _ _ hshift).1.1⟩

end Analyzer

end Ifj24.Tree
