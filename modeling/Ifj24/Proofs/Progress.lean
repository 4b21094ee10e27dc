import Ifj24.Proofs.SecondPass
import Ifj24.Proofs.Scanning

/-!
Reading a source comes to an end, whatever the source is. The scanner moves on with every token
that it gives without a fault, so scanning takes no more tokens than there are characters and one
for the end. Pass over the headers, descent and precedence automaton each use up tokens or stack,
so their fuel is never used up, and none of them looks where there is nothing: a stack without a
terminal, a parameter that the first pass has not seen.
-/

open List

namespace Ifj24

namespace Lexeme

theorem le_stringBody (offset : Nat) (input : List Char) :
    offset ≤ (stringBody offset input).2.2 := by
  fun_induction stringBody offset input <;> simp_all <;> omega

theorem used_sliceType_pos (input : List Char) : 0 < (sliceType input).used := by
  unfold sliceType
  dsimp only
  split
  · exact Nat.succ_pos _
  · split <;> exact Nat.succ_pos _

theorem used_punctuation_pos (c : Char) (rest : List Char) : 0 < (punctuation c rest).used := by
  unfold punctuation
  split
  · exact Nat.one_pos
  · split <;> exact Nat.succ_pos _
  · split
    · split <;> exact Nat.succ_pos _
    · split
      · exact used_sliceType_pos rest
      · exact Nat.succ_pos _

def stray : Lexeme := ⟨.string, [], [(0, .badMultiline)], 0⟩

theorem used_read (c : Char) (rest : List Char) :
    0 < (read (c :: rest)).used ∨
      c = '\\' ∧ rest.head? ≠ some '\\' ∧ read (c :: rest) = stray := by
  rw [read]
  split
  · rename_i hc
    left
    simp [word, isWordChar, hc]
  split
  · rename_i hc
    left
    simp [number, hc]
  split
  · left
    exact le_stringBody 1 rest
  split
  · rename_i hc
    obtain rfl : c = '\\' := beq_iff_eq.mp hc
    unfold multiline
    split
    · left
      exact Nat.succ_pos _
    · rename_i hsingle
      right
      refine ⟨rfl, ?_, rfl⟩
      intro hhead
      obtain ⟨more, rfl⟩ := head?_eq_some_iff.mp hhead
      exact hsingle more rfl
  · left
    exact used_punctuation_pos c rest

theorem Spells.kind_ne {kind : TokenKind} {literal : Bytes} {chars : List Char}
    (h : Spells kind literal chars) : kind ≠ .eof ∧ kind ≠ .none := by
  cases h with
  | fixed kind hfixed => constructor <;> rintro rfl <;> cases hfixed
  | _ => decide

end Lexeme

namespace Scanner

/-- A call of the scanner is at the end of the input, moves on, or stays at a backslash that no
other one follows and says so. -/
theorem step_progress (s : Scanner) :
    (s.step.token.kind = .eof ∧ s.step.errors = [] ∧ s.step.next.rest = []) ∨
    s.step.next.rest.length < s.rest.length ∨
    ∃ gap rest, s.rest = gap ++ '\\' :: rest ∧ rest.head? ≠ some '\\' ∧
      s.step.errors = [⟨(gap.foldl Mark.after s.mark).pos s.file, .badMultiline⟩] ∧
      s.step.next = ⟨s.file, '\\' :: rest, gap.foldl Mark.after s.mark⟩ := by
  obtain ⟨gap, rest, hrest, hgap, -⟩ := Lexeme.exists_gap s.rest
  have hmark : s.mark.skip gap.length s.rest = gap.foldl Mark.after s.mark := by
    rw [hrest, Mark.skip_append]
  have hdrop : s.rest.drop gap.length = rest := by rw [hrest, drop_left]
  cases rest with
  | nil =>
    left
    simp [step, hgap, hdrop, Lexeme.read]
  | cons c rest =>
    rcases Lexeme.used_read c rest with hused | ⟨rfl, hhead, hread⟩
    · right; left
      have hlen := congrArg List.length hrest
      simp only [step, hgap, hdrop, length_drop, length_append, length_cons]
        at hlen ⊢
      omega
    · right; right
      refine ⟨gap, rest, hrest, hhead, ?_, ?_⟩
      · simp [step, hgap, hdrop, hmark, hread, Lexeme.stray, Mark.skip]
      · simp [step, hgap, hdrop, hmark, hread, Lexeme.stray, Mark.skip]

/-- Reads tokens up to a fault or the end of the input. There is no answer if `limit` tokens do
not suffice. -/
def tokensWithin : Nat → Scanner → Option (Except LexicalError (List Token))
  | 0, _ => none
  | limit + 1, s =>
    match s.step.errors with
    | error :: _ => some (.error error)
    | [] =>
      if s.step.token.kind = .eof then some (.ok [s.step.token])
      else (tokensWithin limit s.step.next).map (·.map (s.step.token :: ·))

/-- Scanning needs no more tokens than there are characters, and one for the end. -/
theorem tokensWithin_eq (s : Scanner) {limit : Nat} (h : s.rest.length < limit) :
    tokensWithin limit s = some s.tokens := by
  cases limit with
  | zero => cases h
  | succ limit =>
    fun_induction tokens s generalizing limit with
    | case1 s now error errors herrors => simp only [tokensWithin, now, herrors]
    | case2 s now herrors =>
      rename_i hused
      obtain ⟨-, -, htoken⟩ | ⟨gap, lexeme, rest, -, -, hlen, hspell, -⟩ := step_cases herrors
      · simp only [tokensWithin, now, herrors, htoken, if_true]
      · have hne := length_pos_iff.mpr hspell.ne_nil
        simp only [now] at hused
        omega
    | case3 s now herrors n hused ih =>
      obtain ⟨-, hzero, -⟩ | ⟨gap, lexeme, rest, -, -, -, hspell, -⟩ := step_cases herrors
      · simp only [now] at hused
        omega
      have hshorter : now.next.rest.length < s.rest.length := step_next_shorter hused
      cases limit with
      | zero => omega
      | succ limit =>
        have htail := ih limit (by omega)
        rw [tokensWithin, herrors]
        simp only [hspell.kind_ne.1, if_false, now] at htail ⊢
        rw [htail]
        rfl

theorem exists_ending_of_scans {s : Scanner} {tokens : List Token} (h : Scans s tokens) :
    ∃ front last, tokens = front ++ [last] ∧ last.kind = .eof ∧
      ∀ a ∈ front, a.kind ≠ .eof ∧ a.kind ≠ .none := by
  induction h with
  | ending => exact ⟨[], _, rfl, rfl, by simp⟩
  | token _ _ hspell _ _ _ ih =>
    obtain ⟨front, last, rfl, hlast, hfront⟩ := ih
    refine ⟨_ :: front, last, rfl, hlast, ?_⟩
    rintro a (_ | ⟨_, ha⟩)
    · exact hspell.kind_ne
    · exact hfront a ha

end Scanner

/-- A buffer as scanning leaves it: its last token is its only end of input, and every token has a
kind. -/
structure TokenBuffer.Complete (b : TokenBuffer) : Prop where
  last : b.last.kind = .eof
  front : ∀ a ∈ b.front, a.kind ≠ .eof ∧ a.kind ≠ .none

open TokenBuffer

theorem complete_of_tokenize {file source : Bytes} {tokens : List Token}
    (h : tokenize file source = .ok tokens) :
    (ofTokens tokens).Complete ∧ (ofTokens tokens).items = tokens := by
  obtain ⟨front, last, rfl, hlast, hfront⟩ :=
    Scanner.exists_ending_of_scans (Scanner.scans_of_tokens h)
  have hbuffer : ofTokens (front ++ [last]) = ⟨front, last⟩ := by
    simp [ofTokens, hlast]
  rw [hbuffer]
  exact ⟨⟨hlast, hfront⟩, rfl⟩

namespace Tree

namespace HeaderReader

variable {rest : List Token}

variable {α β : Type} {last : Token} {input : List Token}

theorem bind_congr {m : HeaderReader α} {f g : α → HeaderReader β}
    (h : ∀ a rest, m input = .ok (a, rest) → f a rest = g a rest) :
    (m >>= f) input = (m >>= g) input := by
  change (m input >>= fun p => f p.1 p.2) = (m input >>= fun p => g p.1 p.2)
  cases hm : m input with
  | error d => rfl
  | ok p => exact h p.1 p.2 hm

theorem want_shorter {a : Token} (hlast : last.kind = .eof)
    (hk : k ≠ .eof) (h : want last k input = .ok (a, rest)) : rest.length < input.length := by
  have hreads : Grammar.HeaderReader.Reads (want last k >>= Pure.pure) input
      fun _ rest => rest.length < input.length := by
    apply Grammar.HeaderReader.Reads.want hlast hk
    rintro a rest rfl
    exact .ok (by simp)
  rw [bind_pure] at hreads
  exact hreads.result h

theorem valueType_le (hlast : last.kind = .eof)
    (h : valueType last input = .ok (x, rest)) : rest.length ≤ input.length := by
  obtain ⟨t, htoks, -⟩ := (Grammar.HeaderReader.reads_valueType hlast input).result h
  rw [htoks, length_append]
  exact Nat.le_add_left _ _

theorem params_fuel (hlast : last.kind = .eof) {fuel fuel' : Nat} (h : input.length < fuel)
    (h' : input.length < fuel') : params last fuel input = params last fuel' input := by
  induction fuel generalizing fuel' input with
  | zero => cases h
  | succ fuel ih =>
    cases fuel' with
    | zero => cases h'
    | succ fuel' =>
      apply bind_congr
      rintro first input₁ ⟨⟩
      split
      · rfl
      apply bind_congr
      intro name input₂ hname
      apply bind_congr
      intro colon input₃ hcolon
      apply bind_congr
      rintro ⟨type, nullable⟩ input₄ htype
      -- a parameter takes at least its name and its colon, so the fuel lasts for the others
      have hname := want_shorter hlast (by decide) hname
      have hcolon := want_shorter hlast (by decide) hcolon
      have htype := valueType_le hlast htype
      apply bind_congr
      rintro next _ ⟨⟩
      split
      · apply bind_congr
        rintro _ _ ⟨⟩
        have hmore : params last fuel input₄.tail = params last fuel' input₄.tail := by
          apply ih <;> simp only [length_tail] <;> omega
        change (params last fuel input₄.tail >>= _) = (params last fuel' input₄.tail >>= _)
        rw [hmore]
      · rfl

end HeaderReader

namespace Analyzer

open StackItem

variable {a b : Analyzer} {truth : Bool} {pending : List Token} {t : Table} {last : Token}

/-- What a step of the automaton makes smaller. A token that is shifted leaves itself and at most
a marker on the stack. -/
def weight (a : Analyzer) : Nat := 3 * a.pending.length + a.stack.length

theorem length_mark (stack : List StackItem) : (mark stack).length = stack.length + 1 := by
  have hlen := congrArg List.length
    (takeWhile_append_dropWhile (p := (!·.isTerminal)) (l := stack))
  simp only [mark, length_append, length_cons] at hlen ⊢
  omega

theorem weight_step (h : a.step = .next b) : b.weight < a.weight := by
  cases steps_of_step h with
  | reduce hreduce =>
    have hshorter := length_of_reduce? hreduce
    simp only [weight]
    omega
  | shift hstack _ hshift =>
    obtain _ | _ | _ | ⟨hpend, -, hlook⟩ := hshift
    obtain ⟨hrest, hpushed⟩ := look_eq hlook
    have hmark := length_mark a.stack
    simp only [weight, hrest, hpushed, hpend, length_cons]
    rcases hstack with rfl | rfl <;> omega

/-- Runs the automaton for a number of steps. There is no answer if they do not suffice. -/
def runWithin : Nat → Analyzer → Option (Except Diagnostic Unit × Analyzer)
  | 0, _ => none
  | limit + 1, a =>
    match a.step with
    | .accepted b => some (.ok (), b)
    | .failed d b => some (.error d, b)
    | .next b => runWithin limit b

theorem runWithin_eq (a : Analyzer) (h : a.weight < limit) :
    runWithin limit a = some a.run := by
  induction limit generalizing a with
  | zero => cases h
  | succ limit ih =>
    rw [runWithin]
    fun_cases run a with
    | case1 b hstep => simp only [hstep]
    | case2 d b hstep => simp only [hstep]
    | case3 b hstep =>
      have hlighter := weight_step hstep
      simp only [hstep]
      exact ih b (by omega)

/-- The states between the first token and the end of a run. -/
inductive Arises (truth : Bool) (pending : List Token) (last : Token) (t : Table) :
    Analyzer → Prop where
  | look {a : Analyzer} : (start truth pending last t).look = .ok a → Arises truth pending last t a
  | step {a b : Analyzer} : Arises truth pending last t a → a.step = .next b →
      Arises truth pending last t b

theorem Arises.reading (h : Arises truth pending last t a) : Reading truth t pending a := by
  induction h with
  | look hlook => exact .start hlook
  | step _ hstep ih => exact ih.next hstep

theorem Arises.exists_active
     (h : Arises truth pending last t a) : ∃ top, active? a.stack = some top := by
  obtain ⟨ts, hspell, -⟩ := h.reading.spells
  exact Analyzer.exists_active hspell

end Analyzer

end Tree

/-- Causes of a reader that ran out of fuel, or that looked for something where nothing is. -/
def Cause.isSlip : Cause → Bool
  | .parserStuck | .stackWithoutTerminal | .missingParameter _ | .unregistered _ => true
  | _ => false

theorem Cause.isSlip_eq_false {c : Cause} (h : c.kind ≠ .internal) : c.isSlip = false := by
  rw [← Bool.not_eq_true]
  intro hslip
  unfold Cause.isSlip at hslip
  split at hslip
  · exact h rfl
  · exact h rfl
  · exact h rfl
  · exact h rfl
  · cases hslip

/-- Reading ends, whatever is read. Scanning a source ends with an error or with a complete buffer,
after at most one token more than the source has characters. Parsing a complete buffer ends with a
tree or for a reason that lies in the program: no reader runs out of fuel, the first pass finds the
parameters of a header with any fuel that exceeds the tokens, and the automaton always has a
terminal on its stack and ends within a number of steps that tokens and stack bound. A call of the
scanner, in whatever state, is at the end, moves on, or reports a single backslash and stays
there. -/
theorem reading_ends (file source : Bytes) {b : TokenBuffer} {t : Table} (hb : b.Complete)
    (ht : t.inner = []) :
    (Scanner.tokensWithin ((Scanner.characters source).length + 1) (.start file source) =
        some (tokenize file source) ∧
      ∀ tokens, tokenize file source = .ok tokens →
        (ofTokens tokens).Complete ∧ (ofTokens tokens).items = tokens) ∧
    ((∀ d u, Tree.parse b t = .error d u → d.kind ≠ .internal ∧ d.cause.isSlip = false) ∧
      (∀ input fuel, input.length < fuel →
        Tree.HeaderReader.params b.last fuel input =
          Tree.HeaderReader.params b.last (input.length + 1) input) ∧
      ∀ truth pending u a, Tree.Analyzer.Arises truth pending b.last u a →
        (∃ top, Tree.StackItem.active? a.stack = some top) ∧
          Tree.Analyzer.runWithin (3 * a.pending.length + a.stack.length + 1) a = some a.run) ∧
    ∀ s : Scanner,
      (s.step.token.kind = .eof ∧ s.step.errors = [] ∧ s.step.next.rest = []) ∨
      s.step.next.rest.length < s.rest.length ∨
      ∃ gap rest, s.rest = gap ++ '\\' :: rest ∧ rest.head? ≠ some '\\' ∧
        s.step.errors = [⟨(gap.foldl Mark.after s.mark).pos s.file, .badMultiline⟩] ∧
        s.step.next = ⟨s.file, '\\' :: rest, gap.foldl Mark.after s.mark⟩ := by
  refine ⟨⟨?_, ?_⟩, ⟨?_, ?_, ?_⟩, Scanner.step_progress⟩
  · exact Scanner.tokensWithin_eq _ (Nat.lt_succ_self _)
  · exact fun tokens h => complete_of_tokenize h
  · intro d u hparse
    have hends := Grammar.ends_parse hb.last ht
    rw [hparse] at hends
    cases hends with
    | error hord => exact ⟨hord.ne, Cause.isSlip_eq_false hord.ne⟩
  · exact fun input fuel h => Tree.HeaderReader.params_fuel hb.last h (Nat.lt_succ_self _)
  · intro truth pending u a h
    exact ⟨h.exists_active, Tree.Analyzer.runWithin_eq a (Nat.lt_succ_self _)⟩

/-- A single backslash, and a header that breaks off. -/
theorem reading_ends_early :
    (∃ e, tokenize "t" "\\" = .error e) ∧
      ∃ d u, Tree.parse ⟨[⟨.kwPub, "pub", .none⟩], ⟨.eof, [], .none⟩⟩ (.fresh .fnv1a true) =
        .error d u ∧ d.kind ≠ .internal := by
  obtain ⟨⟨hscan, -⟩, ⟨hparse, -⟩, -⟩ := reading_ends "t" "\\"
    (b := ⟨[⟨.kwPub, "pub", .none⟩], ⟨.eof, [], .none⟩⟩) (t := .fresh .fnv1a true)
    ⟨rfl, by decide⟩ rfl
  exact ⟨⟨_, Option.some.inj (hscan.symm.trans rfl)⟩, _, _, rfl, (hparse _ _ rfl).1⟩

end Ifj24
