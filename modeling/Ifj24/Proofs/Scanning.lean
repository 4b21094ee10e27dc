import Ifj24.Proofs.Decoding
import Ifj24.Proofs.LexicalGrammar

/-!
Scanning covers the source. A source that is scanned without a fault is a sequence of gaps and
lexemes, a token for each lexeme and one for the end. The place of a token counts the newlines
before its lexeme and the glyphs since the last of them, so places increase from token to token.
-/

open List

namespace Ifj24

open Utf8 (Decodes)

namespace Mark

theorem skip_append (m : Mark) (front rest : List Char) :
    m.skip front.length (front ++ rest) = front.foldl after m := by
  induction front generalizing m with
  | nil => rfl
  | cons c front ih => exact ih (m.after c)

end Mark

open Mark

namespace Scanner

open Lexeme (Gap Spells)

variable {s : Scanner}

theorem characters_ofChars (chars : List Char) : characters (Bytes.ofChars chars) = chars := by
  rw [characters, Bytes.glyphs_ofChars, map_map]
  exact map_id chars

theorem tokens_of_used_eq (herrors : s.step.errors = []) (hused : s.step.used = 0) :
    s.tokens = .ok [s.step.token] := by
  rw [tokens]
  simp only [herrors]
  split
  · rfl
  · omega

theorem tokens_of_used_ne (herrors : s.step.errors = []) (hused : s.step.used ≠ 0) :
    s.tokens = s.step.next.tokens.map (s.step.token :: ·) := by
  rw [tokens]
  simp only [herrors]
  split
  · omega
  · rfl

/-- The tokens of what is left of a source: gaps and lexemes in turn, then the end. -/
inductive Scans : Scanner → List Token → Prop where
  | ending {s : Scanner} : Gap true s.rest →
      Scans s [⟨.eof, [], (s.rest.foldl after s.mark).pos s.file⟩]
  | token {s : Scanner} {t : Token} {gap lexeme rest : List Char} {tokens : List Token} :
      s.rest = gap ++ lexeme ++ rest → Gap false gap → Spells t.kind t.literal lexeme →
      Lexeme.read (lexeme ++ rest) = ⟨t.kind, t.literal, [], lexeme.length⟩ →
      t.pos = (gap.foldl after s.mark).pos s.file →
      Scans ⟨s.file, rest, (gap ++ lexeme).foldl after s.mark⟩ tokens → Scans s (t :: tokens)

/-- A step without a fault reads a gap and then a lexeme, or a gap up to the end. -/
theorem step_cases {s : Scanner} (h : s.step.errors = []) :
    (Gap true s.rest ∧ s.step.used = 0 ∧
      s.step.token = ⟨.eof, [], (s.rest.foldl after s.mark).pos s.file⟩) ∨
    ∃ gap lexeme rest, s.rest = gap ++ lexeme ++ rest ∧ Gap false gap ∧
      s.step.used = lexeme.length ∧ Spells s.step.token.kind s.step.token.literal lexeme ∧
      Lexeme.read (lexeme ++ rest) =
        ⟨s.step.token.kind, s.step.token.literal, [], lexeme.length⟩ ∧
      s.step.token.pos = (gap.foldl after s.mark).pos s.file ∧
      s.step.next = ⟨s.file, rest, (gap ++ lexeme).foldl after s.mark⟩ := by
  obtain ⟨gap, rest, hrest, hgap, hblank⟩ := Lexeme.exists_gap s.rest
  have hfaults : (Lexeme.read rest).faults = [] := by
    have hmap : (Lexeme.read (s.rest.drop (Lexeme.gap s.rest))).faults = [] :=
      map_eq_nil_iff.mp h
    rwa [hgap, hrest, drop_left] at hmap
  have hmark : s.mark.skip gap.length s.rest = gap.foldl after s.mark := by
    rw [hrest, skip_append]
  have hdrop : s.rest.drop gap.length = rest := by rw [hrest, drop_left]
  cases rest with
  | nil =>
    left
    rw [append_nil] at hrest
    simp only [step, hgap, hmark, hdrop, Lexeme.read]
    rw [hrest]
    exact ⟨hblank, trivial, rfl⟩
  | cons c rest =>
    right
    obtain ⟨lexeme, after, hlexeme, hused, hspell⟩ := Lexeme.fronts_read hfaults
    refine ⟨gap, lexeme, after, by rw [hrest, hlexeme, append_assoc], hblank, ?_⟩
    simp only [step, hgap, hmark, hdrop, hused]
    refine ⟨trivial, hspell, ?_, trivial, ?_⟩
    · rw [← hlexeme, ← hused, ← hfaults]
    · rw [hlexeme, drop_left, skip_append, foldl_append]

theorem scans_of_tokens {s : Scanner} {tokens : List Token} (h : s.tokens = .ok tokens) :
    Scans s tokens := by
  fun_induction Scanner.tokens s generalizing tokens with
  | case1 => cases h
  | case2 s now herrors =>
    rename_i hused
    cases h
    obtain ⟨hgap, -, htoken⟩ | ⟨gap, lexeme, rest, -, -, hlen, hspell, -⟩ :=
      step_cases herrors
    · simp only [now, htoken]
      exact .ending hgap
    · have hne := length_pos_iff.mpr hspell.ne_nil
      simp only [now] at hused
      omega
  | case3 s now herrors n hused =>
    rename_i ih
    obtain ⟨-, hzero, -⟩ | ⟨gap, lexeme, rest, hrest, hgap, -, hspell, hread, hpos, hnext⟩ :=
      step_cases herrors
    · simp only [now] at hused
      omega
    cases htoks : now.next.tokens with
    | error e => simp [htoks, Except.map] at h
    | ok tail =>
      simp only [htoks, Except.map, Except.ok.injEq] at h
      subst h
      have htail := ih htoks
      simp only [now, hnext] at htail
      exact .token hrest hgap hspell hread hpos htail

theorem Scans.exists_front {s : Scanner} {tokens : List Token} (h : Scans s tokens) :
    ∃ front stop, tokens = front ++ [⟨.eof, [], stop⟩] ∧
      ∀ t ∈ front, ∃ chars, Spells t.kind t.literal chars := by
  induction h with
  | ending => exact ⟨[], _, rfl, by simp⟩
  | token _ _ hspell _ _ _ ih =>
    obtain ⟨front, stop, rfl, hfront⟩ := ih
    refine ⟨_ :: front, stop, rfl, ?_⟩
    intro t ht
    rcases mem_cons.mp ht with rfl | ht
    · exact ⟨_, hspell⟩
    · exact hfront t ht

end Scanner

/-! Places of tokens -/

namespace Glyph

def newlines (glyphs : List Glyph) : Nat := glyphs.count (.scalar '\n')

def column (glyphs : List Glyph) : Nat :=
  (glyphs.reverse.takeWhile (· != .scalar '\n')).length

theorem newlines_column_snoc (glyphs : List Glyph) (g : Glyph) :
    (newlines (glyphs ++ [g]), column (glyphs ++ [g])) =
      if g = .scalar '\n' then (newlines glyphs + 1, 0) else (newlines glyphs, column glyphs + 1) := by
  split
  · rename_i hg
    simp [newlines, column, hg]
  · rename_i hg
    simp [newlines, column, hg]

theorem newlines_le (glyphs : List Glyph) : newlines glyphs ≤ glyphs.length := count_le_length

theorem column_le (glyphs : List Glyph) : column glyphs ≤ glyphs.length := by
  have hle := ( takeWhile_prefix (l := glyphs.reverse) (· != Glyph.scalar '\n')).length_le
  rwa [length_reverse] at hle

theorem later_append (front : List Glyph) (h : more ≠ []) :
    newlines front < newlines (front ++ more) ∨
      newlines front = newlines (front ++ more) ∧ column front < column (front ++ more) := by
  induction more generalizing front with
  | nil => exact absurd rfl h
  | cons g more ih =>
    have hstep : newlines front < newlines (front ++ [g]) ∨
        newlines front = newlines (front ++ [g]) ∧ column front < column (front ++ [g]) := by
      have hsnoc := newlines_column_snoc front g
      split at hsnoc <;> obtain ⟨hline, hcol⟩ := Prod.mk.inj hsnoc <;> omega
    cases more with
    | nil => exact hstep
    | cons d more =>
      have hrest := ih (front ++ [g]) (by simp)
      rw [append_assoc, singleton_append] at hrest
      omega

/-- Each stray byte is outside ASCII, so none of them is read as a newline. -/
def Strays (glyphs : List Glyph) : Prop := ∀ b, .stray b ∈ glyphs → 0x80 ≤ b.toNat

theorem strays_append :
    Strays (front ++ more) ↔ Strays front ∧ Strays more := by
  simp only [Strays, mem_append, or_imp, forall_and]

theorem latin_eq_newline (h : Strays [g]) : g.latin = '\n' ↔ g = .scalar '\n' := by
  cases g with
  | scalar c => simp [latin]
  | stray b =>
    have hlow := h b (by simp)
    have hb : b.toNat < 256 := b.toNat_lt
    have hvalue := Utf8.toNat_ofNat (n := b.toNat) (by omega)
    constructor
    · intro hlatin
      rw [show Char.ofNat b.toNat = '\n' from hlatin] at hvalue
      have hten : ('\n').val.toNat = 10 := rfl
      omega
    · intro hglyph
      cases hglyph

end Glyph

namespace Mark

open Glyph (newlines column)

def behind (before : List Glyph) : Mark :=
  ⟨UInt32.ofNat (1 + newlines before), UInt32.ofNat (1 + column before)⟩

theorem after_behind (h : Glyph.Strays [g]) :
    (behind before).after g.latin = behind (before ++ [g]) := by
  have hsnoc := Glyph.newlines_column_snoc before g
  simp only [after, behind, Glyph.latin_eq_newline h]
  split at hsnoc
  · rename_i hg
    obtain ⟨hline, hcol⟩ := Prod.mk.inj hsnoc
    rw [if_pos hg, hline, hcol, ← Nat.add_assoc, UInt32.ofNat_add (1 + newlines before)]
    rfl
  · rename_i hg
    obtain ⟨hline, hcol⟩ := Prod.mk.inj hsnoc
    rw [if_neg hg, hline, hcol, ← Nat.add_assoc, UInt32.ofNat_add (1 + column before)]
    rfl

theorem foldl_behind (h : Glyph.Strays glyphs) :
    (glyphs.map Glyph.latin).foldl after (behind before) = behind (before ++ glyphs) := by
  induction glyphs generalizing before with
  | nil => rw [append_nil]; rfl
  | cons g glyphs ih =>
    obtain ⟨hg, hglyphs⟩ := Glyph.strays_append.mp (show Glyph.Strays ([g] ++ glyphs) from h)
    rw [map_cons, foldl_cons, after_behind hg, ih hglyphs, append_assoc,
      singleton_append]

end Mark

/-- The place behind glyphs from the start of a file, counted without a limit. -/
structure Located (file : Bytes) (before : List Glyph) (p : Pos) : Prop where
  file : p.file = file
  line : p.line.toNat = 1 + Glyph.newlines before
  col : p.col.toNat = 1 + Glyph.column before

theorem located_behind (h : before.length + 1 < UInt32.size) :
    Located file before ((behind before).pos file) := by
  have hline := Glyph.newlines_le before
  have hcol := Glyph.column_le before
  exact ⟨rfl, UInt32.toNat_ofNat_of_lt' (by omega), UInt32.toNat_ofNat_of_lt' (by omega)⟩

theorem Located.before {file : Bytes} {front more : List Glyph} {p q : Pos} (h : more ≠ [])
    (hp : Located file front p) (hq : Located file (front ++ more) q) : p.before q = true := by
  have hlater := Glyph.later_append front h
  have hline : p.line = q.line ↔ p.line.toNat = q.line.toNat := UInt32.toNat_inj.symm
  have hpline := hp.line
  have hqline := hq.line
  have hpcol := hp.col
  have hqcol := hq.col
  unfold Pos.before
  split
  · rename_i hne
    have hne : ¬ p.line.toNat = q.line.toNat := by simpa [hline] using hne
    simp only [UInt32.lt_iff_toNat_lt, decide_eq_true_eq]
    omega
  · rename_i heq
    have heq : p.line.toNat = q.line.toNat := by simpa [hline] using heq
    simp only [UInt32.lt_iff_toNat_lt, decide_eq_true_eq]
    omega

/-- A token with the glyphs that it is read from, and the gap before them. -/
structure Piece where
  gap : List Glyph
  lexeme : List Glyph
  token : Token
  blank : Lexeme.Gap false (gap.map Glyph.latin)
  spells : Lexeme.Spells token.kind token.literal (lexeme.map Glyph.latin)

namespace Piece

def glyphs (p : Piece) : List Glyph := p.gap ++ p.lexeme

/-- Each token stands behind the glyphs of the pieces before it and its own gap. -/
def Stand (file : Bytes) (before : List Glyph) (pieces : List Piece) : Prop :=
  ∀ front p back, pieces = front ++ p :: back →
    p.token.pos = (behind (before ++ front.flatMap glyphs ++ p.gap)).pos file

theorem Stand.cons {file : Bytes} {before : List Glyph} {p : Piece} {pieces : List Piece}
    (hp : p.token.pos = (behind (before ++ p.gap)).pos file)
    (h : Stand file (before ++ p.glyphs) pieces) : Stand file before (p :: pieces) := by
  intro front q back hpieces
  cases front with
  | nil =>
    obtain ⟨rfl, -⟩ := List.cons.inj hpieces
    simpa using hp
  | cons first front =>
    obtain ⟨rfl, hback⟩ := List.cons.inj hpieces
    simpa using h front q back hback

/-- Each token is what is read at the front of its lexeme and all that comes behind. -/
def Reads (last : List Glyph) (pieces : List Piece) : Prop :=
  ∀ front p back, pieces = front ++ p :: back →
    Lexeme.read ((p.lexeme ++ (back.flatMap glyphs ++ last)).map Glyph.latin) =
      ⟨p.token.kind, p.token.literal, [], p.lexeme.length⟩

theorem Reads.cons {last : List Glyph} {p : Piece} {pieces : List Piece}
    (hp : Lexeme.read ((p.lexeme ++ (pieces.flatMap glyphs ++ last)).map Glyph.latin) =
      ⟨p.token.kind, p.token.literal, [], p.lexeme.length⟩)
    (h : Reads last pieces) : Reads last (p :: pieces) := by
  intro front q back hpieces
  cases front with
  | nil =>
    obtain ⟨rfl, rfl⟩ := List.cons.inj hpieces
    exact hp
  | cons first front => exact h front q back (List.cons.inj hpieces).2

end Piece

theorem exists_pieces {s : Scanner} {tokens : List Token} (h : s.Scans tokens)
    (before : List Glyph) {input : List Glyph} (hrest : s.rest = input.map Glyph.latin)
    (hmark : s.mark = behind before) (hstray : Glyph.Strays input) :
    ∃ pieces last, input = pieces.flatMap Piece.glyphs ++ last ∧
      Lexeme.Gap true (last.map Glyph.latin) ∧ Piece.Stand s.file before pieces ∧
      tokens = pieces.map Piece.token ++ [⟨.eof, [], (behind (before ++ input)).pos s.file⟩] ∧
      Piece.Reads last pieces := by
  induction h generalizing before input with
  | @ending s hgap =>
    refine ⟨[], input, rfl, hrest ▸ hgap, ?_, ?_⟩
    · intro front p back hnil
      simp at hnil
    · rw [hrest, hmark, foldl_behind hstray]
      refine ⟨rfl, fun front p back hnil => ?_⟩
      simp at hnil
  | @token s t gap lexeme rest tokens hsplit hgap hspell hread hpos _ ih =>
    rw [hrest] at hsplit
    obtain ⟨front, rest, rfl, htaken, rfl⟩ := map_eq_append_iff.mp hsplit
    obtain ⟨gap, lexeme, rfl, rfl, rfl⟩ := map_eq_append_iff.mp htaken
    obtain ⟨hfront, hrest⟩ := Glyph.strays_append.mp hstray
    have hnext : ((gap.map Glyph.latin ++ lexeme.map Glyph.latin).foldl after s.mark) =
        behind (before ++ (gap ++ lexeme)) := by
      rw [hmark, ← map_append, foldl_behind hfront]
    obtain ⟨pieces, last, rfl, hlast, hstand, rfl, hreads⟩ := ih _ rfl hnext hrest
    refine ⟨⟨gap, lexeme, t, hgap, hspell⟩ :: pieces, last, ?_, hlast, ?_, ?_, ?_⟩
    · simp [Piece.glyphs]
    · refine .cons ?_ hstand
      rw [hpos, hmark, foldl_behind (Glyph.strays_append.mp hfront).1]
    · simp
    · refine .cons ?_ hreads
      rw [map_append, hread, length_map]

/-- The pieces of a source without lexical faults, with what their tokens are read from. -/
theorem exists_pieces_of_tokenize {file source : Bytes} {tokens : List Token}
    (h : tokenize file source = .ok tokens) :
    ∃ pieces last, Decodes (pieces.flatMap Piece.glyphs ++ last) source ∧
      Glyph.Strays (pieces.flatMap Piece.glyphs ++ last) ∧
      Lexeme.Gap true (last.map Glyph.latin) ∧ Piece.Stand file [] pieces ∧
      tokens = pieces.map Piece.token ++
        [⟨.eof, [], (behind (pieces.flatMap Piece.glyphs ++ last)).pos file⟩] ∧
      Piece.Reads last pieces := by
  have hdecodes := source.decodes_glyphs
  have hstrays : Glyph.Strays source.glyphs := fun b hb => hdecodes.le_of_stray hb
  obtain ⟨pieces, last, hinput, hlast, hstand, htoks, hreads⟩ :=
    exists_pieces (Scanner.scans_of_tokens h) [] rfl rfl hstrays
  rw [hinput] at hdecodes hstrays htoks
  exact ⟨pieces, last, hdecodes, hstrays, hlast, hstand, htoks, hreads⟩

namespace Piece

theorem lexeme_ne_nil (p : Piece) : p.lexeme ≠ [] := by
  intro hnil
  exact p.spells.ne_nil (by rw [hnil, map_nil])

theorem length_before_lt (front back : List Piece) (p : Piece) (last : List Glyph) :
    (front.flatMap glyphs ++ p.gap).length <
      ((front ++ p :: back).flatMap glyphs ++ last).length := by
  have hlexeme := length_pos_iff.mpr p.lexeme_ne_nil
  simp only [flatMap_append, flatMap_cons, length_append, glyphs]
  omega

end Piece

theorem length_glyphs_le (h : Decodes glyphs source) :
    glyphs.length ≤ source.length := by
  induction h with
  | nil => exact Nat.le_refl _
  | scalar c _ ih =>
    have hpositive := length_pos_iff.mpr (String.utf8EncodeChar_ne_nil (c := c))
    rw [length_cons, length_append]
    omega
  | stray b _ _ ih =>
    rw [length_cons, length_cons]
    omega

def Increasing (tokens : List Token) : Prop := tokens.Pairwise fun t u => t.pos.before u.pos = true

theorem Located.before_piece {file : Bytes} {before more : List Glyph} {p : Piece} {q : Pos}
    (hp : Located file (before ++ p.gap) p.token.pos)
    (hq : Located file (before ++ p.glyphs ++ more) q) : p.token.pos.before q = true := by
  have hmore : p.lexeme ++ more ≠ [] := by simp [p.lexeme_ne_nil]
  refine Located.before hmore hp ?_
  simpa [Piece.glyphs] using hq

theorem increasing_append {file : Bytes} (before : List Glyph) {pieces : List Piece}
    {ending : List Token} (hpieces : ∀ front p back, pieces = front ++ p :: back →
      Located file (before ++ front.flatMap Piece.glyphs ++ p.gap) p.token.pos)
    (hending : ∀ t ∈ ending, ∃ last,
      Located file (before ++ pieces.flatMap Piece.glyphs ++ last) t.pos)
    (hincreasing : Increasing ending) : Increasing (pieces.map Piece.token ++ ending) := by
  induction pieces generalizing before with
  | nil => exact hincreasing
  | cons p pieces ih =>
    have hp : Located file (before ++ p.gap) p.token.pos := by
      simpa using hpieces [] p pieces rfl
    have htail (front : List Piece) (q : Piece) (back : List Piece)
        (hsplit : pieces = front ++ q :: back) :
        Located file (before ++ p.glyphs ++ front.flatMap Piece.glyphs ++ q.gap) q.token.pos := by
      simpa using hpieces (p :: front) q back (by rw [hsplit, cons_append])
    apply pairwise_cons.mpr
    refine ⟨fun t ht => ?_, ih _ htail (by simpa using hending)⟩
    rcases mem_append.mp ht with ht | ht
    · obtain ⟨q, hq, rfl⟩ := mem_map.mp ht
      obtain ⟨front, back, hsplit⟩ := append_of_mem hq
      have hqplace := htail front q back hsplit
      rw [append_assoc] at hqplace
      exact hp.before_piece hqplace
    · obtain ⟨last, htplace⟩ := hending t ht
      rw [flatMap_cons, ← append_assoc, append_assoc] at htplace
      exact hp.before_piece htplace

/-- A source as pieces and a last gap: nothing else is in it, there is a token for each piece and
one for the end, and each token with a lexeme stands where its lexeme starts. -/
structure Covers (file source : Bytes) (tokens : List Token) (pieces : List Piece)
    (last : List Glyph) (stop : Pos) : Prop where
  source_eq : source = (pieces.flatMap Piece.glyphs ++ last).flatMap Glyph.bytes
  decodes : Decodes (pieces.flatMap Piece.glyphs ++ last) source
  gap : Lexeme.Gap true (last.map Glyph.latin)
  tokens_eq : tokens = pieces.map Piece.token ++ [⟨.eof, [], stop⟩]
  located : ∀ front p back, pieces = front ++ p :: back →
    Located file (front.flatMap Piece.glyphs ++ p.gap) p.token.pos
  increasing : Increasing (pieces.map Piece.token)

/-- A source of less than `2 ^ 32` bytes without lexical faults is the concatenation of gaps and
lexemes, with a token for each lexeme and one for the end. The tokens with a lexeme stand at its
line and column, and their places increase. The end token has line and column modulo `2 ^ 32`;
of less than `2 ^ 32 - 1` bytes, they are exact too, and the places of all tokens increase. -/
theorem tokenize_covers_source {file source : Bytes} {tokens : List Token}
    (hsize : source.length < UInt32.size) (h : tokenize file source = .ok tokens) :
    ∃ pieces last stop, Covers file source tokens pieces last stop ∧
      stop = (behind (pieces.flatMap Piece.glyphs ++ last)).pos file ∧
      (source.length < UInt32.size - 1 →
        Located file (pieces.flatMap Piece.glyphs ++ last) stop ∧ Increasing tokens) := by
  obtain ⟨pieces, last, hdecodes, -, hlast, hstand, htoks, -⟩ := exists_pieces_of_tokenize h
  have hlen := length_glyphs_le hdecodes
  have hlocated (front : List Piece) (p : Piece) (back : List Piece)
      (hsplit : pieces = front ++ p :: back) :
      Located file (front.flatMap Piece.glyphs ++ p.gap) p.token.pos := by
    have hless := Piece.length_before_lt front back p last
    rw [← hsplit] at hless
    rw [hstand front p back hsplit]
    exact located_behind (by omega)
  have hincreasing : Increasing (pieces.map Piece.token) := by
    rw [← append_nil (pieces.map Piece.token)]
    exact increasing_append [] hlocated (by simp) .nil
  refine ⟨pieces, last, _,
    ⟨hdecodes.bytes_eq.symm, hdecodes, hlast, htoks, hlocated, hincreasing⟩, rfl, fun hsize => ?_⟩
  have hstop : Located file (pieces.flatMap Piece.glyphs ++ last)
      ((behind (pieces.flatMap Piece.glyphs ++ last)).pos file) := located_behind (by omega)
  refine ⟨hstop, ?_⟩
  rw [htoks]
  apply increasing_append [] hlocated
  · intro t ht
    rw [mem_singleton.mp ht]
    exact ⟨last, hstop⟩
  · exact pairwise_singleton _ _

/-- A comment with a byte that is no UTF-8, and a name after a character of two bytes. -/
def straySource : Bytes := ("// " : Bytes) ++ [0xFF] ++ ("\n\"ž\" x" : Bytes)

def strayTokens : List Token :=
  [⟨.string, "ž", ⟨"t", 2, 1⟩⟩, ⟨.name, "x", ⟨"t", 2, 5⟩⟩, ⟨.eof, [], ⟨"t", 2, 6⟩⟩]

theorem eq_ok_of_toOption {ε α : Type} {x : Except ε α} {a : α} (h : x.toOption = some a) :
    x = .ok a := by
  cases x with
  | error e => cases h
  | ok b => rw [Option.some.inj h]

theorem tokenize_covers_straySource :
    straySource.length < UInt32.size - 1 ∧ tokenize "t" straySource = .ok strayTokens ∧
      ∃ pieces last stop, Covers "t" straySource strayTokens pieces last stop ∧
        Located "t" (pieces.flatMap Piece.glyphs ++ last) stop ∧ Increasing strayTokens := by
  have hsize : straySource.length < UInt32.size - 1 := by decide
  have htoks : tokenize "t" straySource = .ok strayTokens := eq_ok_of_toOption (by decide +kernel)
  obtain ⟨pieces, last, stop, hcovers, -, hexact⟩ := tokenize_covers_source (by omega) htoks
  exact ⟨hsize, htoks, pieces, last, stop, hcovers, hexact hsize⟩

/-! The end of the longest sources -/

theorem Lexeme.gap_blanks (n : Nat) : gap (replicate n ' ') = n := by
  induction n with
  | zero => rfl
  | succ n ih =>
    have hblank : isBlank ' ' = true := by decide
    rw [replicate_succ, gap, gapFrom, if_pos hblank, ← gap, ih, Nat.add_comm]

theorem Lexeme.read_name_blanks (n : Nat) :
    read ('x' :: replicate n ' ') = ⟨.name, "x", [], 1⟩ := by
  have hword : ('x' :: replicate n ' ').takeWhile isWordChar = ['x'] := by
    cases n with
    | zero => rfl
    | succ n => rw [replicate_succ]; rfl
  have hletter : isLetter 'x' = true := by decide
  rw [read, if_pos hletter, word, hword]
  rfl

theorem Mark.skip_blanks (n : Nat) (m : Mark) :
    m.skip n (replicate n ' ') = ⟨m.line, m.col + UInt32.ofNat n⟩ := by
  induction n generalizing m with
  | zero => simp [skip]
  | succ n ih =>
    have hafter : m.after ' ' = ⟨m.line, m.col + 1⟩ := by simp [after]
    rw [replicate_succ, skip, hafter, ih, Nat.add_comm n 1, UInt32.ofNat_add, UInt32.add_assoc]
    rfl

/-- The end of a name and blanks is in a column that counts them all, modulo `2 ^ 32`. -/
theorem tokenize_name_blanks (file : Bytes) (n : Nat) :
    tokenize file (0x78 :: replicate n 0x20) =
      .ok [⟨.name, "x", ⟨file, 1, 1⟩⟩, ⟨.eof, [], ⟨file, 1, 2 + UInt32.ofNat n⟩⟩] := by
  have hsource : (0x78 :: replicate n 0x20 : Bytes) = Bytes.ofChars ('x' :: replicate n ' ') := by
    rw [Bytes.ofChars, flatMap_cons, flatMap_replicate,
      show String.utf8EncodeChar ' ' = [0x20] by decide, flatten_replicate_singleton]
    rfl
  have hstart : (Scanner.start file (0x78 :: replicate n 0x20)).step =
      ⟨⟨.name, "x", ⟨file, 1, 1⟩⟩, [], 1, ⟨file, replicate n ' ', ⟨1, 2⟩⟩⟩ := by
    rw [hsource, Scanner.start, Scanner.characters_ofChars]
    have hgap : Lexeme.gap ('x' :: replicate n ' ') = 0 := by
      simp [Lexeme.gap, Lexeme.gapFrom, Lexeme.isBlank]
    simp only [Scanner.step, hgap, drop_zero, Lexeme.read_name_blanks]
    rfl
  have hend : (Scanner.mk file (replicate n ' ') ⟨1, 2⟩).step =
      ⟨⟨.eof, [], ⟨file, 1, 2 + UInt32.ofNat n⟩⟩, [], 0,
        ⟨file, [], ⟨1, 2 + UInt32.ofNat n⟩⟩⟩ := by
    simp only [Scanner.step, Lexeme.gap_blanks, Mark.skip_blanks, drop_replicate, Nat.sub_self]
    rfl
  rw [tokenize, Scanner.tokens_of_used_ne (by rw [hstart]) (by rw [hstart]; exact Nat.one_ne_zero), hstart,
    Scanner.tokens_of_used_eq (by rw [hend]) (by rw [hend]), hend]
  rfl

/-- The end of the longest sources need not be exact. After a name and so many blanks that one byte
more would make the source too long, it is in column `2 ^ 32`, which no word holds, and the end
token does not stand behind the name. -/
theorem tokenize_end_wraps :
    let source : Bytes := 0x78 :: replicate (UInt32.size - 2) 0x20
    source.length < UInt32.size ∧
    ∃ tokens, tokenize "t" source = .ok tokens ∧
      tokens.map Token.pos = [⟨"t", 1, 1⟩, ⟨"t", 1, 0⟩] ∧ ¬ Increasing tokens ∧
      ∀ before, ¬ Located "t" before ⟨"t", 1, 0⟩ := by
  intro source
  have hlength : source.length < UInt32.size := by
    rw [length_cons, length_replicate]
    decide
  refine ⟨hlength, _, tokenize_name_blanks "t" (UInt32.size - 2), by decide, ?_, ?_⟩
  · intro hincreasing
    have hbefore := (pairwise_cons.mp hincreasing).1 _ mem_cons_self
    revert hbefore
    decide
  · intro before hlocated
    have hcol : 0 = 1 + Glyph.column before := hlocated.col
    omega

end Ifj24
