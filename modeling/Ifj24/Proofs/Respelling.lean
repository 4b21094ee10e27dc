import Ifj24.Proofs.Scanning

/-!
Token streams survive respelling. Each token has a canonical spelling on one line, in which
every byte of a string is escaped. The canonical spellings of the tokens of a source, with
blanks between them, are scanned into the same tokens at other places.
-/

open List

namespace Ifj24

variable {rest chars front : List Char} {kind : TokenKind} {literal : Bytes}

namespace Lexeme

inductive Stops : List Char → Prop where
  | ending : Stops []
  | blank (rest : List Char) : Stops (' ' :: rest)

theorem Stops.head_eq (h : Stops rest) (hc : rest.head? = some c) : c = ' ' := by
  cases h with
  | ending => cases hc
  | blank => exact (Option.some.inj hc).symm

theorem takeWhile_append (hchars : ∀ c ∈ chars, p c = true)
    (hrest : ∀ c, rest.head? = some c → p c = false) : (chars ++ rest).takeWhile p = chars := by
  rw [takeWhile_append_of_pos hchars]
  cases rest with
  | nil => simp
  | cons c rest => rw [takeWhile_cons_of_neg (by simp [hrest c rfl]), append_nil]

theorem read_word (h : IsWord chars) (hstop : Stops rest) :
    read (chars ++ rest) =
      ⟨if chars = ['_'] then .discard else TokenKind.ofWord (Bytes.ofChars chars),
        Bytes.ofChars chars, [], chars.length⟩ := by
  have htake : (chars ++ rest).takeWhile isWordChar = chars := by
    apply takeWhile_append h.letters
    intro c hc
    rw [hstop.head_eq hc]
    rfl
  obtain ⟨c, more, rfl, hc⟩ := h.starts
  rw [cons_append] at htake ⊢
  rw [read, if_pos hc]
  simp only [word, htake]

theorem head_fraction (h : IsFraction point) (hc : (point ++ rest).head? = some c) :
    c = '.' ∨ rest.head? = some c := by
  cases h with
  | none => exact .inr hc
  | some => exact .inl (Option.some.inj hc).symm

theorem head_exponent (h : IsExponent power) (hc : (power ++ rest).head? = some c) :
    c = 'e' ∨ c = 'E' ∨ rest.head? = some c := by
  cases h with
  | none => exact .inr (.inr hc)
  | some hmark =>
    cases hc
    rcases hmark with hmark | hmark
    · exact .inl hmark
    · exact .inr (.inl hmark)

theorem fraction_append (offset : Nat) (h : IsFraction point)
    (hrest : ∀ c, rest.head? = some c → c ≠ '.' ∧ isDigit c = false) :
    fraction offset (point ++ rest) = (point, []) := by
  cases h with
  | none =>
    rw [nil_append, fraction]
    rintro tail rfl
    exact (hrest '.' rfl).1 rfl
  | some hdig =>
    have htake := takeWhile_append hdig.digits fun c hc => (hrest c hc).2
    simp only [cons_append, fraction, htake]
    rw [if_neg (by simpa using hdig.nonempty)]

theorem sign_append (hsign : IsSign front) (hdig : IsDigits digits) :
    sign (front ++ (digits ++ rest)) = front := by
  cases hsign with
  | none =>
    cases digits with
    | nil => exact absurd rfl hdig.nonempty
    | cons d digits =>
      have hd := hdig.digits d mem_cons_self
      rw [nil_append, cons_append, sign]
      · rintro tail htail
        cases htail
        cases hd
      · rintro tail htail
        cases htail
        cases hd
  | plus => rfl
  | minus => rfl

theorem exponent_append (offset : Nat) (h : IsExponent power)
    (hrest : ∀ c, rest.head? = some c → c ≠ 'e' ∧ c ≠ 'E' ∧ isDigit c = false) :
    exponent offset (power ++ rest) = (power, []) := by
  cases h with
  | none =>
    cases rest with
    | nil => rfl
    | cons c rest =>
      obtain ⟨hlower, hupper, -⟩ := hrest c rfl
      rw [nil_append, exponent, if_neg (by simp [hlower, hupper])]
  | some hmark hsign hdig =>
    rename_i mark front digits
    have htake := takeWhile_append hdig.digits fun c hc => (hrest c hc).2.2
    rw [append_assoc, cons_append, exponent, if_pos (by simpa using hmark)]
    simp only [sign_append hsign hdig, drop_left, htake]
    rw [if_neg (by simpa using hdig.nonempty)]

theorem isDigit_iff_toNat : isDigit c = true ↔ 48 ≤ c.toNat ∧ c.toNat ≤ 57 := by
  simp [isDigit, Char.le_def, UInt32.le_iff_toNat_le]

theorem isLetter_iff_toNat : isLetter c = true ↔
    97 ≤ c.toNat ∧ c.toNat ≤ 122 ∨ 65 ≤ c.toNat ∧ c.toNat ≤ 90 ∨ c.toNat = 95 := by
  have hline : c = '_' ↔ c.toNat = 95 := by
    rw [← Char.toNat_inj]
    rfl
  simp [isLetter, Char.le_def, UInt32.le_iff_toNat_le, hline, or_assoc]

theorem isLetter_of_isDigit (h : isDigit c = true) : isLetter c = false := by
  rw [isDigit_iff_toNat] at h
  apply Bool.eq_false_iff.mpr
  rw [Ne, isLetter_iff_toNat]
  omega

theorem read_number (hwhole : IsWhole whole) (hpoint : IsFraction point)
    (hpower : IsExponent power) (hstop : Stops rest) :
    read (whole ++ point ++ power ++ rest) =
      ⟨if point.isEmpty && power.isEmpty then .int else .float,
        Bytes.ofChars (whole ++ point ++ power), [], (whole ++ point ++ power).length⟩ := by
  have hafter (c : Char) (hc : (power ++ rest).head? = some c) : c ≠ '.' ∧ isDigit c = false := by
    rcases head_exponent hpower hc with rfl | rfl | hc
    · decide
    · decide
    · rw [hstop.head_eq hc]
      decide
  have htake : (whole ++ (point ++ (power ++ rest))).takeWhile isDigit = whole := by
    apply takeWhile_append hwhole.digits
    intro c hc
    rcases head_fraction hpoint hc with rfl | hc
    · rfl
    · exact (hafter c hc).2
  have hblank (c : Char) (hc : rest.head? = some c) : c ≠ 'e' ∧ c ≠ 'E' ∧ isDigit c = false := by
    rw [hstop.head_eq hc]
    decide
  have hfrac := fraction_append whole.length hpoint hafter
  have hexp := exponent_append (whole ++ point).length hpower hblank
  have hdrop : (whole ++ (point ++ (power ++ rest))).drop (whole ++ point).length =
      power ++ rest := by
    rw [← append_assoc, drop_left]
  have hzero : (1 < whole.length && whole.head? == some '0') = false := by
    by_cases hhead : whole.head? = some '0'
    · rw [hwhole.zero hhead]
      rfl
    · simp [hhead]
  have hnumber : number (whole ++ (point ++ (power ++ rest))) =
      ⟨if point.isEmpty && power.isEmpty then .int else .float,
        Bytes.ofChars (whole ++ point ++ power), [], (whole ++ point ++ power).length⟩ := by
    simp only [number, htake, drop_left, hfrac, hdrop, hexp, hzero]
    rfl
  rw [append_assoc, append_assoc, ← hnumber]
  cases whole with
  | nil => exact absurd rfl hwhole.nonempty
  | cons c whole =>
    have hc := hwhole.digits c mem_cons_self
    rw [cons_append, read, if_neg (by simp [isLetter_of_isDigit hc]), if_pos hc]

theorem stringBody_append (offset : Nat) (rest : List Char) (h : Quotes body bytes) :
    stringBody offset (body ++ '"' :: rest) = (bytes, [], offset + body.length + 1) := by
  induction h generalizing offset with
  | nil => rfl
  | @plain c chars bytes hplain hquote hslash _ ih =>
    have hnewline : c ≠ '\n' := by
      rintro rfl
      exact absurd hplain (by decide)
    have hlen : offset + 1 + chars.length = offset + (chars.length + 1) := by omega
    rw [cons_append, stringBody, ih]
    · dsimp only
      rw [if_neg (Char.not_lt.mpr hplain), length_cons, hlen]
    · exact hquote
    · exact hnewline
    · exact fun hc => absurd hc hslash
    · exact fun _ hc => absurd hc hslash
    · exact fun _ _ hc => absurd hc hslash
  | @escape c b chars bytes hescape _ ih =>
    have hx : c ≠ 'x' := by
      rintro rfl
      cases hescape
    have hlen : offset + 2 + chars.length = offset + (chars.length + 2) := by omega
    rw [cons_append, cons_append, stringBody, ih, hescape]
    · dsimp only
      rw [length_cons, length_cons, hlen]
    · exact hx
  | @hex high low h l chars bytes hhigh hlow _ ih =>
    have hlen : offset + 4 + chars.length = offset + (chars.length + 4) := by omega
    simp only [cons_append, stringBody, hhigh, hlow, ih, length_cons]
    rw [hlen]

def marks : List TokenKind :=
  [.add, .sub, .div, .mul, .eql, .lss, .leq, .gtr, .geq, .neq, .dot, .assign, .colon, .comma,
    .lparen, .rparen, .lbrace, .rbrace, .semi, .pipe, .at, .question, .kwU8]

theorem fixed_cases (h : kind.isFixed = true) :
    kind ∈ TokenKind.words ∨ kind = .discard ∨ kind ∈ marks := by
  cases kind <;> revert h <;> decide

theorem read_mark (hstop : Stops rest) : ∀ kind ∈ marks,
    read (Scanner.characters kind.text ++ rest) =
      ⟨kind, kind.text, [], (Scanner.characters kind.text).length⟩ := by
  simp only [marks, forall_mem_cons]
  cases hstop <;> refine ⟨rfl, rfl, rfl, rfl, rfl, rfl, rfl, rfl, rfl, rfl, rfl, rfl, rfl, rfl, rfl,
    rfl, rfl, rfl, rfl, rfl, rfl, rfl, rfl, by simp⟩

theorem ofWord_keyword : ∀ kind ∈ TokenKind.words, TokenKind.ofWord kind.text = kind ∧
    Scanner.characters kind.text ≠ ['_'] := by
  decide +kernel

theorem isWord_keyword (h : kind ∈ TokenKind.words) : IsWord (Scanner.characters kind.text) := by
  have hcheck : ∀ k ∈ TokenKind.words, (Scanner.characters k.text).all isWordChar = true ∧
      (Scanner.characters k.text).head?.any isLetter = true := by
    decide +kernel
  obtain ⟨hletters, hhead⟩ := hcheck kind h
  refine ⟨?_, all_eq_true.mp hletters⟩
  cases hchars : Scanner.characters kind.text with
  | nil => simp [hchars] at hhead
  | cons c rest => exact ⟨c, rest, rfl, by simpa [hchars] using hhead⟩

theorem read_string (rest : List Char) (h : Quotes body bytes) :
    read ('"' :: body ++ '"' :: rest) = ⟨.string, bytes, [], body.length + 2⟩ := by
  have hstring : read ('"' :: body ++ '"' :: rest) = string (body ++ '"' :: rest) := rfl
  rw [hstring, string, stringBody_append 1 rest h, Nat.add_comm 1]

theorem read_spells (h : Spells kind literal chars) (hline : chars.head? ≠ some '\\')
    (hstop : Stops rest) : read (chars ++ rest) = ⟨kind, literal, [], chars.length⟩ := by
  cases h with
  | fixed _ hfixed htext =>
    rw [← Scanner.characters_ofChars chars, htext]
    rcases fixed_cases hfixed with hword | rfl | hmark
    · obtain ⟨hkind, hdisc⟩ := ofWord_keyword kind hword
      rw [read_word (isWord_keyword hword) hstop, if_neg hdisc, ← htext, Scanner.characters_ofChars,
        htext, hkind]
    · cases hstop <;> rfl
    · exact read_mark hstop kind hmark
  | name hname =>
    have hkind : TokenKind.ofWord (Bytes.ofChars chars) = .name := by
      have hnone : TokenKind.words.find? (fun k => k.text == Bytes.ofChars chars) = none :=
        find?_eq_none.mpr fun kind hkind => by simpa using hname.keyword kind hkind
      rw [TokenKind.ofWord, hnone, Option.getD_none]
    rw [read_word hname.toIsWord hstop, if_neg hname.discard, hkind]
  | int hwhole => simpa using read_number hwhole .none .none hstop
  | float hwhole hpoint hpower hne =>
    rename_i whole point power
    have hempty : (point.isEmpty && power.isEmpty) = false := by
      simpa [List.isEmpty_iff] using hne
    rw [read_number hwhole hpoint hpower hstop, hempty]
    rfl
  | string hquotes =>
    rw [append_assoc, singleton_append, read_string rest hquotes]
    simp
  | multiline => exact absurd rfl hline

theorem isBlank_of_isWordChar (h : isWordChar c = true) :
    isBlank c = false ∧ c ≠ '/' ∧ c ≠ '\\' := by
  refine ⟨Bool.eq_false_iff.mpr fun hblank => ?_, ?_, ?_⟩
  · simp only [isBlank, Bool.or_eq_true, beq_iff_eq, or_assoc] at hblank
    rcases hblank with rfl | rfl | rfl | rfl <;> cases h
  · rintro rfl
    cases h
  · rintro rfl
    cases h

theorem isBlank_of_digits (h : IsDigits digits) (rest : List Char) :
    ∃ c more, digits ++ rest = c :: more ∧ isBlank c = false ∧ c ≠ '/' ∧ c ≠ '\\' := by
  cases digits with
  | nil => exact absurd rfl h.nonempty
  | cons c more =>
    have hc := h.digits c mem_cons_self
    exact ⟨c, more ++ rest, rfl, isBlank_of_isWordChar (by simp [isWordChar, hc])⟩

theorem front_fixed (h : kind.isFixed = true) :
    ∃ c more, Scanner.characters kind.text = c :: more ∧ isBlank c = false ∧
      (c = '/' → more = []) ∧ c ≠ '\\' := by
  have hcheck : kind.isFixed = true → (Scanner.characters kind.text).head?.any (fun c =>
      decide (isBlank c = false ∧ (c = '/' → (Scanner.characters kind.text).tail = []) ∧
        c ≠ '\\')) = true := by
    cases kind <;> decide
  obtain ⟨c, hc, hfront⟩ := (Option.any_eq_true _ _).mp (hcheck h)
  obtain ⟨more, hchars⟩ := head?_eq_some_iff.mp hc
  rw [hchars, tail_cons] at hfront
  exact ⟨c, more, hchars, of_decide_eq_true hfront⟩

theorem front_spells (h : Spells kind literal chars) :
    ∃ c more, chars = c :: more ∧ isBlank c = false ∧ (c = '/' → more = []) := by
  cases h with
  | fixed _ hfixed htext =>
    obtain ⟨c, more, hchars, hblank, hslash, -⟩ := front_fixed hfixed
    rw [← htext, Scanner.characters_ofChars] at hchars
    exact ⟨c, more, hchars, hblank, hslash⟩
  | name hname =>
    obtain ⟨c, more, rfl, -⟩ := hname.starts
    obtain ⟨hblank, hslash, -⟩ := isBlank_of_isWordChar (hname.letters c mem_cons_self)
    exact ⟨c, more, rfl, hblank, fun hc => absurd hc hslash⟩
  | int hwhole =>
    obtain ⟨c, more, hchars, hblank, hslash, -⟩ := isBlank_of_digits hwhole.toIsDigits []
    rw [append_nil] at hchars
    exact ⟨c, more, hchars, hblank, fun hc => absurd hc hslash⟩
  | float hwhole =>
    obtain ⟨c, more, hchars, hblank, hslash, -⟩ := isBlank_of_digits hwhole.toIsDigits _
    rw [append_assoc]
    exact ⟨c, more, hchars, hblank, fun hc => absurd hc hslash⟩
  | string => exact ⟨_, _, rfl, by decide, fun hc => by cases hc⟩
  | multiline => exact ⟨_, _, rfl, by decide, fun hc => by cases hc⟩

end Lexeme

namespace Scanner

open Lexeme (Spells Stops)

theorem gap_spells (h : Spells kind literal chars) (hstop : Stops rest) :
    Lexeme.gap (chars ++ rest) = 0 := by
  obtain ⟨c, more, rfl, hblank, hslash⟩ := Lexeme.front_spells h
  have hcomment : (c == '/' && (more ++ rest).head? == some '/') = false := by
    apply Bool.eq_false_iff.mpr
    intro hboth
    simp only [Bool.and_eq_true, beq_iff_eq] at hboth
    rw [hslash hboth.1, nil_append] at hboth
    cases hstop.head_eq hboth.2
  rw [cons_append, Lexeme.gap, Lexeme.gapFrom, hblank, hcomment]
  rfl

theorem step_spells (file : Bytes) (mark : Mark) (hfront : front = [] ∨ front = [' '])
    (h : Spells kind literal chars) (hline : chars.head? ≠ some '\\') (hstop : Stops rest) :
    ∃ pos after, step ⟨file, front ++ (chars ++ rest), mark⟩ =
      ⟨⟨kind, literal, pos⟩, [], chars.length, ⟨file, rest, after⟩⟩ := by
  have hgap : Lexeme.gap (front ++ (chars ++ rest)) = front.length := by
    have hnone := gap_spells h hstop
    rcases hfront with rfl | rfl
    · exact hnone
    · show 1 + Lexeme.gap (chars ++ rest) = 1
      rw [hnone]
  have hread := Lexeme.read_spells h hline hstop
  simp only [step, hgap, drop_left, hread]
  exact ⟨_, _, rfl⟩

end Scanner

def Token.content (t : Token) : TokenKind × Bytes := (t.kind, t.literal)

namespace Scanner

open Lexeme (Spells Stops)

variable {s : Scanner}

/-- What is left is scanned without a fault, and its tokens have the given contents. -/
def Gives (rest : List Char) (contents : List (TokenKind × Bytes)) : Prop :=
  ∀ file mark, ∃ tokens, Scanner.tokens ⟨file, rest, mark⟩ = .ok tokens ∧
    tokens.map Token.content = contents

theorem gives_nil : Gives [] [(.eof, [])] := fun file mark =>
  ⟨[⟨.eof, [], mark.pos file⟩], tokens_of_used_eq rfl rfl, rfl⟩

theorem Gives.cons {contents : List (TokenKind × Bytes)} (hrest : Gives rest contents)
    (hfront : front = [] ∨ front = [' ']) (h : Spells kind literal chars)
    (hline : chars.head? ≠ some '\\') (hstop : Stops rest) :
    Gives (front ++ (chars ++ rest)) ((kind, literal) :: contents) := by
  intro file mark
  obtain ⟨pos, after, hstep⟩ := step_spells file mark hfront h hline hstop
  obtain ⟨tokens, htoks, rfl⟩ := hrest file after
  refine ⟨⟨kind, literal, pos⟩ :: tokens, ?_, rfl⟩
  have hused : chars.length ≠ 0 := fun hzero => h.ne_nil (length_eq_zero_iff.mp hzero)
  rw [tokens_of_used_ne (by rw [hstep]) (by rw [hstep]; exact hused), hstep, htoks]
  rfl

end Scanner

namespace Token

def hexEscape (b : UInt8) : List Char :=
  ['\\', 'x', Nat.digitChar (b.toNat / 16), Nat.digitChar (b.toNat % 16)]

/-- The canonical spelling: the literal of a name or a number, a string with every byte escaped,
and the text of the kind for every other token. -/
def canonical (t : Token) : Bytes :=
  match t.kind with
  | .name | .int | .float => t.literal
  | .string => Bytes.ofChars ('"' :: t.literal.flatMap hexEscape ++ ['"'])
  | kind => kind.text

theorem canonical_of_isFixed {t : Token} (h : t.kind.isFixed = true) : t.canonical = t.kind.text := by
  unfold canonical
  split
  case h_5 => rfl
  all_goals
    rename_i hkind
    rw [hkind] at h
    cases h

end Token

open Token

/-- The canonical spellings of the tokens before the end, with a blank between any two. -/
def respell (tokens : List Token) : Bytes :=
  Bytes.join " " ((tokens.takeWhile (·.kind != .eof)).map canonical)

namespace Lexeme

theorem hexDigit?_digitChar (h : n < 16) : hexDigit? (Nat.digitChar n) = some n := by
  have hall : ∀ d : Fin 16, hexDigit? (Nat.digitChar d.val) = some d.val := by decide
  exact hall ⟨n, h⟩

theorem Quotes.hexEscape (b : UInt8) (h : Quotes body bytes) :
    Quotes (hexEscape b ++ body) (b :: bytes) := by
  have hb : b.toNat < 256 := b.toNat_lt
  have hhigh : hexDigit? (Nat.digitChar (b.toNat / 16)) = some (b.toNat / 16) :=
    hexDigit?_digitChar (by omega)
  have hlow : hexDigit? (Nat.digitChar (b.toNat % 16)) = some (b.toNat % 16) :=
    hexDigit?_digitChar (by omega)
  have hvalue : (b.toNat / 16 * 16 + b.toNat % 16).toUInt8 = b := by
    rw [Nat.div_add_mod', Nat.toUInt8_eq, UInt8.ofNat_toNat]
  have hstep := Quotes.hex hhigh hlow h
  rw [hvalue] at hstep
  exact hstep

theorem quotes_hexEscape (bytes : Bytes) : Quotes (bytes.flatMap hexEscape) bytes := by
  induction bytes with
  | nil => exact .nil
  | cons b bytes ih => exact ih.hexEscape b

theorem IsWhole.head_ne (h : IsWhole whole) (rest : List Char) :
    (whole ++ rest).head? ≠ some '\\' := by
  obtain ⟨c, more, hchars, -, -, hslash⟩ := isBlank_of_digits h.toIsDigits rest
  simpa [hchars] using hslash

theorem exists_canonical {t : Token} (h : Spells t.kind t.literal chars) :
    ∃ line, t.canonical = Bytes.ofChars line ∧ Spells t.kind t.literal line ∧
      line.head? ≠ some '\\' := by
  obtain ⟨kind, literal, pos⟩ := t
  dsimp only at h ⊢
  cases h with
  | fixed _ hfixed htext =>
    obtain ⟨c, more, hchars, -, -, hslash⟩ := front_fixed hfixed
    rw [← htext, Scanner.characters_ofChars] at hchars
    refine ⟨chars, ?_, .fixed kind hfixed htext, by simpa [hchars] using hslash⟩
    rw [htext]
    exact canonical_of_isFixed hfixed
  | name hname =>
    obtain ⟨c, more, rfl, -⟩ := hname.starts
    obtain ⟨-, -, hslash⟩ := isBlank_of_isWordChar (hname.letters c mem_cons_self)
    exact ⟨c :: more, rfl, .name hname, by simpa using hslash⟩
  | int hwhole =>
    have hline := hwhole.head_ne []
    rw [append_nil] at hline
    exact ⟨chars, rfl, .int hwhole, hline⟩
  | float hwhole hpoint hpower hne =>
    refine ⟨_, rfl, .float hwhole hpoint hpower hne, ?_⟩
    rw [append_assoc]
    exact hwhole.head_ne _
  | string | multiline => exact ⟨_, rfl, .string (quotes_hexEscape literal), by simp⟩

theorem Spells.kind_ne_eof (h : Spells kind literal chars) : kind ≠ .eof := by
  rintro rfl
  cases h
  contradiction

end Lexeme

namespace Scanner

open Lexeme (Spells Stops)

variable {tokens : List Token}

theorem gives_blanks (h : ∀ t ∈ tokens, ∃ chars, Spells t.kind t.literal chars) :
    ∃ chars, Bytes.ofChars chars = tokens.flatMap (fun t => (" " : Bytes) ++ t.canonical) ∧
      Stops chars ∧ Gives chars (tokens.map content ++ [(.eof, [])]) := by
  induction tokens with
  | nil => exact ⟨[], rfl, .ending, gives_nil⟩
  | cons t tokens ih =>
    obtain ⟨_, hspell⟩ := h t mem_cons_self
    obtain ⟨line, hcanonical, hspell, hline⟩ := Lexeme.exists_canonical hspell
    obtain ⟨rest, hrest, hstop, hgives⟩ := ih fun u hu => h u (mem_cons_of_mem _ hu)
    refine ⟨[' '] ++ (line ++ rest), ?_, .blank _, hgives.cons (.inr rfl) hspell hline hstop⟩
    rw [flatMap_cons, ← hrest, hcanonical]
    simp [Bytes.ofChars]
    rfl

theorem join_cons (separator first : Bytes) (parts : List Bytes) :
    Bytes.join separator (first :: parts) = first ++ parts.flatMap (separator ++ ·) := by
  induction parts generalizing first with
  | nil => simp [Bytes.join]
  | cons next parts ih =>
    have hjoin : Bytes.join separator (first :: next :: parts) =
        first ++ (separator ++ Bytes.join separator (next :: parts)) := by
      simp [Bytes.join, List.intercalate]
    rw [hjoin, ih, flatMap_cons, append_assoc]

end Scanner

/-- Scanning the canonical spellings of the tokens of a source succeeds, and gives the same kinds
and literals in the same order. -/
theorem tokenize_respell {file source : Bytes} {tokens : List Token}
    (h : tokenize file source = .ok tokens) (copy : Bytes) :
    ∃ again, tokenize copy (respell tokens) = .ok again ∧
      again.map content = tokens.map content := by
  obtain ⟨front, stop, rfl, hfront⟩ := (Scanner.scans_of_tokens h).exists_front
  have htake : (front ++ [(⟨.eof, [], stop⟩ : Token)]).takeWhile (·.kind != .eof) = front := by
    rw [takeWhile_append_of_pos, takeWhile_cons_of_neg (by simp), append_nil]
    intro t ht
    obtain ⟨_, hspell⟩ := hfront t ht
    simpa using hspell.kind_ne_eof
  unfold respell tokenize Scanner.start
  rw [htake]
  cases front with
  | nil => exact Scanner.gives_nil copy .first
  | cons t front =>
    obtain ⟨_, hspell⟩ := hfront t mem_cons_self
    obtain ⟨line, hcanonical, hspell, hline⟩ := Lexeme.exists_canonical hspell
    obtain ⟨rest, hrest, hstop, hgives⟩ :=
      Scanner.gives_blanks fun u hu => hfront u (mem_cons_of_mem _ hu)
    have hchars : Bytes.join " " ((t :: front).map canonical) =
        Bytes.ofChars (line ++ rest) := by
      rw [map_cons, Scanner.join_cons, flatMap_map, hcanonical, ← hrest]
      exact flatMap_append.symm
    rw [hchars, Scanner.characters_ofChars]
    have hall := hgives.cons (.inl rfl) hspell hline hstop
    rw [map_append]
    exact hall copy .first

/-- Lexemes without blanks between them, and a string of two lines. -/
def multilineSource : Bytes := "_=1e3\\\\a\t\n \\\\\"b"

def multilineTokens : List Token :=
  [⟨.discard, "_", ⟨"t", 1, 1⟩⟩, ⟨.assign, "=", ⟨"t", 1, 2⟩⟩, ⟨.float, "1e3", ⟨"t", 1, 3⟩⟩,
    ⟨.string, "a\t\n\"b", ⟨"t", 1, 6⟩⟩, ⟨.eof, [], ⟨"t", 2, 6⟩⟩]

example : respell multilineTokens = "_ = 1e3 \"\\x61\\x09\\x0a\\x22\\x62\"" := by decide

theorem tokenize_respell_multiline :
    tokenize "t" multilineSource = .ok multilineTokens ∧
      ∃ again, tokenize "u" (respell multilineTokens) = .ok again ∧
        again.map content = multilineTokens.map content := by
  have htoks : tokenize "t" multilineSource = .ok multilineTokens :=
    eq_ok_of_toOption (by decide +kernel)
  exact ⟨htoks, tokenize_respell htoks "u"⟩

end Ifj24
