import Ifj24.Token.Scan

/-!
The lexical grammar. A lexeme is a run of characters that spells a token: a fixed text, a name,
a number, a quoted string or lines of a multiline string. Between lexemes stand blanks and
comments. What is read at the front of an input without a fault is a lexeme of the grammar, and
a lexeme that a blank or the end of the input follows is read as a whole.
-/

open List

namespace Ifj24

def TokenKind.isFixed : TokenKind → Bool
  | .none | .eof | .name | .string | .int | .float => false
  | _ => true

namespace Lexeme

/-- Blanks and comments. A comment ends with its line, or with the input. -/
inductive Gap (last : Bool) : List Char → Prop where
  | nil : Gap last []
  | blank {c : Char} {rest : List Char} : isBlank c = true → Gap last rest → Gap last (c :: rest)
  | comment {rest : List Char} : '\n' ∉ text → Gap last rest →
      Gap last ('/' :: '/' :: text ++ '\n' :: rest)
  | opened : last = true → '\n' ∉ text → Gap last ('/' :: '/' :: text)

structure IsWord (chars : List Char) : Prop where
  starts : ∃ c rest, chars = c :: rest ∧ isLetter c = true
  letters : ∀ c ∈ chars, isWordChar c = true

structure IsName (chars : List Char) : Prop extends IsWord chars where
  discard : chars ≠ ['_']
  keyword : ∀ kind ∈ TokenKind.words, kind.text ≠ Bytes.ofChars chars

structure IsDigits (chars : List Char) : Prop where
  nonempty : chars ≠ []
  digits : ∀ c ∈ chars, isDigit c = true

structure IsWhole (chars : List Char) : Prop extends IsDigits chars where
  zero : chars.head? = some '0' → chars = ['0']

inductive IsFraction : List Char → Prop where
  | none : IsFraction []
  | some {digits : List Char} : IsDigits digits → IsFraction ('.' :: digits)

inductive IsSign : List Char → Prop where
  | none : IsSign []
  | plus : IsSign ['+']
  | minus : IsSign ['-']

inductive IsExponent : List Char → Prop where
  | none : IsExponent []
  | some {mark : Char} {sign digits : List Char} : mark = 'e' ∨ mark = 'E' → IsSign sign →
      IsDigits digits → IsExponent (mark :: sign ++ digits)

/-- The inside of a quoted string, and the bytes that it stands for. -/
inductive Quotes : List Char → Bytes → Prop where
  | nil : Quotes [] []
  | plain {c : Char} {chars : List Char} {bytes : Bytes} : ' ' ≤ c → c ≠ '"' → c ≠ '\\' →
      Quotes chars bytes → Quotes (c :: chars) (String.utf8EncodeChar c ++ bytes)
  | escape {c : Char} {b : UInt8} {chars : List Char} {bytes : Bytes} :
      simpleEscape? c = some b → Quotes chars bytes → Quotes ('\\' :: c :: chars) (b :: bytes)
  | hex {high low : Char} {h l : Nat} {chars : List Char} {bytes : Bytes} :
      hexDigit? high = some h → hexDigit? low = some l → Quotes chars bytes →
      Quotes ('\\' :: 'x' :: high :: low :: chars) ((h * 16 + l).toUInt8 :: bytes)

/-- The lines of a multiline string after its first double backslash, and the bytes that they
stand for. -/
inductive Lines : List Char → Bytes → Prop where
  | last {line : List Char} : '\n' ∉ line → Lines line (Bytes.ofChars line)
  | more {line blanks rest : List Char} {bytes : Bytes} : '\n' ∉ line →
      (∀ c ∈ blanks, isBlank c = true) → Lines rest bytes →
      Lines (line ++ '\n' :: blanks ++ '\\' :: '\\' :: rest) (Bytes.ofChars line ++ 0x0A :: bytes)

/-- The lexemes of a kind, with the literals of their tokens. -/
inductive Spells : TokenKind → Bytes → List Char → Prop where
  | fixed (kind : TokenKind) : kind.isFixed = true →
      Bytes.ofChars chars = kind.text → Spells kind kind.text chars
  | name : IsName chars → Spells .name (Bytes.ofChars chars) chars
  | int : IsWhole chars → Spells .int (Bytes.ofChars chars) chars
  | float : IsWhole whole → IsFraction point → IsExponent power → point ++ power ≠ [] →
      Spells .float (Bytes.ofChars (whole ++ point ++ power)) (whole ++ point ++ power)
  | string {body : List Char} {bytes : Bytes} : Quotes body bytes →
      Spells .string bytes ('"' :: body ++ ['"'])
  | multiline {body : List Char} {bytes : Bytes} : Lines body bytes →
      Spells .string bytes ('\\' :: '\\' :: body)

theorem Spells.ne_nil {kind : TokenKind} {literal : Bytes} {chars : List Char}
    (h : Spells kind literal chars) : chars ≠ [] := by
  cases h with
  | fixed _ hfixed htext =>
    rintro rfl
    cases kind <;> revert hfixed htext <;> decide
  | name hname =>
    obtain ⟨c, rest, rfl, -⟩ := hname.starts
    simp
  | int hwhole => exact hwhole.nonempty
  | float hwhole => simp [hwhole.nonempty]
  | string => simp
  | multiline => simp

/-! What is read without a fault is a lexeme -/

/-- The characters that a lexeme uses are the front of the input, and spell it. -/
def Fronts (l : Lexeme) (input : List Char) : Prop :=
  ∃ chars rest, input = chars ++ rest ∧ l.used = chars.length ∧ Spells l.kind l.literal chars

variable {c : Char} {rest input : List Char} {offset : Nat}

theorem isWord_takeWhile (rest : List Char) (hc : isLetter c = true) :
    IsWord ((c :: rest).takeWhile isWordChar) where
  starts := ⟨c, rest.takeWhile isWordChar, by simp [isWordChar, hc], hc⟩
  letters := all_eq_true.mp all_takeWhile

theorem fronts_word (hc : isLetter c = true) : (word (c :: rest)).Fronts (c :: rest) := by
  have hcut := (takeWhile_append_dropWhile (p := isWordChar) (l := c :: rest)).symm
  have hword := isWord_takeWhile rest hc
  refine ⟨_, _, hcut, rfl, ?_⟩
  unfold word
  generalize (c :: rest).takeWhile isWordChar = chars at hword ⊢
  dsimp only
  split
  · rename_i hdisc
    rw [hdisc]
    exact .fixed .discard rfl rfl
  rename_i hdisc
  unfold TokenKind.ofWord
  cases hfind : TokenKind.words.find? fun k => k.text == Bytes.ofChars chars with
  | some kind =>
    have hfixed : ∀ k ∈ TokenKind.words, k.isFixed = true := by decide
    have htext : kind.text = Bytes.ofChars chars := by simpa using find?_some hfind
    rw [Option.getD_some, ← htext]
    exact .fixed kind (hfixed kind (mem_of_find?_eq_some hfind)) htext.symm
  | none =>
    have hkeyword := find?_eq_none.mp hfind
    exact .name ⟨hword, hdisc, fun kind hkind => by simpa using hkeyword kind hkind⟩

theorem prefix_extend (hfront : front <+: input)
    (hmore : more <+: input.drop front.length) : front ++ more <+: input := by
  have hinput := prefix_iff_eq_append.mp hfront
  rw [← hinput]
  exact (prefix_append_right_inj front).mpr hmore

theorem isDigit_takeWhile (input : List Char) : ∀ c ∈ input.takeWhile isDigit, isDigit c = true :=
  all_eq_true.mp all_takeWhile

theorem isFraction_fraction (h : (fraction offset input).2 = []) :
    IsFraction (fraction offset input).1 ∧ (fraction offset input).1 <+: input := by
  unfold fraction at h ⊢
  split
  · rename_i rest
    have hne : rest.takeWhile isDigit ≠ [] := by
      intro hnil
      simp [hnil] at h
    refine ⟨.some ⟨hne, isDigit_takeWhile rest⟩, ?_⟩
    simpa using takeWhile_prefix isDigit
  · exact ⟨.none, nil_prefix⟩

theorem isSign_sign (input : List Char) : IsSign (sign input) ∧ sign input <+: input := by
  unfold sign
  split
  · exact ⟨.plus, by simp⟩
  · exact ⟨.minus, by simp⟩
  · exact ⟨.none, nil_prefix⟩

theorem isExponent_exponent (h : (exponent offset input).2 = []) :
    IsExponent (exponent offset input).1 ∧ (exponent offset input).1 <+: input := by
  unfold exponent at h ⊢
  split
  · rename_i c rest
    split
    · rename_i hmark
      obtain ⟨hsign, hfront⟩ := isSign_sign rest
      have hne : (rest.drop (sign rest).length).takeWhile isDigit ≠ [] := by
        intro hnil
        simp [hmark, hnil] at h
      refine ⟨.some (by simpa using hmark) hsign ⟨hne, isDigit_takeWhile _⟩, ?_⟩
      apply (cons_prefix_cons).mpr
      exact ⟨rfl, prefix_extend hfront ( takeWhile_prefix isDigit)⟩
    · exact ⟨.none, nil_prefix⟩
  · exact ⟨.none, nil_prefix⟩

theorem isWhole_takeWhile (rest : List Char) (hc : isDigit c = true)
    (hzero : ¬ (1 < ((c :: rest).takeWhile isDigit).length ∧
      ((c :: rest).takeWhile isDigit).head? = some '0')) :
    IsWhole ((c :: rest).takeWhile isDigit) where
  nonempty := by simp [hc]
  digits := isDigit_takeWhile _
  zero h := by
    simp only [takeWhile_cons, hc, if_true, head?_cons, length_cons] at h hzero ⊢
    cases hmore : rest.takeWhile isDigit with
    | nil => rw [Option.some.inj h]
    | cons d more => exact absurd ⟨by simp [hmore], h⟩ hzero

theorem fronts_number (hc : isDigit c = true) (h : (number (c :: rest)).faults = []) :
    (number (c :: rest)).Fronts (c :: rest) := by
  have hcut : (c :: rest).takeWhile isDigit <+: c :: rest := takeWhile_prefix isDigit
  have hwhole := isWhole_takeWhile rest hc
  unfold number at h ⊢
  generalize (c :: rest).takeWhile isDigit = whole at hcut hwhole h ⊢
  dsimp only at h ⊢
  simp only [append_eq_nil_iff] at h
  obtain ⟨⟨hzero, hpoint⟩, hpower⟩ := h
  obtain ⟨hfrac, hpoint⟩ := isFraction_fraction hpoint
  obtain ⟨hexp, hpower⟩ := isExponent_exponent hpower
  generalize (fraction _ _).1 = point at hfrac hpoint hexp hpower ⊢
  generalize (exponent _ _).1 = power at hexp hpower ⊢
  have hwhole : IsWhole whole := by
    apply hwhole
    rintro ⟨hlong, hhead⟩
    simp [hlong, hhead] at hzero
  obtain ⟨after, hafter⟩ := prefix_extend (prefix_extend hcut hpoint) hpower
  refine ⟨_, after, hafter.symm, rfl, ?_⟩
  split
  · rename_i hempty
    simp only [Bool.and_eq_true, List.isEmpty_iff] at hempty
    rw [hempty.1, hempty.2, append_nil, append_nil]
    exact .int hwhole
  · rename_i hempty
    exact .float hwhole hfrac hexp (by simpa [List.isEmpty_iff] using hempty)

/-- A quoted string that starts at a distance, up to its closing quote. -/
def Closes (offset : Nat) (input : List Char) (bytes : Bytes) (stop : Nat) : Prop :=
  ∃ body rest, input = body ++ '"' :: rest ∧ stop = offset + body.length + 1 ∧ Quotes body bytes

theorem Closes.prepend (front : List Char) (more : Bytes)
    (h : Closes (offset + front.length) input bytes stop)
    (hfront : ∀ body, Quotes body bytes → Quotes (front ++ body) (more ++ bytes)) :
    Closes offset (front ++ input) (more ++ bytes) stop := by
  obtain ⟨body, rest, rfl, rfl, hbody⟩ := h
  refine ⟨front ++ body, rest, by rw [append_assoc], ?_, hfront body hbody⟩
  rw [length_append]
  omega

theorem closes_stringBody (h : (stringBody offset input).2.1 = []) :
    Closes offset input (stringBody offset input).1 (stringBody offset input).2.2 := by
  fun_induction stringBody offset input with
  | case2 offset rest => exact ⟨[], rest, rfl, rfl, .nil⟩
  | case9 offset high _ hhigh low rest _ hlow bytes faults stop hrest ih =>
    rw [hrest] at ih
    exact .prepend ['\\', 'x', high, low] [_] (ih h)
      fun _ hbody => .hex hhigh hlow hbody
  | case10 offset c rest _ bytes faults stop hrest b hescape ih =>
    rw [hrest] at ih
    exact .prepend ['\\', c] [b] (ih h) fun _ hbody => .escape hescape hbody
  | case13 offset c rest hquote _ hend _ hslash bytes faults stop hrest hplain ih =>
    rw [hrest] at ih
    have hc : c ≠ '\\' := by
      rintro rfl
      cases rest with
      | nil => exact hend rfl rfl
      | cons d rest => exact hslash d rest rfl rfl
    exact .prepend [c] _ (ih h) fun _ hbody =>
      .plain (Char.not_lt.mp hplain) hquote hc hbody
  | _ => cases h

theorem fronts_string (h : (string rest).faults = []) : (string rest).Fronts ('"' :: rest) := by
  obtain ⟨body, after, hrest, hstop, hbody⟩ := closes_stringBody h
  refine ⟨'"' :: body ++ ['"'], after, by simp [hrest], ?_, .string hbody⟩
  show (stringBody 1 rest).2.2 = _
  simp only [hstop, length_append, length_cons, length_nil]
  omega

theorem eq_of_nextLine? (h : nextLine? input = some (n, rest)) :
    ∃ blanks, (∀ c ∈ blanks, isBlank c = true) ∧ n = blanks.length + 2 ∧
      input = blanks ++ '\\' :: '\\' :: rest := by
  have hcut := (takeWhile_append_dropWhile (p := isBlank) (l := input)).symm
  have hblanks : ∀ c ∈ input.takeWhile isBlank, isBlank c = true :=
    all_eq_true.mp all_takeWhile
  unfold nextLine? at h
  split at h
  · rename_i tail htail
    cases h
    rw [htail] at hcut
    exact ⟨_, hblanks, rfl, hcut⟩
  · cases h

theorem lines_multilineBody (input : List Char) :
    ∃ body rest, input = body ++ rest ∧ (multilineBody input).2 = body.length ∧
      Lines body (multilineBody input).1 := by
  have hline (cs : List Char) : '\n' ∉ cs.takeWhile (· != '\n') := by
    intro hmem
    have hall := all_eq_true.mp all_takeWhile _ hmem
    simp at hall
  fun_induction multilineBody input with
  | case1 input => exact ⟨_, _, takeWhile_append_dropWhile.symm, rfl, .last (hline input)⟩
  | case2 input line text n rest hnext bytes used hrest ih =>
    rw [hrest] at ih
    obtain ⟨body, after, rfl, hused, hbody⟩ := ih
    obtain ⟨blanks, hblanks, rfl, hdrop⟩ := eq_of_nextLine? hnext
    have hcut := (takeWhile_append_dropWhile (p := (· != '\n')) (l := input)).symm
    have hhead := head?_dropWhile_not (· != '\n') input
    rw [hdrop] at hcut hhead
    cases blanks with
    | nil => simp at hhead
    | cons b blanks =>
      simp only [cons_append, head?_cons, bne_eq_false_iff_eq] at hhead
      subst hhead
      refine ⟨line ++ '\n' :: blanks ++ '\\' :: '\\' :: body, after, ?_, ?_, ?_⟩
      · simp only [append_assoc, cons_append, line] at hcut ⊢
        exact hcut
      · dsimp only at hused ⊢
        simp only [hused, length_append, length_cons]
        omega
      · exact .more (hline input) (fun c hc => hblanks c (mem_cons_of_mem _ hc)) hbody

theorem fronts_multiline (h : (multiline input).faults = []) : (multiline input).Fronts input := by
  revert h
  unfold multiline
  split
  · rename_i rest
    intro _
    obtain ⟨body, after, hrest, hused, hbody⟩ := lines_multilineBody rest
    refine ⟨'\\' :: '\\' :: body, after, by simp [hrest], ?_, .multiline hbody⟩
    show (multilineBody rest).2 + 2 = _
    rw [hused]
    rfl
  · intro h
    cases h

theorem fronts_fixed {kind : TokenKind} (chars : List Char) (hkind : kind.isFixed = true)
    (hchars : Bytes.ofChars chars = kind.text) : (fixed kind chars.length).Fronts (chars ++ rest) :=
  ⟨chars, rest, rfl, rfl, .fixed kind hkind hchars⟩

theorem prefix_of_agreement (h : ¬ agreement text input < text.length) :
    text <+: input := by
  fun_induction agreement text input with
  | case1 text c input ih => exact cons_prefix_cons.mpr ⟨rfl, ih (by simpa using h)⟩
  | case2 => simp at h
  | case3 text input hcons =>
    cases text with
    | nil => exact nil_prefix
    | cons c text => simp at h

theorem fronts_sliceType (h : (sliceType rest).faults = []) :
    (sliceType rest).Fronts ('[' :: rest) := by
  revert h
  unfold sliceType
  dsimp only
  split
  · intro h
    cases h
  rename_i hagreed
  split
  · intro h
    cases h
  · intro _
    obtain ⟨tail, rfl⟩ : [']', 'u', '8'] <+: rest := prefix_of_agreement hagreed
    exact fronts_fixed ['[', ']', 'u', '8'] rfl rfl

theorem fronts_punctuation (h : (punctuation c rest).faults = []) :
    (punctuation c rest).Fronts (c :: rest) := by
  have hsingle : ∀ kind, single? c = some kind →
      kind.isFixed = true ∧ Bytes.ofChars [c] = kind.text := by
    intro kind hkind
    unfold single? at hkind
    split at hkind <;> cases hkind <;> decide
  have hext : ∀ alone extended, extensible? c = some (alone, extended) →
      (alone.isFixed = true ∧ Bytes.ofChars [c] = alone.text) ∧
        extended.isFixed = true ∧ Bytes.ofChars [c, '='] = extended.text := by
    intro alone extended hkind
    unfold extensible? at hkind
    split at hkind <;> cases hkind <;> decide
  have hequals : ∀ kind : TokenKind, rest.head? == some '=' → kind.isFixed = true →
      Bytes.ofChars [c, '='] = kind.text → (fixed kind 2).Fronts (c :: rest) := by
    intro kind hhead hkind htext
    obtain ⟨tail, rfl⟩ : ∃ tail, rest = '=' :: tail := by
      simpa [head?_eq_some_iff] using hhead
    exact fronts_fixed [c, '='] hkind htext
  revert h
  unfold punctuation
  split
  · rename_i kind hkind
    intro _
    obtain ⟨hfixed, htext⟩ := hsingle kind hkind
    exact fronts_fixed [c] hfixed htext
  · rename_i alone extended _ hkind
    intro _
    obtain ⟨⟨hfixed, htext⟩, hlong⟩ := hext alone extended hkind
    split
    · rename_i hhead
      exact hequals extended hhead hlong.1 hlong.2
    · exact fronts_fixed [c] hfixed htext
  split
  · rename_i hc
    cases eq_of_beq hc
    split
    · rename_i hhead
      intro _
      exact hequals .neq hhead rfl rfl
    · intro h
      cases h
  split
  · rename_i hc
    cases eq_of_beq hc
    exact fronts_sliceType
  · intro h
    cases h

theorem fronts_read (h : (read (c :: rest)).faults = []) :
    (read (c :: rest)).Fronts (c :: rest) := by
  revert h
  unfold read
  dsimp only
  split
  · rename_i hletter
    exact fun _ => fronts_word hletter
  split
  · rename_i hdigit
    exact fronts_number hdigit
  split
  · rename_i hquote
    cases eq_of_beq hquote
    exact fronts_string
  split
  · exact fronts_multiline
  · exact fronts_punctuation

inductive Inside (last : Bool) : List Char → Prop where
  | closed (text : List Char) {rest : List Char} : '\n' ∉ text → Gap last rest →
      Inside last (text ++ '\n' :: rest)
  | opened : last = true → '\n' ∉ text → Inside last text

theorem Inside.cons {last : Bool} (hc : c ≠ '\n') (h : Inside last front) :
    Inside last (c :: front) := by
  cases h with
  | closed _ htext hrest => exact .closed (c :: _) (by simp [hc.symm, htext]) hrest
  | opened hlast htext => exact .opened hlast (by simp [hc.symm, htext])

theorem Inside.tail {last : Bool} (hc : c ≠ '\n') (h : Inside last (c :: front)) :
    Inside last front := by
  generalize hwhole : c :: front = whole at h
  cases h with
  | closed text htext hrest =>
    cases text with
    | nil => exact absurd (List.cons.inj hwhole).1 hc
    | cons d text =>
      obtain ⟨rfl, rfl⟩ := List.cons.inj hwhole
      exact .closed text (fun hmem => htext (mem_cons_of_mem _ hmem)) hrest
  | opened hlast htext =>
    subst hwhole
    exact .opened hlast (fun hmem => htext (mem_cons_of_mem _ hmem))

theorem Inside.gap {last : Bool} (h : Inside last front) : Gap last ('/' :: '/' :: front) := by
  cases h with
  | closed _ htext hrest => exact .comment htext hrest
  | opened hlast htext => exact .opened hlast htext

theorem exists_gapFrom (inside : Bool) (input : List Char) :
    ∃ front rest, input = front ++ rest ∧ gapFrom inside input = front.length ∧
      if inside then Inside rest.isEmpty front else Gap rest.isEmpty front := by
  fun_induction gapFrom inside input with
  | case1 inside =>
    refine ⟨[], [], rfl, rfl, ?_⟩
    cases inside
    · exact .nil
    · exact .opened rfl (by simp)
  | case2 c input ih =>
    obtain ⟨front, rest, rfl, hlen, hfront⟩ := ih
    refine ⟨c :: front, rest, rfl, by rw [hlen, length_cons, Nat.add_comm], ?_⟩
    by_cases hc : c = '\n'
    · subst hc
      exact .closed [] (by simp) hfront
    · rw [if_pos (by simp [hc])] at hfront
      exact hfront.cons hc
  | case3 c input hblank ih =>
    obtain ⟨front, rest, rfl, hlen, hfront⟩ := ih
    exact ⟨c :: front, rest, rfl, by rw [hlen, length_cons, Nat.add_comm],
      .blank hblank hfront⟩
  | case4 c input _ hslash ih =>
    simp only [Bool.and_eq_true, beq_iff_eq, head?_eq_some_iff] at hslash
    obtain ⟨rfl, tail, rfl⟩ := hslash
    obtain ⟨front, rest, hinput, hlen, hfront⟩ := ih
    refine ⟨'/' :: front, rest, by rw [hinput, cons_append],
      by rw [hlen, length_cons, Nat.add_comm], ?_⟩
    cases front with
    | nil => simp [gapFrom] at hlen
    | cons d front =>
      obtain ⟨rfl, rfl⟩ := List.cons.inj hinput
      exact (Inside.tail (by decide) hfront).gap
  | case5 c input => exact ⟨[], c :: input, rfl, rfl, .nil⟩

/-- The blanks and comments at the front of an input are a gap. It ends inside a comment only
at the end of the input. -/
theorem exists_gap (input : List Char) :
    ∃ front rest, input = front ++ rest ∧ gap input = front.length ∧ Gap rest.isEmpty front :=
  exists_gapFrom false input

end Lexeme

end Ifj24
