import Ifj24.Proofs.Coercions
import Ifj24.Proofs.StringBytes

/-!
The text of number tokens. A number is read as far as the input goes on being one, and it is what
the source has at that place. So its literal, and every literal that is converted from it, can be
read as a number unless that is too large.
-/

open List

namespace Ifj24

open Utf8 (Decodes)

namespace Lexeme

inductive IsFloat : List Char → Prop where
  | intro {whole point power : List Char} : IsWhole whole → IsFraction point → IsExponent power →
      point ++ power ≠ [] → IsFloat (whole ++ point ++ power)

def IsNumber (chars : List Char) : Prop := IsWhole chars ∨ IsFloat chars

variable {whole point power digits chars : List Char}

theorem length_le_takeWhile (h : ∀ c ∈ digits, isDigit c = true) (rest : List Char) :
    digits.length ≤ ((digits ++ rest).takeWhile isDigit).length := by
  rw [takeWhile_append_of_pos h, length_append]
  omega

theorem length_le_fraction (h : IsFraction point) (offset : Nat) (rest : List Char) :
    point.length ≤ (fraction offset (point ++ rest)).1.length := by
  cases h with
  | none => exact Nat.zero_le _
  | some hdig => exact Nat.succ_le_succ (length_le_takeWhile hdig.digits rest)

theorem length_le_exponent (h : IsExponent power) (offset : Nat) (rest : List Char) :
    power.length ≤ (exponent offset (power ++ rest)).1.length := by
  cases h with
  | none => exact Nat.zero_le _
  | @some mark front digits hmark hsign hdig =>
    have hle := length_le_takeWhile hdig.digits rest
    rw [cons_append, cons_append, append_assoc, exponent, if_pos (by simpa using hmark)]
    simp only [sign_append hsign hdig, drop_left, cons_append, length_append, length_cons]
    omega

/-- A number at the front of the input is no longer than what is read there: up to its last part
it is read as it is, and that part as far as it goes. -/
theorem length_le_number (hwhole : IsWhole whole) (hpoint : IsFraction point)
    (hpower : IsExponent power) (rest : List Char) :
    (whole ++ point ++ power).length ≤ (number (whole ++ point ++ power ++ rest)).used := by
  have hafter (c : Char) (hc : (power ++ rest).head? = some c) (hne : power ≠ []) :
      c ≠ '.' ∧ isDigit c = false := by
    cases hpower with
    | none => exact absurd rfl hne
    | some hmark =>
      cases hc
      rcases hmark with rfl | rfl <;> decide
  have htake (hne : point ++ power ≠ []) :
      (whole ++ (point ++ (power ++ rest))).takeWhile isDigit = whole := by
    apply takeWhile_append hwhole.digits
    intro c hc
    cases hpoint with
    | none => exact (hafter c hc hne).2
    | some =>
      cases hc
      rfl
  have hinput : whole ++ point ++ power ++ rest = whole ++ (point ++ (power ++ rest)) := by simp
  simp only [hinput, number]
  by_cases hnone : point ++ power = []
  · obtain ⟨rfl, rfl⟩ := append_eq_nil_iff.mp hnone
    have hle := length_le_takeWhile hwhole.digits rest
    simp only [nil_append, append_nil, length_append]
    omega
  rw [htake hnone, drop_left]
  by_cases hlast : power = []
  · subst hlast
    have hle := length_le_fraction hpoint whole.length rest
    simp only [nil_append, append_nil, length_append]
    omega
  · have hfrac := fraction_append whole.length hpoint fun c hc => hafter c hc hlast
    have hle := length_le_exponent hpower (whole ++ point).length rest
    rw [hfrac, ← append_assoc whole, drop_left]
    simp only [length_append] at hle ⊢
    omega

theorem IsNumber.exists_parts (h : IsNumber chars) :
    ∃ whole point power, chars = whole ++ point ++ power ∧ IsWhole whole ∧ IsFraction point ∧
      IsExponent power := by
  rcases h with hwhole | ⟨hwhole, hpoint, hpower, -⟩
  · exact ⟨chars, [], [], by simp, hwhole, .none, .none⟩
  · exact ⟨_, _, _, rfl, hwhole, hpoint, hpower⟩

theorem length_le_read (h : IsNumber chars) (rest : List Char) :
    chars.length ≤ (read (chars ++ rest)).used := by
  obtain ⟨whole, point, power, rfl, hwhole, hpoint, hpower⟩ := h.exists_parts
  have hle := length_le_number hwhole hpoint hpower rest
  cases whole with
  | nil => exact absurd rfl hwhole.nonempty
  | cons c whole =>
    have hc := hwhole.digits c mem_cons_self
    simp only [cons_append] at hle ⊢
    rwa [read, if_neg (by simp [isLetter_of_isDigit hc]), if_pos hc]

theorem IsNumber.ascii (h : IsNumber chars) : ∀ c ∈ chars, c.toNat < 0x80 := by
  obtain ⟨whole, point, power, rfl, hwhole, hpoint, hpower⟩ := h.exists_parts
  have hdigits {digits : List Char} (h : IsDigits digits) : ∀ c ∈ digits, c.toNat < 0x80 := by
    intro c hc
    have hrange := isDigit_iff_toNat.mp (h.digits c hc)
    omega
  simp only [forall_mem_append]
  refine ⟨⟨hdigits hwhole.toIsDigits, ?_⟩, ?_⟩
  · cases hpoint with
    | none => simp
    | some hdig => exact forall_mem_cons.mpr ⟨by decide, hdigits hdig⟩
  · cases hpower with
    | none => simp
    | @some mark front digits hmark hsign hdig =>
      rw [cons_append, forall_mem_cons, forall_mem_append]
      refine ⟨by rcases hmark with rfl | rfl <;> decide, ?_, hdigits hdig⟩
      cases hsign <;> simp

variable {kind : TokenKind} {literal : Bytes}

theorem Spells.isNumber (h : Spells kind literal chars) (hkind : kind = .int ∨ kind = .float) :
    (kind = .int → IsWhole chars) ∧ (kind = .float → IsFloat chars) ∧ IsNumber chars ∧
      literal = Bytes.ofChars chars := by
  cases h with
  | fixed _ hfixed => rcases hkind with rfl | rfl <;> cases hfixed
  | int hwhole => exact ⟨fun _ => hwhole, (by cases ·), .inl hwhole, rfl⟩
  | float hwhole hpoint hpower hne =>
    have hfloat := IsFloat.intro hwhole hpoint hpower hne
    exact ⟨(by cases ·), fun _ => hfloat, .inr hfloat, rfl⟩
  | _ => rcases hkind with hkind | hkind <;> cases hkind

end Lexeme

theorem Glyph.ofChars_latin {glyphs : List Glyph} (hstrays : Strays glyphs)
    (h : ∀ c ∈ glyphs.map latin, c.toNat < 0x80) :
    Bytes.ofChars (glyphs.map latin) = glyphs.flatMap bytes := by
  rw [Bytes.ofChars, flatMap_map, flatMap_def, flatMap_def]
  refine congrArg List.flatten (map_congr_left fun g hg => ?_)
  have hone : Strays [g] := fun b hb => hstrays b (mem_singleton.mp hb ▸ hg)
  rw [eq_scalar hone (h g.latin (mem_map_of_mem hg)) rfl]
  rfl

namespace Tree.Value

open Number (Digits Numeral)

/-- The number literals that come of a token: its own, and what that is converted to. -/
inductive Derived (t : Token) : Value → Prop where
  | int (pos : Pos) : t.kind = .int → Derived t (.ofLiteral pos .i32 t.literal)
  | float (pos : Pos) : t.kind = .float → Derived t (.ofLiteral pos .f64 t.literal)
  | coerced {v w : Value} {type : DataType} : Derived t v → v.coerce type = .ok w → Derived t w

/-- A literal that can be read as a number of its type unless that is too large. -/
def Readable (v : Value) : Prop :=
  v.type = .i32 ∧ (Number.readInt64? v.literal = none ↔ Nat.pow 2 63 ≤ Number.value v.literal) ∨
  v.type = .f64 ∧ (Number.readDouble? v.literal = none ↔
    ¬ (Number.decimal v.literal).Below Double.overflow)

inductive Written : Value → Prop where
  | int {literal : Bytes} (pos : Pos) : Digits literal → Written (.ofLiteral pos .i32 literal)
  | float (pos : Pos) (n : Numeral) : Written (.ofLiteral pos .f64 n.text)

theorem Written.coerce {v w : Value} {type : DataType} (h : v.Written)
    (hcoerce : v.coerce type = .ok w) : w.Written := by
  cases h with
  | int pos hdig =>
    by_cases htype : type = .i32
    · subst htype
      cases hcoerce
      exact .int pos hdig
    by_cases hfloat : type = .f64
    · subst hfloat
      cases hcoerce
      exact Numeral.text_ofDigits hdig ▸ .float pos (.ofDigits hdig)
    · simp [Value.coerce, ofLiteral, htype, hfloat, Ne.symm htype] at hcoerce
  | float pos n =>
    by_cases hfloat : type = .f64
    · subst hfloat
      cases hcoerce
      exact .float pos n
    by_cases htype : type = .i32
    · subst htype
      rcases coerce_numeral pos n with ⟨m, -, -, hok⟩ | ⟨-, d, herror, -⟩
      · cases hok.symm.trans hcoerce
        exact .int pos (Number.digits_ofNat m)
      · cases herror.symm.trans hcoerce
    · simp [Value.coerce, ofLiteral, htype, hfloat, Ne.symm hfloat] at hcoerce

theorem Written.readable {v : Value} (h : v.Written) : v.Readable := by
  cases h with
  | int pos hdig =>
    refine .inl ⟨rfl, ?_⟩
    simp only [ofLiteral]
    rw [Number.readInt64?_digits hdig, ← Nat.not_lt]
    split <;> simp [*]
  | float pos n =>
    refine .inr ⟨rfl, ?_⟩
    simp only [ofLiteral]
    rw [n.decimal_text]
    refine ⟨fun hnone hbelow => ?_, n.readDouble?_text_eq_none⟩
    obtain ⟨s, e, hsome, -⟩ := n.readDouble?_text hbelow
    cases hnone.symm.trans hsome

theorem Derived.written {t : Token} {v : Value} (h : Derived t v)
    (ht : Lexeme.Spelled t.kind t.literal) : v.Written := by
  induction h with
  | int pos hkind => exact .int pos (ht.int hkind)
  | float pos hkind =>
    obtain ⟨n, hn⟩ := ht.float hkind
    exact hn ▸ .float pos n
  | coerced _ hcoerce ih => exact ih.coerce hcoerce

end Tree.Value

/-- The literal of a number token is a number of its kind. It is what the source has at the place
of the token, and no longer number starts there. Reading it fails only if its number is too
large, and so it is with every literal that comes of it by conversion. -/
theorem tokenize_number_tokens {file source : Bytes} {tokens : List Token}
    (h : tokenize file source = .ok tokens) :
    ∃ (pieces : List Piece) (last : List Glyph) (stop : Pos),
      Decodes (pieces.flatMap Piece.glyphs ++ last) source ∧
      tokens = pieces.map Piece.token ++ [⟨.eof, [], stop⟩] ∧
      ∀ front p back, pieces = front ++ p :: back →
        p.token.kind = .int ∨ p.token.kind = .float →
        (p.token.kind = .int → Lexeme.IsWhole (p.lexeme.map Glyph.latin)) ∧
        (p.token.kind = .float → Lexeme.IsFloat (p.lexeme.map Glyph.latin)) ∧
        p.token.literal = p.lexeme.flatMap Glyph.bytes ∧
        p.token.pos = (Mark.behind (front.flatMap Piece.glyphs ++ p.gap)).pos file ∧
        (∀ number, Lexeme.IsNumber number →
          number <+: (p.lexeme ++ (back.flatMap Piece.glyphs ++ last)).map Glyph.latin →
          number.length ≤ p.lexeme.length) ∧
        ∀ v, Tree.Value.Derived p.token v → v.Readable := by
  obtain ⟨pieces, last, hdecodes, hstrays, -, hstand, htoks, hreads⟩ :=
    exists_pieces_of_tokenize h
  refine ⟨pieces, last, _, hdecodes, htoks, fun front p back hsplit hkind => ?_⟩
  obtain ⟨hint, hfloat, hnumber, hliteral⟩ := p.spells.isNumber hkind
  have hlexeme : Glyph.Strays p.lexeme := by
    intro b hb
    apply hstrays b
    simp only [hsplit, flatMap_append, flatMap_cons, Piece.glyphs, mem_append]
    exact .inl (.inr (.inl (.inr hb)))
  refine ⟨hint, hfloat, ?_, hstand front p back hsplit, fun number hn hprefix => ?_, fun v hv => ?_⟩
  · rw [hliteral, Glyph.ofChars_latin hlexeme hnumber.ascii]
  · obtain ⟨rest, hrest⟩ := hprefix
    have hle := Lexeme.length_le_read hn rest
    rwa [hrest, hreads front p back hsplit] at hle
  · exact (hv.written p.spells.spelled).readable

/-- Numbers that nothing separates from what follows them. -/
def numberTokens : List Token :=
  [⟨.float, "0.5e3", ⟨"t", 1, 1⟩⟩, ⟨.name, "e", ⟨"t", 1, 6⟩⟩, ⟨.int, "10", ⟨"t", 1, 8⟩⟩,
    ⟨.name, "x", ⟨"t", 1, 10⟩⟩, ⟨.eof, [], ⟨"t", 1, 11⟩⟩]

theorem tokenize_number_tokens_adjacent :
    tokenize "t" "0.5e3e 10x" = .ok numberTokens ∧
      ∃ (pieces : List Piece) (last : List Glyph) (stop : Pos),
        Decodes (pieces.flatMap Piece.glyphs ++ last) "0.5e3e 10x" ∧
        numberTokens = pieces.map Piece.token ++ [⟨.eof, [], stop⟩] ∧
        ∀ p ∈ pieces, p.token.kind = .int ∨ p.token.kind = .float →
          p.token.literal = p.lexeme.flatMap Glyph.bytes := by
  have htoks : tokenize "t" "0.5e3e 10x" = .ok numberTokens :=
    eq_ok_of_toOption (by decide +kernel)
  obtain ⟨pieces, last, stop, hdecodes, heq, hnumbers⟩ := tokenize_number_tokens htoks
  refine ⟨htoks, pieces, last, stop, hdecodes, heq, fun p hp hkind => ?_⟩
  obtain ⟨front, back, hsplit⟩ := append_of_mem hp
  exact (hnumbers front p back hsplit hkind).2.2.1

end Ifj24
