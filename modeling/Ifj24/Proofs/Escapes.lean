import Ifj24.Proofs.CodeText
import Ifj24.Proofs.StringBytes

/-!
Strings survive being written. In the code of a program a special byte stands as a backslash with
three decimal digits, in a table of tokens a character stands as an escape of the source language.
The first text is read back group by group, the second by the scanner.
-/

open List

namespace Ifj24

namespace Code.Constant

variable {p s : Bytes} {b : UInt8}

def group? (x y z : UInt8) : Option UInt8 :=
  let digit (d : UInt8) : Nat := d.toNat - 48
  let n := digit x * 100 + digit y * 10 + digit z
  if [x, y, z].all (fun d => 48 ≤ d && d ≤ 57) && n < 256 then some n.toUInt8 else none

/-- The bytes that a text stands for, if every backslash in it starts three digits. -/
def decode? : Bytes → Option Bytes
  | [] => some []
  | b :: text =>
    if b = Bytes.ascii '\\' then
      match text with
      | x :: y :: z :: text => do return (← group? x y z) :: (← decode? text)
      | _ => none
    else do return b :: (← decode? text)

def IsPiece (p : Bytes) (b : UInt8) : Prop :=
  isSpecial b = false ∧ p = [b] ∨
    ∃ x y z, group? x y z = some b ∧ p = [Bytes.ascii '\\', x, y, z]

theorem exists_group (b : UInt8) :
    ∃ x y z, Bytes.paddedDigits 10 3 b.toNat = [x, y, z] ∧ group? x y z = some b := by
  have hall : ∀ n : Fin 256,
      let digit (k : Nat) := Bytes.ascii (Nat.digitChar (n.val / k % 10))
      Bytes.paddedDigits 10 3 n.val = [digit 100, digit 10, digit 1] ∧
        group? (digit 100) (digit 10) (digit 1) = some n.val.toUInt8 := by
    decide +kernel
  obtain ⟨hdigits, hgroup⟩ := hall ⟨b.toNat, b.toNat_lt⟩
  exact ⟨_, _, _, hdigits, by rw [hgroup, Nat.toUInt8_eq, UInt8.ofNat_toNat]⟩

theorem isPiece_escape (b : UInt8) : IsPiece (escape [b]) b := by
  rw [escape, flatMap_singleton]
  cases hspecial : isSpecial b with
  | false => exact .inl ⟨hspecial, rfl⟩
  | true =>
    obtain ⟨x, y, z, hdigits, hgroup⟩ := exists_group b
    exact .inr ⟨x, y, z, hgroup, by rw [if_pos rfl, hdigits]⟩

theorem escape_cons (b : UInt8) (s : Bytes) : escape (b :: s) = escape [b] ++ escape s := by
  simp [escape]

theorem IsPiece.decode?_append (h : IsPiece p b) (text : Bytes) :
    decode? (p ++ text) = (decode? text).map (b :: ·) := by
  rcases h with ⟨hspecial, rfl⟩ | ⟨x, y, z, hgroup, rfl⟩
  · have hb : b ≠ Bytes.ascii '\\' := by
      rintro rfl
      cases hspecial
    rw [singleton_append, decode?.eq_def]
    simp only [if_neg hb]
    cases decode? text <;> rfl
  · simp only [cons_append, nil_append, decode?, if_true, hgroup]
    cases decode? text <;> rfl

theorem decode?_escape (s : Bytes) : decode? (escape s) = some s := by
  induction s with
  | nil => rfl
  | cons b s ih => rw [escape_cons, (isPiece_escape b).decode?_append, ih, Option.map_some]

theorem no_mark_in_escape (s : Bytes) : Bytes.ascii '#' ∉ escape s := by
  have hall : ∀ n : Fin 256, Bytes.ascii '#' ∉ escape [n.val.toUInt8] := by decide +kernel
  induction s with
  | nil => exact nofun
  | cons b s ih =>
    have hb := hall ⟨b.toNat, b.toNat_lt⟩
    rw [Nat.toUInt8_eq, UInt8.ofNat_toNat] at hb
    rw [escape_cons, mem_append]
    exact not_or.mpr ⟨hb, ih⟩

end Code.Constant

namespace Lexeme

def hexByte? (p : Char × Char) : Option UInt8 := do
  return ((← hexDigit? p.1) * 16 + (← hexDigit? p.2)).toUInt8

def hexBody (pairs : List (Char × Char)) : List Char :=
  pairs.flatMap fun p => ['\\', 'x', p.1, p.2]

theorem quotes_hexBody {s : Bytes} (h : pairs.mapM hexByte? = some s) :
    Quotes (hexBody pairs) s := by
  induction pairs generalizing s with
  | nil =>
    cases h
    exact .nil
  | cons p pairs ih =>
    simp only [mapM_cons, hexByte?, Option.bind_eq_bind, Option.bind_eq_some_iff, Option.pure_def,
      Option.some.injEq] at h
    obtain ⟨_, ⟨high, hhigh, low, hlow, rfl⟩, bytes, hbytes, rfl⟩ := h
    exact .hex hhigh hlow (ih hbytes)

end Lexeme

open Code Code.Constant Lexeme in
/-- String constants are written without loss. The text of a constant has no blank, no control
character and no `#`; it consists of bytes that stand for themselves and of groups of three digits;
and its bytes are read back from it. So a string whose bytes are escaped in the source by their
hexadecimal digits becomes a line of two words, of which the second stands for these bytes. -/
theorem string_constants_lossless :
    (∀ s : Bytes, (∀ b ∈ escape s, 32 < b ∧ b ≠ Bytes.ascii '#') ∧
      escape s = s.flatMap (fun b => escape [b]) ∧ decode? (escape s) = some s) ∧
    (∀ b, IsPiece (escape [b]) b) ∧
    Function.Injective escape ∧
    ∀ pairs s, pairs.mapM hexByte? = some s → ∀ rest,
      let lexeme := Lexeme.read ('"' :: hexBody pairs ++ '"' :: rest)
      lexeme = ⟨.string, s, [], (hexBody pairs).length + 2⟩ ∧
        ∀ pos table t σ, ∃ x i, ∃ text : Bytes,
          Tree.Analyzer.leaf table ⟨lexeme.kind, lexeme.literal, pos⟩ = .ok (x, table) ∧
          push t x σ = ([i], σ) ∧ Assembly.words i.text = [("PUSHS" : Bytes), "string@" ++ text] ∧
          text.Solid ∧ decode? text = some s := by
  have hsolid (s : Bytes) : (escape s).Solid :=
    (Bytes.solid_append.mp (Constant.string s).solid_text).2
  refine ⟨fun s => ⟨fun b hb => ⟨hsolid s b hb, ?_⟩, by simp [escape], decode?_escape s⟩,
    isPiece_escape, ?_, ?_⟩
  · rintro rfl
    exact no_mark_in_escape s hb
  · intro s s' h
    rw [← Option.some_inj, ← decode?_escape s, h, decode?_escape]
  · intro pairs s h rest
    have hread := read_string rest (quotes_hexBody h)
    refine ⟨hread, fun pos table t σ => ?_⟩
    rw [hread]
    refine ⟨_, .push (.constant (.string s)), escape s, rfl, rfl, ?_, hsolid s, decode?_escape s⟩
    exact Assembly.words_instr fun x hx => mem_singleton.mp hx ▸ trivial

open Code Lexeme in
/-- A letter, the end of a line, a byte that is no text, and a backslash before digits. -/
theorem string_constants_lossless_hex :
    let pairs := [('4', '1'), ('0', 'a'), ('F', 'f'), ('5', 'C'), ('3', '1')]
    let bytes : Bytes := [0x41, 0x0A, 0xFF, 0x5C, 0x31]
    pairs.mapM hexByte? = some bytes ∧
      Constant.escape bytes = ("A\\010" : Bytes) ++ [0xFF] ++ ("\\0921" : Bytes) ∧
      Lexeme.read ('"' :: hexBody pairs ++ ['"']) = ⟨.string, bytes, [], 22⟩ := by
  intro pairs bytes
  have hbytes : pairs.mapM hexByte? = some bytes := by decide
  exact ⟨hbytes, by decide, (string_constants_lossless.2.2.2 pairs bytes hbytes []).1⟩

namespace Token

open Lexeme (Quotes)

theorem exists_quotes_shownChar (c : Char) :
    ∃ chars, shownChar c = Bytes.ofChars chars ∧ ∀ body bytes, Quotes body bytes →
      Quotes (chars ++ body) (String.utf8EncodeChar c ++ bytes) := by
  unfold shownChar
  split
  · exact ⟨['\\', 'n'], by decide, fun _ _ h => .escape rfl h⟩
  · exact ⟨['\\', 't'], by decide, fun _ _ h => .escape rfl h⟩
  · exact ⟨['\\', 'r'], by decide, fun _ _ h => .escape rfl h⟩
  · exact ⟨['\\', '\\'], by decide, fun _ _ h => .escape rfl h⟩
  · exact ⟨['\\', '"'], by decide, fun _ _ h => .escape rfl h⟩
  · rename_i hslash hquote
    split
    · rename_i hc
      have hlt : c.toNat < 32 := hc
      have hall : ∀ n : Fin 32, ("\\x" : Bytes) ++ Bytes.paddedDigits 16 2 n.val =
          Bytes.ofChars (hexEscape n.val.toUInt8) := by
        decide +kernel
      refine ⟨_, hall ⟨c.toNat, hlt⟩, fun body bytes h => ?_⟩
      rw [Utf8.encode_ascii (by omega)]
      exact h.hexEscape _
    · rename_i hc
      exact ⟨[c], rfl, fun _ _ h => .plain (Char.not_lt.mp hc) hquote hslash h⟩

theorem exists_quotes_shown (chars : List Char) :
    ∃ body, chars.flatMap shownChar = Bytes.ofChars body ∧ Quotes body (Bytes.ofChars chars) := by
  induction chars with
  | nil => exact ⟨[], rfl, .nil⟩
  | cons c chars ih =>
    obtain ⟨body, hbody, hquotes⟩ := ih
    obtain ⟨front, hfront, hstep⟩ := exists_quotes_shownChar c
    refine ⟨front ++ body, ?_, hstep body _ hquotes⟩
    rw [flatMap_cons, hfront, hbody]
    exact flatMap_append.symm

end Token

theorem Bytes.eq_ofChars_of_isUtf8 {bytes : Bytes} (h : bytes.isUtf8 = true) :
    bytes = ofChars (bytes.glyphs.map Glyph.replaced) := by
  have hscalar : ∀ g ∈ bytes.glyphs, g.bytes = String.utf8EncodeChar g.replaced := by
    intro g hg
    cases g with
    | scalar => rfl
    | stray => cases all_eq_true.mp h _ hg
  rw [ofChars, flatMap_map, flatMap_def, ← map_congr_left hscalar, ← flatMap_def,
    (decodes_glyphs bytes).bytes_eq]

/-- A table of tokens shows literals as they are scanned: what it shows for a text is one string
token with this literal. -/
theorem tokenize_shownLiteral {literal : Bytes} (hne : literal ≠ []) (h : literal.isUtf8 = true)
    (file : Bytes) :
    ∃ tokens, tokenize file (Token.shownLiteral literal) = .ok tokens ∧
      tokens.map Token.content = [(.string, literal), (.eof, [])] := by
  obtain ⟨body, hbody, hquotes⟩ := Token.exists_quotes_shown (literal.glyphs.map Glyph.replaced)
  rw [← Bytes.eq_ofChars_of_isUtf8 h] at hquotes
  have hshown : Token.shownLiteral literal = Bytes.ofChars ('"' :: body ++ ['"']) := by
    rw [flatMap_map] at hbody
    rw [Token.shownLiteral, if_neg (by simpa using hne), hbody]
    simp only [Bytes.ofChars, cons_append, flatMap_cons, flatMap_append, flatMap_nil]
    rfl
  unfold tokenize Scanner.start
  rw [hshown, Scanner.characters_ofChars, ← append_nil (_ :: _ ++ _)]
  exact Scanner.gives_nil.cons (.inl rfl) (.string hquotes) (by simp) .ending file .first

/-- A control character before a letter that is a digit too, a quote and a character of two
bytes. -/
theorem tokenize_shownLiteral_mixed :
    let literal : Bytes := "\x01f\"ž"
    Token.shownLiteral literal = "\"\\x01f\\\"ž\"" ∧
      ∃ tokens, tokenize "t" (Token.shownLiteral literal) = .ok tokens ∧
        tokens.map Token.content = [(.string, literal), (.eof, [])] :=
  ⟨by decide, tokenize_shownLiteral (by decide) (by decide) "t"⟩

end Ifj24
