import Ifj24.Proofs.Respelling

/-!
String literals as bytes of the source. The bytes of a literal stand for others: between quotes
each escape is replaced by its byte, and of lines behind double backslashes the rest of each line
is taken. The scanner works on characters, and writes them back as UTF-8. So what it reads is
what the bytes stand for exactly if the literal is UTF-8; a byte that is not is read as the
character of its number and becomes two bytes.
-/

open List

namespace Ifj24

open Utf8 (Decodes)

namespace StringLiteral

def hexValue (b : UInt8) : UInt8 :=
  if b ≤ 0x39 then b - 0x30 else if b ≤ 0x46 then b - 0x37 else b - 0x57

def escaped : UInt8 → UInt8
  | 0x6E => 0x0A
  | 0x74 => 0x09
  | 0x72 => 0x0D
  | b => b

/-- Bytes between quotes, each escape replaced by its byte and all others as they are. -/
def unescape : Bytes → Bytes
  | 0x5C :: 0x78 :: high :: low :: rest => (hexValue high * 16 + hexValue low) :: unescape rest
  | 0x5C :: b :: rest => escaped b :: unescape rest
  | b :: rest => b :: unescape rest
  | [] => []

def isBlank (b : UInt8) : Bool := b == 0x20 || b == 0x09 || b == 0x0D || b == 0x0A

/-- What a line has behind its double backslash; a blank line has none. -/
def lineText? (line : Bytes) : Option Bytes :=
  match line.dropWhile isBlank with
  | 0x5C :: 0x5C :: text => some text
  | _ => none

/-- The texts of lines behind double backslashes, joined by newlines. -/
def linesText (raw : Bytes) : Bytes := Bytes.join [0x0A] ((Bytes.splitOn 0x0A raw).filterMap lineText?)

/-- The bytes that a string literal of the source stands for. -/
def denoted : Bytes → Bytes
  | 0x22 :: inside => unescape inside.dropLast
  | raw => linesText raw

end StringLiteral

open StringLiteral

variable {c : Char} {b : UInt8}

namespace Utf8

theorem encode_ascii (h : c.toNat < 0x80) : String.utf8EncodeChar c = [Bytes.ascii c] := by
  have hn : c.val.toNat = c.toNat := rfl
  obtain ⟨-, hbytes⟩ | hmore := encode_cases c hn
  · exact hbytes
  · omega

theorem le_of_mem_encode (h : 0x80 ≤ c.toNat) (hb : b ∈ String.utf8EncodeChar c) :
    0x80 ≤ b.toNat := by
  have hvalid : c.toNat < 0xD800 ∨ 0xDFFF < c.toNat ∧ c.toNat < 0x110000 := c.valid
  have hbyte (m : Nat) (hlow : 0x80 ≤ m) (hhigh : m < 256) : 0x80 ≤ (UInt8.ofNat m).toNat := by
    rwa [UInt8.toNat_ofNat_of_lt' hhigh]
  obtain hone | ⟨-, hsize, hbytes⟩ | ⟨-, hsize, hbytes⟩ | ⟨-, hbytes⟩ :=
    encode_cases c (show c.val.toNat = c.toNat from rfl)
  · omega
  all_goals
    rw [hbytes] at hb
    simp only [mem_cons, not_mem_nil, or_false] at hb
  · obtain rfl | rfl := hb <;> apply hbyte <;> omega
  · obtain rfl | rfl | rfl := hb <;> apply hbyte <;> omega
  · obtain rfl | rfl | rfl | rfl := hb <;> apply hbyte <;> omega

theorem length_encode_latin (h : 0x80 ≤ b.toNat) :
    (String.utf8EncodeChar (Char.ofNat b.toNat)).length = 2 := by
  have hb := b.toNat_lt
  have hn := toNat_ofNat (n := b.toNat) (by omega)
  obtain hone | ⟨-, -, hbytes⟩ | hmore := encode_cases _ hn
  · omega
  · rw [hbytes]
    rfl
  · omega

end Utf8

namespace Glyph

def recoded (g : Glyph) : Bytes := String.utf8EncodeChar g.latin

theorem toNat_latin_stray : (Glyph.stray b).latin.toNat = b.toNat := by
  have hb := b.toNat_lt
  exact Utf8.toNat_ofNat (by omega)

theorem eq_scalar (hg : Strays [g]) (hc : c.toNat < 0x80) (h : g.latin = c) :
    g = .scalar c := by
  cases g with
  | scalar d => rw [← h]; rfl
  | stray b =>
    have hlow := hg b (by simp)
    rw [← h, toNat_latin_stray] at hc
    omega

/-- A way to write glyphs: characters in UTF-8, and stray bytes by bytes outside ASCII. -/
structure Encodes (e : Glyph → Bytes) : Prop where
  scalar : ∀ c, e (.scalar c) = String.utf8EncodeChar c
  stray : ∀ b, 0x80 ≤ b.toNat → ∀ x ∈ e (.stray b), 0x80 ≤ x.toNat

theorem encodes_bytes : Encodes bytes where
  scalar _ := rfl
  stray b hb x hx := by rwa [mem_singleton.mp hx]

theorem encodes_recoded : Encodes recoded where
  scalar _ := rfl
  stray b hb x hx := Utf8.le_of_mem_encode (by rwa [toNat_latin_stray]) hx

namespace Encodes

variable {e : Glyph → Bytes}

theorem ascii (h : Encodes e) (hc : c.toNat < 0x80) : e (.scalar c) = [Bytes.ascii c] := by
  rw [h.scalar, Utf8.encode_ascii hc]

theorem latin_of_mem (h : Encodes e) (hg : Strays [g]) (hc : c.toNat < 0x80)
    (hmem : Bytes.ascii c ∈ e g) : g.latin = c := by
  have hascii : (Bytes.ascii c).toNat = c.toNat := UInt8.toNat_ofNat_of_lt' (show _ < 256 by omega)
  cases g with
  | scalar d =>
    rw [h.scalar] at hmem
    by_cases hd : d.toNat < 0x80
    · rw [Utf8.encode_ascii hd] at hmem
      have hnat := congrArg UInt8.toNat (mem_singleton.mp hmem)
      rw [hascii, show (Bytes.ascii d).toNat = d.toNat from
        UInt8.toNat_ofNat_of_lt' (show _ < 256 by omega)] at hnat
      exact (Char.toNat_inj.mp hnat).symm
    · have hle := Utf8.le_of_mem_encode (Nat.le_of_not_lt hd) hmem
      omega
  | stray b =>
    have hle := h.stray b (hg b (by simp)) _ hmem
    omega

end Encodes

end Glyph

namespace StringLiteral

open Glyph (Encodes Strays strays_append recoded)
open Lexeme (Quotes Lines Spells)

variable {front line : Bytes} {e : Glyph → Bytes}

/-- A part of what a literal stands for: a glyph of the literal, or a byte that stands for an
escape or for the end of a line. -/
inductive Part where
  | kept (g : Glyph)
  | byte (b : UInt8)

open Ifj24.StringLiteral.Part

variable {p : Part}

def Part.bytes (e : Glyph → Bytes) : Part → Bytes
  | .kept g => e g
  | .byte b => [b]

/-- Glyphs of a literal have parts, the same in whatever way the glyphs are written. They hold
the stray bytes of the literal, and `literal` has their characters. -/
def Consists (denote : Bytes → Bytes) (glyphs : List Glyph) (literal : Bytes) : Prop :=
  ∃ parts : List Part, literal = parts.flatMap (bytes recoded) ∧
    (∀ b, .kept (.stray b) ∈ parts ↔ .stray b ∈ glyphs) ∧
    ∀ e, Encodes e → denote (glyphs.flatMap e) = parts.flatMap (bytes e)

/-! Between quotes -/

theorem unescape_append (h : 0x5C ∉ front) (rest : Bytes) :
    unescape (front ++ rest) = front ++ unescape rest := by
  induction front with
  | nil => rfl
  | cons b front ih =>
    have hb : b ≠ 0x5C := fun hb => h (hb ▸ mem_cons_self)
    have hfront : 0x5C ∉ front := fun hmem => h (mem_cons_of_mem b hmem)
    rw [cons_append, unescape, ih hfront, cons_append]
    · exact fun _ _ _ heq _ => hb heq
    · exact fun _ _ heq _ => hb heq

variable {glyphs : List Glyph} {literal : Bytes}

theorem exists_cons_of_map (h : glyphs.map Glyph.latin = c :: chars) (hstrays : Strays glyphs)
    (hc : c.toNat < 0x80) :
    ∃ rest, glyphs = .scalar c :: rest ∧ rest.map Glyph.latin = chars ∧ Strays rest := by
  obtain ⟨g, rest, rfl, hg, hrest⟩ := map_eq_cons_iff.mp h
  obtain ⟨hfirst, hstrays⟩ := strays_append.mp (show Strays ([g] ++ rest) from hstrays)
  exact ⟨rest, by rw [Glyph.eq_scalar hfirst hc hg], hrest, hstrays⟩

theorem simpleEscape?_eq_some (h : Lexeme.simpleEscape? c = some b) :
    c.toNat < 0x80 ∧ Bytes.ascii c ≠ 0x78 ∧ escaped (Bytes.ascii c) = b := by
  unfold Lexeme.simpleEscape? at h
  split at h <;> cases h <;> decide

theorem hexDigit?_eq_some (h : Lexeme.hexDigit? c = some n) :
    c.toNat < 0x80 ∧ hexValue (Bytes.ascii c) = n.toUInt8 := by
  have hsmall : c.toNat < 0x80 := by
    simp only [Lexeme.hexDigit?, Lexeme.isDigit, Bool.and_eq_true, decide_eq_true_eq] at h
    split at h
    · rename_i hc
      exact Nat.lt_of_le_of_lt (show c.toNat ≤ '9'.toNat from hc.2) (by decide)
    split at h
    · rename_i hc
      exact Nat.lt_of_le_of_lt (show c.toNat ≤ 'f'.toNat from hc.2) (by decide)
    split at h
    · rename_i hc
      exact Nat.lt_of_le_of_lt (show c.toNat ≤ 'F'.toNat from hc.2) (by decide)
    · cases h
  have hall : ∀ i : Fin 0x80, ∀ n ∈ Lexeme.hexDigit? (Char.ofNat i.val),
      hexValue (Bytes.ascii (Char.ofNat i.val)) = n.toUInt8 := by decide
  have hc := hall ⟨c.toNat, hsmall⟩ n
  rw [Char.ofNat_toNat] at hc
  exact ⟨hsmall, hc h⟩

theorem unescape_escape (h : b ≠ 0x78) (rest : Bytes) :
    unescape (0x5C :: b :: rest) = escaped b :: unescape rest := by
  rw [unescape]
  rintro _ _ _ rfl
  exact absurd rfl h

theorem consists_unescape (h : Quotes chars literal) (hchars : glyphs.map Glyph.latin = chars)
    (hstrays : Strays glyphs) : Consists unescape glyphs literal := by
  have hslash : ('\\').toNat < 0x80 := by decide
  induction h generalizing glyphs with
  | nil =>
    rw [map_eq_nil_iff.mp hchars]
    exact ⟨[], rfl, by simp, fun _ _ => rfl⟩
  | @plain c chars bytes _ _ hc _ ih =>
    obtain ⟨g, rest, rfl, rfl, hrest⟩ := map_eq_cons_iff.mp hchars
    obtain ⟨hg, hstrays⟩ := strays_append.mp (show Strays ([g] ++ rest) from hstrays)
    obtain ⟨parts, rfl, hmem, hparts⟩ := ih hrest hstrays
    refine ⟨.kept g :: parts, by rw [flatMap_cons]; rfl, by simp [hmem], fun e he => ?_⟩
    have hplain : 0x5C ∉ e g := fun hmem => hc (he.latin_of_mem hg hslash hmem)
    rw [flatMap_cons, unescape_append hplain, hparts e he, flatMap_cons, bytes]
  | @escape c b chars bytes hescape _ ih =>
    obtain ⟨hc, hx, hb⟩ := simpleEscape?_eq_some hescape
    obtain ⟨glyphs, rfl, hchars, hstrays⟩ := exists_cons_of_map hchars hstrays hslash
    obtain ⟨rest, rfl, hrest, hstrays⟩ := exists_cons_of_map hchars hstrays hc
    obtain ⟨parts, rfl, hmem, hparts⟩ := ih hrest hstrays
    refine ⟨.byte b :: parts, rfl, by simp [hmem], fun e he => ?_⟩
    rw [flatMap_cons, flatMap_cons, he.ascii hslash, he.ascii hc]
    show unescape (0x5C :: Bytes.ascii c :: rest.flatMap e) = _
    rw [unescape_escape hx, hb, hparts e he]
    rfl
  | @hex high low hn ln chars bytes hhigh hlow _ ih =>
    obtain ⟨hhc, hhv⟩ := hexDigit?_eq_some hhigh
    obtain ⟨hlc, hlv⟩ := hexDigit?_eq_some hlow
    have hmark : ('x').toNat < 0x80 := by decide
    obtain ⟨glyphs, rfl, hchars, hstrays⟩ := exists_cons_of_map hchars hstrays hslash
    obtain ⟨glyphs, rfl, hchars, hstrays⟩ := exists_cons_of_map hchars hstrays hmark
    obtain ⟨glyphs, rfl, hchars, hstrays⟩ := exists_cons_of_map hchars hstrays hhc
    obtain ⟨rest, rfl, hrest, hstrays⟩ := exists_cons_of_map hchars hstrays hlc
    obtain ⟨parts, rfl, hmem, hparts⟩ := ih hrest hstrays
    refine ⟨.byte (hn * 16 + ln).toUInt8 :: parts, rfl, by simp [hmem], fun e he => ?_⟩
    simp only [flatMap_cons, he.ascii hslash, he.ascii hmark, he.ascii hhc, he.ascii hlc]
    show unescape (0x5C :: 0x78 :: Bytes.ascii high :: Bytes.ascii low :: rest.flatMap e) = _
    have hbyte : hexValue (Bytes.ascii high) * 16 + hexValue (Bytes.ascii low) =
        (hn * 16 + ln).toUInt8 := by
      rw [hhv, hlv]
      exact (UInt8.ofNat_add _ _).trans (congrArg (· + _) (UInt8.ofNat_mul _ _)) |>.symm
    rw [unescape, hbyte, hparts e he]
    rfl

/-! Lines behind double backslashes -/

theorem lineText?_backslashes (text : Bytes) : lineText? (0x5C :: 0x5C :: text) = some text := rfl

theorem lineText?_cons (h : isBlank b = true) (line : Bytes) :
    lineText? (b :: line) = lineText? line := by
  rw [lineText?, lineText?, dropWhile_cons_of_pos h]

theorem filterMap_blanks (h : ∀ b ∈ blanks, isBlank b = true) (rest : Bytes) :
    (Bytes.splitOn 0x0A (blanks ++ rest)).filterMap lineText? =
      (Bytes.splitOn 0x0A rest).filterMap lineText? := by
  induction blanks with
  | nil => rfl
  | cons b blanks ih =>
    have hb := h b mem_cons_self
    have hrest := ih fun c hc => h c (mem_cons_of_mem b hc)
    rw [cons_append, ← hrest, Bytes.splitOn, Bytes.splitOn, splitOnP_cons_eq_if_modifyHead]
    split
    · rfl
    · cases hsplit : (blanks ++ rest).splitOnP (· == 0x0A) with
      | nil => exact absurd hsplit (splitOnP_ne_nil _ _)
      | cons line lines =>
        rw [modifyHead_cons, filterMap_cons, filterMap_cons, lineText?_cons hb]

theorem beq_newline (h : 0x0A ∉ line) :
    ∀ b ∈ 0x5C :: 0x5C :: line, (b == 0x0A) = false := by
  intro b hb
  apply beq_eq_false_iff_ne.mpr
  rintro rfl
  simp [h] at hb

theorem linesText_last (h : 0x0A ∉ line) :
    linesText (0x5C :: 0x5C :: line) = line := by
  rw [linesText, Bytes.splitOn, splitOnP_eq_singleton (beq_newline h),
    filterMap_cons_some (lineText?_backslashes line), filterMap_nil, Bytes.join,
    intercalate_singleton]

theorem exists_filterMap (rest : Bytes) :
    ∃ first more, (Bytes.splitOn 0x0A (0x5C :: 0x5C :: rest)).filterMap lineText? =
      first :: more := by
  have hslash : ¬ ((0x5C : UInt8) == 0x0A) = true := by decide
  rw [Bytes.splitOn, splitOnP_cons_eq_if_modifyHead, if_neg hslash,
    splitOnP_cons_eq_if_modifyHead, if_neg hslash]
  cases hsplit : rest.splitOnP (· == 0x0A) with
  | nil => exact absurd hsplit (splitOnP_ne_nil _ _)
  | cons line lines => exact ⟨line, _, rfl⟩

theorem linesText_line (h : 0x0A ∉ line) (hblanks : ∀ b ∈ blanks, isBlank b = true) (rest : Bytes) :
    linesText (0x5C :: 0x5C :: line ++ 0x0A :: (blanks ++ 0x5C :: 0x5C :: rest)) =
      line ++ 0x0A :: linesText (0x5C :: 0x5C :: rest) := by
  obtain ⟨first, more, htexts⟩ := exists_filterMap rest
  have hsplit : (Bytes.splitOn 0x0A (0x5C :: 0x5C :: line ++
      0x0A :: (blanks ++ 0x5C :: 0x5C :: rest))).filterMap lineText? = line :: first :: more := by
    rw [Bytes.splitOn, splitOnP_append_cons_of_forall_mem (beq_newline h) _ rfl,
      filterMap_cons_some (lineText?_backslashes line), ← Bytes.splitOn,
      filterMap_blanks hblanks, htexts]
  rw [linesText, linesText, hsplit, htexts, Bytes.join, intercalate_cons_cons]
  simp [Bytes.join]

theorem isBlank_ascii (h : Lexeme.isBlank c = true) :
    c.toNat < 0x80 ∧ isBlank (Bytes.ascii c) = true := by
  simp only [Lexeme.isBlank, Bool.or_eq_true, beq_iff_eq] at h
  obtain ((rfl | rfl) | rfl) | rfl := h <;> decide

theorem isBlank_of_mem (he : Encodes e) (hstrays : Strays glyphs)
    (h : ∀ c ∈ glyphs.map Glyph.latin, Lexeme.isBlank c = true) :
    ∀ b ∈ glyphs.flatMap e, isBlank b = true := by
  intro b hb
  obtain ⟨g, hg, hmem⟩ := mem_flatMap.mp hb
  obtain ⟨hsmall, hblank⟩ := isBlank_ascii (h g.latin (mem_map_of_mem hg))
  have hone : Strays [g] := fun x hx => hstrays x (by rwa [mem_singleton.mp hx])
  rw [Glyph.eq_scalar hone hsmall rfl, he.ascii hsmall] at hmem
  rwa [mem_singleton.mp hmem]

theorem newline_not_mem (he : Encodes e) (hstrays : Strays glyphs)
    (h : '\n' ∉ glyphs.map Glyph.latin) : 0x0A ∉ glyphs.flatMap e := by
  intro hb
  obtain ⟨g, hg, hmem⟩ := mem_flatMap.mp hb
  have hone : Strays [g] := fun x hx => hstrays x (by rwa [mem_singleton.mp hx])
  have hlatin := he.latin_of_mem hone (c := '\n') (by decide) hmem
  exact h (hlatin ▸ mem_map_of_mem hg)

theorem flatMap_kept (e : Glyph → Bytes) (glyphs : List Glyph) :
    (glyphs.map kept).flatMap (bytes e) = glyphs.flatMap e := by
  rw [flatMap_map]
  rfl

theorem consists_linesText (h : Lines chars literal) (hchars : glyphs.map Glyph.latin = chars)
    (hstrays : Strays glyphs) :
    Consists (fun raw => linesText (0x5C :: 0x5C :: raw)) glyphs literal := by
  induction h generalizing glyphs with
  | @last line hline =>
    subst hchars
    refine ⟨glyphs.map .kept, ?_, by simp, fun e he => ?_⟩
    · rw [flatMap_kept, Bytes.ofChars, flatMap_map]
      rfl
    · rw [flatMap_kept]
      exact linesText_last (newline_not_mem he hstrays hline)
  | @more line blanks rest bytes hline hblanks _ ih =>
    have hslash : ('\\').toNat < 0x80 := by decide
    obtain ⟨front, tail, rfl, hfront, htail⟩ := map_eq_append_iff.mp hchars
    obtain ⟨line, gap, rfl, rfl, hgap⟩ := map_eq_append_iff.mp hfront
    obtain ⟨hfrontStrays, htailStrays⟩ := strays_append.mp hstrays
    obtain ⟨hlineStrays, hgapStrays⟩ := strays_append.mp hfrontStrays
    obtain ⟨blanks, rfl, rfl, hblankStrays⟩ := exists_cons_of_map hgap hgapStrays (by decide)
    obtain ⟨tail, rfl, htail, htailStrays⟩ := exists_cons_of_map htail htailStrays hslash
    obtain ⟨rest, rfl, hrest, hrestStrays⟩ := exists_cons_of_map htail htailStrays hslash
    obtain ⟨parts, rfl, hmem, hparts⟩ := ih hrest hrestStrays
    have hplain (b : UInt8) : Glyph.stray b ∉ blanks := by
      intro hb
      have hsmall := (isBlank_ascii (hblanks _ (mem_map_of_mem hb))).1
      have hlow := hblankStrays b hb
      rw [Glyph.toNat_latin_stray] at hsmall
      omega
    have hjoined (e : Glyph → Bytes) :
        (line.map kept ++ byte 0x0A :: parts).flatMap (bytes e) =
          line.flatMap e ++ 0x0A :: parts.flatMap (bytes e) := by
      rw [flatMap_append, flatMap_kept, flatMap_cons]
      rfl
    refine ⟨line.map .kept ++ .byte 0x0A :: parts, ?_, by simp [hmem, hplain], fun e he => ?_⟩
    · rw [hjoined, Bytes.ofChars, flatMap_map]
      rfl
    · have hline := newline_not_mem he hlineStrays hline
      have hblanks := isBlank_of_mem he hblankStrays hblanks
      rw [hjoined, ← hparts e he]
      simp only [flatMap_append, flatMap_cons, he.ascii hslash,
        he.ascii (show ('\n').toNat < 0x80 by decide), append_assoc]
      exact linesText_line hline hblanks _

/-! Whole literals -/

theorem consists_denoted (h : Spells kind literal (glyphs.map Glyph.latin))
    (hkind : kind = .string) (hstrays : Strays glyphs) : Consists denoted glyphs literal := by
  have hquote : ('"').toNat < 0x80 := by decide
  have hslash : ('\\').toNat < 0x80 := by decide
  generalize hchars : glyphs.map Glyph.latin = chars at h
  cases h with
  | fixed _ hfixed => rw [hkind] at hfixed; cases hfixed
  | name => cases hkind
  | int => cases hkind
  | float => cases hkind
  | @string body bytes hbody =>
    obtain ⟨glyphs, rfl, hchars, hstrays⟩ := exists_cons_of_map hchars hstrays hquote
    obtain ⟨glyphs, ending, rfl, hins, hending⟩ := map_eq_append_iff.mp hchars
    obtain ⟨hinsideStrays, hendingStrays⟩ := strays_append.mp hstrays
    obtain ⟨rest, rfl, hrest, -⟩ := exists_cons_of_map hending hendingStrays hquote
    cases map_eq_nil_iff.mp hrest
    obtain ⟨parts, rfl, hmem, hparts⟩ := consists_unescape hbody hins hinsideStrays
    refine ⟨parts, rfl, by simp [hmem], fun e he => ?_⟩
    rw [flatMap_cons, flatMap_append, he.ascii hquote, flatMap_singleton,
      he.ascii hquote]
    show unescape (glyphs.flatMap e ++ [Bytes.ascii '"']).dropLast = _
    rw [dropLast_concat, hparts e he]
  | @multiline body bytes hbody =>
    obtain ⟨glyphs, rfl, hchars, hstrays⟩ := exists_cons_of_map hchars hstrays hslash
    obtain ⟨glyphs, rfl, hchars, hstrays⟩ := exists_cons_of_map hchars hstrays hslash
    obtain ⟨parts, rfl, hmem, hparts⟩ := consists_linesText hbody hchars hstrays
    refine ⟨parts, rfl, by simp [hmem], fun e he => ?_⟩
    rw [flatMap_cons, flatMap_cons, he.ascii hslash]
    exact hparts e he

theorem Part.bytes_eq (h : ∀ b, p ≠ .kept (.stray b)) :
    p.bytes recoded = p.bytes Glyph.bytes := by
  cases p with
  | byte b => rfl
  | kept g =>
    cases g with
    | scalar c => rfl
    | stray b => exact absurd rfl (h b)

theorem Part.length_bytes_le (h : ∀ b, p = .kept (.stray b) → 0x80 ≤ b.toNat) :
    (p.bytes Glyph.bytes).length ≤ (p.bytes recoded).length := by
  by_cases hstray : ∃ b, p = .kept (.stray b)
  · obtain ⟨b, rfl⟩ := hstray
    show 1 ≤ (String.utf8EncodeChar (Char.ofNat b.toNat)).length
    have hlen := Utf8.length_encode_latin (h b rfl)
    omega
  · have hbytes := bytes_eq fun b hb => hstray ⟨b, hb⟩
    exact Nat.le_of_eq (congrArg List.length hbytes.symm)

theorem length_flatMap_lt {parts : List Part}
    (hstrays : ∀ b, .kept (.stray b) ∈ parts → 0x80 ≤ b.toNat) (h : .kept (.stray b) ∈ parts) :
    (parts.flatMap (bytes Glyph.bytes)).length <
      (parts.flatMap (bytes recoded)).length := by
  have hle (more : List Part) (hmore : ∀ b, .kept (.stray b) ∈ more → 0x80 ≤ b.toNat) :
      (more.flatMap (bytes Glyph.bytes)).length ≤
        (more.flatMap (bytes recoded)).length := by
    induction more with
    | nil => exact Nat.le_refl _
    | cons p more ih =>
      have hp := length_bytes_le fun b hb => hmore b (hb ▸ mem_cons_self)
      have hrest := ih fun b hb => hmore b (mem_cons_of_mem p hb)
      simp only [flatMap_cons, length_append]
      omega
  obtain ⟨front, back, rfl⟩ := append_of_mem h
  have hfront := hle front fun b hb => hstrays b (by simp [hb])
  have hback := hle back fun b hb => hstrays b (by simp [hb])
  have hstray : (bytes recoded (.kept (.stray b))).length = 2 :=
    Utf8.length_encode_latin (hstrays b h)
  have hbyte : (bytes Glyph.bytes (.kept (.stray b))).length = 1 := rfl
  rw [flatMap_append, flatMap_append, flatMap_cons, flatMap_cons]
  simp only [length_append]
  omega

theorem Consists.eq_iff {denote : Bytes → Bytes} (h : Consists denote glyphs literal)
    (hstrays : Strays glyphs) :
    literal = denote (glyphs.flatMap recoded) ∧
      (literal = denote (glyphs.flatMap Glyph.bytes) ↔ ∀ b, .stray b ∉ glyphs) := by
  obtain ⟨parts, rfl, hmem, hparts⟩ := h
  rw [hparts recoded Glyph.encodes_recoded, hparts Glyph.bytes Glyph.encodes_bytes]
  refine ⟨rfl, fun heq b hb => ?_, fun hnone => ?_⟩
  · have hlt := length_flatMap_lt (fun b hb => hstrays b ((hmem b).mp hb)) ((hmem b).mpr hb)
    rw [heq] at hlt
    exact Nat.lt_irrefl _ hlt
  · rw [flatMap_def, flatMap_def]
    refine congrArg List.flatten (map_congr_left fun p hp => bytes_eq ?_)
    rintro b rfl
    exact hnone b ((hmem b).mp hp)

end StringLiteral

/-- The literal of a string token is what the bytes of its lexeme stand for if and only if there
is no stray byte among them. In any case it is what they stand for with each stray byte replaced
by the encoding of the character of its number. -/
theorem tokenize_reads_strings {file source : Bytes} {tokens : List Token}
    (h : tokenize file source = .ok tokens) :
    ∃ (pieces : List Piece) (last : List Glyph) (stop : Pos),
      Decodes (pieces.flatMap Piece.glyphs ++ last) source ∧
      tokens = pieces.map Piece.token ++ [⟨.eof, [], stop⟩] ∧
      ∀ p ∈ pieces, p.token.kind = .string →
        p.token.literal = denoted (p.lexeme.flatMap Glyph.recoded) ∧
        (p.token.literal = denoted (p.lexeme.flatMap Glyph.bytes) ↔
          ∀ b, .stray b ∉ p.lexeme) := by
  obtain ⟨pieces, last, hdecodes, hstrays, -, -, htoks, -⟩ := exists_pieces_of_tokenize h
  refine ⟨pieces, last, _, hdecodes, htoks, fun p hp hkind => ?_⟩
  have hlexeme : Glyph.Strays p.lexeme := by
    intro b hb
    apply hstrays b
    exact mem_append_left _ (mem_flatMap.mpr ⟨p, hp, mem_append_right _ hb⟩)
  exact (consists_denoted p.spells hkind hlexeme).eq_iff hlexeme

/-- A string in quotes with an escape, and one of two lines with a stray byte. -/
def mixedStrings : Bytes := ("\"ž\\x80\" \\\\" : Bytes) ++ [0xFF] ++ ("\n \\\\b" : Bytes)

def mixedTokens : List Token :=
  [⟨.string, [0xC5, 0xBE, 0x80], ⟨"t", 1, 1⟩⟩, ⟨.string, [0xC3, 0xBF, 0x0A, 0x62], ⟨"t", 1, 9⟩⟩,
    ⟨.eof, [], ⟨"t", 2, 5⟩⟩]

theorem tokenize_reads_mixedStrings :
    tokenize "t" mixedStrings = .ok mixedTokens ∧
      ∃ (pieces : List Piece) (last : List Glyph) (stop : Pos),
        Decodes (pieces.flatMap Piece.glyphs ++ last) mixedStrings ∧
        mixedTokens = pieces.map Piece.token ++ [⟨.eof, [], stop⟩] ∧
        ∀ p ∈ pieces, p.token.kind = .string →
          p.token.literal = denoted (p.lexeme.flatMap Glyph.recoded) ∧
          (p.token.literal = denoted (p.lexeme.flatMap Glyph.bytes) ↔
            ∀ b, .stray b ∉ p.lexeme) := by
  have htoks : tokenize "t" mixedStrings = .ok mixedTokens :=
    eq_ok_of_toOption (by decide +kernel)
  exact ⟨htoks, tokenize_reads_strings htoks⟩

/-- A stray byte is not kept, neither in quotes nor behind a double backslash. -/
theorem tokenize_stray_string :
    (denoted [0x22, 0xFF, 0x22] = [0xFF] ∧
      tokenize "t" [0x22, 0xFF, 0x22] =
        .ok [⟨.string, [0xC3, 0xBF], ⟨"t", 1, 1⟩⟩, ⟨.eof, [], ⟨"t", 1, 4⟩⟩]) ∧
    denoted [0x5C, 0x5C, 0xFF] = [0xFF] ∧
      tokenize "t" [0x5C, 0x5C, 0xFF] =
        .ok [⟨.string, [0xC3, 0xBF], ⟨"t", 1, 1⟩⟩, ⟨.eof, [], ⟨"t", 1, 4⟩⟩] :=
  ⟨⟨by decide +kernel, eq_ok_of_toOption (by decide +kernel)⟩,
    by decide +kernel, eq_ok_of_toOption (by decide +kernel)⟩

end Ifj24
