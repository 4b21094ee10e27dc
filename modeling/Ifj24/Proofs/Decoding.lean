import Ifj24.Text.Utf8

/-!
Decoding of byte strings. The glyphs of a byte string are the only way to read it from left to
right, with a character wherever the next bytes encode one and a stray byte wherever they
encode none.
-/

open List

namespace Ifj24

namespace Utf8

variable {c : UInt8}

theorem toNat_ofNat (h : n < 0xD800 ∨ 0xDFFF < n ∧ n < 0x110000) :
    (Char.ofNat n).val.toNat = n := by
  have hvalid : n.isValidChar := h
  rw [Char.ofNat, dif_pos hvalid]
  rfl

theorem encode_cases (c : Char) (hn : c.val.toNat = n) :
    (n < 0x80 ∧ String.utf8EncodeChar c = [UInt8.ofNat n]) ∨
    (0x80 ≤ n ∧ n < 0x800 ∧
      String.utf8EncodeChar c = [UInt8.ofNat (n / 64 + 0xC0), UInt8.ofNat (n % 64 + 0x80)]) ∨
    (0x800 ≤ n ∧ n < 0x10000 ∧
      String.utf8EncodeChar c = [UInt8.ofNat (n / 4096 + 0xE0),
        UInt8.ofNat (n / 64 % 64 + 0x80), UInt8.ofNat (n % 64 + 0x80)]) ∨
    (0x10000 ≤ n ∧
      String.utf8EncodeChar c = [UInt8.ofNat (n / 262144 + 0xF0),
        UInt8.ofNat (n / 4096 % 64 + 0x80), UInt8.ofNat (n / 64 % 64 + 0x80),
        UInt8.ofNat (n % 64 + 0x80)]) := by
  have hvalid : n < 0xD800 ∨ 0xDFFF < n ∧ n < 0x110000 := hn ▸ c.valid
  simp only [String.utf8EncodeChar, hn]
  by_cases hone : n ≤ 127
  · left
    exact ⟨by omega, if_pos hone⟩
  rw [if_neg hone]
  by_cases htwo : n ≤ 2047
  · right; left
    have hlead : n / 64 % 32 = n / 64 := by omega
    exact ⟨by omega, by omega, by rw [if_pos htwo, hlead]⟩
  rw [if_neg htwo]
  by_cases hthree : n ≤ 65535
  · right; right; left
    have hlead : n / 4096 % 16 = n / 4096 := by omega
    exact ⟨by omega, by omega, by rw [if_pos hthree, hlead]⟩
  · right; right; right
    have hlead : n / 262144 % 8 = n / 262144 := by omega
    exact ⟨by omega, by rw [if_neg hthree, hlead]⟩

variable {b : UInt8} {bytes : Bytes}

theorem toNat_of_isTail (h : isTail b = true) : b.toNat = payload b + 0x80 ∧ payload b < 64 := by
  have hb : 0x80 ≤ b.toNat ∧ b.toNat ≤ 0xBF := by
    simpa [isTail, UInt8.le_iff_toNat_le] using h
  unfold payload
  omega

theorem eq_ofNat (h : b.toNat = n) : UInt8.ofNat n = b := by
  rw [← h, UInt8.ofNat_toNat]

theorem encode_one (ha : a.toNat < 0x80) : String.utf8EncodeChar (Char.ofNat a.toNat) = [a] := by
  have hn := toNat_ofNat (n := a.toNat) (by omega)
  obtain ⟨-, hbytes⟩ | hmore := encode_cases _ hn
  · rw [hbytes, eq_ofNat rfl]
  · omega

theorem encode_two (ha : 0xC2 ≤ a.toNat ∧ a.toNat ≤ 0xDF) (hb : isTail b = true) :
    String.utf8EncodeChar (Char.ofNat ((a.toNat - 0xC0) * 64 + payload b)) = [a, b] := by
  have hb := toNat_of_isTail hb
  have hn := toNat_ofNat (n := (a.toNat - 0xC0) * 64 + payload b) (by omega)
  obtain hone | ⟨-, -, hbytes⟩ | hmore := encode_cases _ hn
  · omega
  · rw [hbytes, eq_ofNat (b := a) (by omega), eq_ofNat (b := b) (by omega)]
  · omega

theorem encode_three (ha : 0xE0 ≤ a.toNat ∧ a.toNat ≤ 0xEF) (hb : isTail b = true)
    (hc : isTail c = true) (hlow : a.toNat ≠ 0xE0 ∨ 0xA0 ≤ b.toNat)
    (hhigh : a.toNat ≠ 0xED ∨ b.toNat ≤ 0x9F) :
    String.utf8EncodeChar
      (Char.ofNat (((a.toNat - 0xE0) * 64 + payload b) * 64 + payload c)) = [a, b, c] := by
  have hb := toNat_of_isTail hb
  have hc := toNat_of_isTail hc
  have hn := toNat_ofNat
    (n := ((a.toNat - 0xE0) * 64 + payload b) * 64 + payload c) (by omega)
  obtain hone | htwo | ⟨-, -, hbytes⟩ | hmore := encode_cases _ hn
  · omega
  · omega
  · rw [hbytes, eq_ofNat (b := a) (by omega), eq_ofNat (b := b) (by omega),
      eq_ofNat (b := c) (by omega)]
  · omega

theorem encode_four (ha : 0xF0 ≤ a.toNat ∧ a.toNat ≤ 0xF4) (hb : isTail b = true)
    (hc : isTail c = true) (hd : isTail d = true) (hlow : a.toNat ≠ 0xF0 ∨ 0x90 ≤ b.toNat)
    (hhigh : a.toNat ≠ 0xF4 ∨ b.toNat ≤ 0x8F) :
    String.utf8EncodeChar
      (Char.ofNat ((((a.toNat - 0xF0) * 64 + payload b) * 64 + payload c) * 64 + payload d)) =
        [a, b, c, d] := by
  have hb := toNat_of_isTail hb
  have hc := toNat_of_isTail hc
  have hd := toNat_of_isTail hd
  have hn := toNat_ofNat (n := (((a.toNat - 0xF0) * 64 + payload b) * 64 +
    payload c) * 64 + payload d) (by omega)
  obtain hone | htwo | hthree | ⟨-, hbytes⟩ := encode_cases _ hn
  · omega
  · omega
  · omega
  · rw [hbytes, eq_ofNat (b := a) (by omega), eq_ofNat (b := b) (by omega),
      eq_ofNat (b := c) (by omega), eq_ofNat (b := d) (by omega)]

/-- What is read as a character is its encoding. -/
theorem eq_encode_of_scalar? {c : Char} (h : scalar? bytes = some (c, width)) :
    width = (String.utf8EncodeChar c).length ∧
      ∃ rest, bytes = String.utf8EncodeChar c ++ rest := by
  unfold scalar? at h
  simp only [UInt8.lt_iff_toNat_lt, UInt8.le_iff_toNat_le, Bool.and_eq_true, decide_eq_true_eq,
    Bool.not_eq_true', Bool.and_eq_false_iff, beq_eq_false_iff_ne, decide_eq_false_iff_not,
    ne_eq, ← UInt8.toNat_inj, UInt8.reduceToNat, Nat.not_lt] at h
  split at h
  case h_2 => cases h
  rename_i a rest
  split at h
  · rename_i ha
    obtain ⟨rfl, rfl⟩ := Prod.mk.inj (Option.some.inj h)
    rw [encode_one ha]
    exact ⟨rfl, rest, rfl⟩
  split at h
  · rename_i ha
    split at h
    case h_2 => cases h
    rename_i b rest
    split at h
    case isFalse => cases h
    rename_i hb
    obtain ⟨rfl, rfl⟩ := Prod.mk.inj (Option.some.inj h)
    rw [encode_two ha hb]
    exact ⟨rfl, rest, rfl⟩
  split at h
  · rename_i ha
    split at h
    case h_2 => cases h
    rename_i b c rest
    split at h
    case isFalse => cases h
    rename_i hbc
    obtain ⟨⟨⟨hb, hc⟩, hlow⟩, hhigh⟩ := hbc
    obtain ⟨rfl, rfl⟩ := Prod.mk.inj (Option.some.inj h)
    rw [encode_three ha hb hc hlow hhigh]
    exact ⟨rfl, rest, rfl⟩
  split at h
  · rename_i ha
    split at h
    case h_2 => cases h
    rename_i b c d rest
    split at h
    case isFalse => cases h
    rename_i hbcd
    obtain ⟨⟨⟨⟨hb, hc⟩, hd⟩, hlow⟩, hhigh⟩ := hbcd
    obtain ⟨rfl, rfl⟩ := Prod.mk.inj (Option.some.inj h)
    rw [encode_four ha hb hc hd hlow hhigh]
    exact ⟨rfl, rest, rfl⟩
  · cases h

theorem isTail_ofNat (h : n < 64) :
    isTail (UInt8.ofNat (n + 0x80)) = true ∧ payload (UInt8.ofNat (n + 0x80)) = n := by
  have hn : (UInt8.ofNat (n + 0x80)).toNat = n + 0x80 :=
    UInt8.toNat_ofNat_of_lt' (show n + 0x80 < 256 by omega)
  constructor
  · simp only [isTail, UInt8.le_iff_toNat_le, hn, UInt8.reduceToNat, Bool.and_eq_true,
      decide_eq_true_eq]
    omega
  · unfold payload
    omega

/-- The encoding of a character is read back, whatever follows. -/
theorem scalar?_encode (c : Char) (rest : Bytes) :
    scalar? (String.utf8EncodeChar c ++ rest) =
      some (c, (String.utf8EncodeChar c).length) := by
  have hvalid : c.val.toNat < 0xD800 ∨ 0xDFFF < c.val.toNat ∧ c.val.toNat < 0x110000 := c.valid
  have hc : Char.ofNat c.val.toNat = c := Char.ofNat_toNat c
  generalize hn : c.val.toNat = n at hvalid hc
  have hbyte : ∀ m, m < 256 → (UInt8.ofNat m).toNat = m :=
    fun m hm => UInt8.toNat_ofNat_of_lt' hm
  obtain ⟨hone, hbytes⟩ | ⟨hlow, hhigh, hbytes⟩ | ⟨hlow, hhigh, hbytes⟩ | ⟨hlow, hbytes⟩ :=
    encode_cases c hn
  · have ha := hbyte n (by omega)
    simp [hbytes, scalar?, UInt8.lt_iff_toNat_lt, ha, hone, hc]
  · have ha := hbyte (n / 64 + 0xC0) (by omega)
    obtain ⟨hb, hbits⟩ := isTail_ofNat (n := n % 64) (by omega)
    have hwhole : (n / 64 + 0xC0 - 0xC0) * 64 + n % 64 = n := by omega
    simp only [hbytes, scalar?, cons_append, UInt8.lt_iff_toNat_lt, UInt8.le_iff_toNat_le,
      Bool.and_eq_true, decide_eq_true_eq, UInt8.reduceToNat, ha, hb, hbits, hwhole, hc]
    rw [if_neg (by omega), if_pos (by omega)]
    rfl
  · have ha := hbyte (n / 4096 + 0xE0) (by omega)
    obtain ⟨hb, hbits⟩ := isTail_ofNat (n := n / 64 % 64) (by omega)
    obtain ⟨ht, htbits⟩ := isTail_ofNat (n := n % 64) (by omega)
    have hbNat := hbyte (n / 64 % 64 + 0x80) (by omega)
    have hwhole : ((n / 4096 + 0xE0 - 0xE0) * 64 + n / 64 % 64) * 64 + n % 64 = n := by omega
    simp only [hbytes, scalar?, cons_append, UInt8.lt_iff_toNat_lt, UInt8.le_iff_toNat_le,
      Bool.and_eq_true, decide_eq_true_eq, Bool.not_eq_true', Bool.and_eq_false_iff,
      beq_eq_false_iff_ne, decide_eq_false_iff_not, ne_eq, ← UInt8.toNat_inj, UInt8.reduceToNat,
      and_self, true_and, ha, hb, ht, hbNat, hbits, htbits, hwhole, hc]
    rw [if_neg (by omega), if_neg (by omega), if_pos (by omega), if_pos (by omega)]
    rfl
  · have ha := hbyte (n / 262144 + 0xF0) (by omega)
    obtain ⟨hb, hbits⟩ := isTail_ofNat (n := n / 4096 % 64) (by omega)
    obtain ⟨ht, htbits⟩ := isTail_ofNat (n := n / 64 % 64) (by omega)
    obtain ⟨hu, hubits⟩ := isTail_ofNat (n := n % 64) (by omega)
    have hbNat := hbyte (n / 4096 % 64 + 0x80) (by omega)
    have hwhole : (((n / 262144 + 0xF0 - 0xF0) * 64 + n / 4096 % 64) * 64 + n / 64 % 64) * 64 +
      n % 64 = n := by omega
    simp only [hbytes, scalar?, cons_append, UInt8.lt_iff_toNat_lt, UInt8.le_iff_toNat_le,
      Bool.and_eq_true, decide_eq_true_eq, Bool.not_eq_true', Bool.and_eq_false_iff,
      beq_eq_false_iff_ne, decide_eq_false_iff_not, ne_eq, ← UInt8.toNat_inj, UInt8.reduceToNat,
      and_self, true_and, ha, hb, ht, hu, hbNat, hbits, htbits, hubits, hwhole, hc]
    rw [if_neg (by omega), if_neg (by omega), if_neg (by omega), if_pos (by omega),
      if_pos (by omega)]
    rfl

theorem glyphsFrom_append (read rest : Bytes) :
    glyphsFrom read.length (read ++ rest) = glyphsFrom 0 rest := by
  induction read with
  | nil => rfl
  | cons b read ih => rw [length_cons, cons_append, glyphsFrom, ih]

/-- The glyphs that bytes are read as from left to right: a character where the next bytes
encode one, a stray byte where they encode none. -/
inductive Decodes : List Glyph → Bytes → Prop where
  | nil : Decodes [] []
  | scalar {glyphs : List Glyph} {bytes : Bytes} (c : Char) : Decodes glyphs bytes →
      Decodes (.scalar c :: glyphs) (String.utf8EncodeChar c ++ bytes)
  | stray {glyphs : List Glyph} {bytes : Bytes} (b : UInt8) :
      (∀ c, ¬ String.utf8EncodeChar c <+: b :: bytes) → Decodes glyphs bytes →
      Decodes (.stray b :: glyphs) (b :: bytes)

theorem glyphsFrom_encode (c : Char) (rest : Bytes) :
    glyphsFrom 0 (String.utf8EncodeChar c ++ rest) = .scalar c :: glyphsFrom 0 rest := by
  have hread := scalar?_encode c rest
  cases hbytes : String.utf8EncodeChar c with
  | nil => exact absurd hbytes String.utf8EncodeChar_ne_nil
  | cons b more =>
    rw [hbytes, cons_append] at hread
    rw [cons_append, glyphsFrom, hread]
    show _ :: glyphsFrom more.length (more ++ rest) = _
    rw [glyphsFrom_append]

theorem scalar?_eq_none_iff : scalar? bytes = none ↔ ∀ c, ¬ String.utf8EncodeChar c <+: bytes := by
  constructor
  · rintro hnone c ⟨rest, rfl⟩
    rw [scalar?_encode] at hnone
    cases hnone
  · intro hbytes
    cases hread : scalar? bytes with
    | none => rfl
    | some found =>
      obtain ⟨-, rest, hrest⟩ := eq_encode_of_scalar? hread
      exact absurd ⟨rest, hrest.symm⟩ (hbytes found.1)

namespace Decodes

variable {glyphs : List Glyph}

theorem glyphs_eq (h : Decodes glyphs bytes) : bytes.glyphs = glyphs := by
  unfold Bytes.glyphs
  induction h with
  | nil => rfl
  | scalar c _ ih => rw [glyphsFrom_encode, ih]
  | stray b hstray _ ih => rw [glyphsFrom, scalar?_eq_none_iff.mpr hstray, ih]

theorem bytes_eq (h : Decodes glyphs bytes) : glyphs.flatMap Glyph.bytes = bytes := by
  induction h with
  | nil => rfl
  | scalar c _ ih => rw [flatMap_cons, ih, Glyph.bytes]
  | stray b _ _ ih => rw [flatMap_cons, ih, Glyph.bytes, singleton_append]

theorem le_of_stray (h : Decodes glyphs bytes) (hb : .stray b ∈ glyphs) : 0x80 ≤ b.toNat := by
  induction h with
  | nil => simp at hb
  | scalar c _ ih => exact ih (by simpa using hb)
  | @stray glyphs bytes a hstray _ ih =>
    rcases mem_cons.mp hb with heq | hb
    · cases heq
      have hprefix := hstray (Char.ofNat b.toNat)
      apply Nat.le_of_not_lt
      intro hsmall
      rw [encode_one hsmall] at hprefix
      exact hprefix ⟨bytes, rfl⟩
    · exact ih hb

end Decodes

end Utf8

namespace Bytes

open Utf8

theorem decodes_glyphs (bytes : Bytes) : Decodes bytes.glyphs bytes := by
  unfold glyphs
  -- A character takes several bytes at once, so the induction is on the length.
  induction hlen : bytes.length using Nat.strongRecOn generalizing bytes with
  | ind n ih =>
    subst hlen
    cases bytes with
    | nil => exact .nil
    | cons b rest =>
      cases hread : scalar? (b :: rest) with
      | none =>
        rw [glyphsFrom, hread]
        exact .stray b (scalar?_eq_none_iff.mp hread) (ih rest.length (by simp) rest rfl)
      | some found =>
        obtain ⟨-, tail, htail⟩ := eq_encode_of_scalar? hread
        have hshorter : tail.length < (b :: rest).length := by
          have hpos := length_pos_iff.mpr (String.utf8EncodeChar_ne_nil (c := found.1))
          rw [htail, length_append]
          omega
        rw [htail, glyphsFrom_encode]
        exact .scalar found.1 (ih tail.length hshorter tail rfl)

theorem glyphs_ofChars (chars : List Char) : (ofChars chars).glyphs = chars.map .scalar := by
  apply Decodes.glyphs_eq
  induction chars with
  | nil => exact .nil
  | cons c chars ih => exact .scalar c ih

end Bytes

end Ifj24
