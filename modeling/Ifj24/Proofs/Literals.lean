import Ifj24.Code.Lowering
import Ifj24.Proofs.Numerals
import Ifj24.Proofs.Scanning
import Ifj24.Typing.Expression

/-!
Number literals from the source to the code. The scanner gives an integer token decimal
digits and a float token decimal notation. A literal is sound if its digits stay below a
limit or if the number that it denotes is rounded to a finite double. A sound literal is a
constant, its conversions are sound, and a conversion that fails is a fault of the program.
-/

open List

namespace Ifj24

open Number (Digits Numeral)

variable {n : Int}

variable {literal : Bytes} {limit : Nat}

namespace Lexeme

theorem isDigit_iff : isDigit c = true ↔ c.isDigit = true := by
  simp [isDigit, Char.isDigit, Char.le_def]

theorem ofChars_digits (h : ∀ c ∈ chars, isDigit c = true) :
    Bytes.ofChars chars = chars.map Bytes.ascii := by
  induction chars with
  | nil => rfl
  | cons c rest ih =>
    have hc := (Number.toNat_ascii (isDigit_iff.mp (h c mem_cons_self))).2
    have hencode : String.utf8EncodeChar c = [Bytes.ascii c] := by
      have hsmall : c.toNat ≤ 0x7F := by omega
      simp [String.utf8EncodeChar, hsmall, Bytes.ascii]
    have hrest := ih fun d hd => h d (mem_cons_of_mem _ hd)
    unfold Bytes.ofChars at hrest ⊢
    rw [flatMap_cons, map_cons, hrest, hencode]
    rfl

theorem digits_ofChars (hne : chars ≠ [])
    (h : ∀ c ∈ chars, isDigit c = true) : Digits (Bytes.ofChars chars) := by
  rw [ofChars_digits h]
  refine ⟨by simpa using hne, fun b hb => ?_⟩
  obtain ⟨c, hc, rfl⟩ := mem_map.mp hb
  exact Number.isDecimal_ascii (isDigit_iff.mp (h c hc))

theorem exists_numeral (hwhole : IsDigits whole) (hpoint : IsFraction point)
    (hpower : IsExponent power) :
    ∃ n : Numeral, Bytes.ofChars (whole ++ point ++ power) = n.text := by
  have happend : ∀ a b : List Char, Bytes.ofChars (a ++ b) = Bytes.ofChars a ++ Bytes.ofChars b :=
    fun _ _ => flatMap_append
  have hwhole := digits_ofChars hwhole.nonempty hwhole.digits
  obtain ⟨n, hn, hnone⟩ : ∃ n : Numeral, Bytes.ofChars (whole ++ point) = n.text ∧
      n.power = none := by
    cases hpoint with
    | none =>
      refine ⟨⟨_, [], none, hwhole, by simp⟩, ?_, rfl⟩
      simp [Numeral.text, Numeral.point, Numeral.powerText]
    | @some ds hds =>
      have hds := digits_ofChars hds.nonempty hds.digits
      have hdot : Bytes.ofChars ('.' :: ds) = Bytes.ascii '.' :: Bytes.ofChars ds := rfl
      refine ⟨⟨_, Bytes.ofChars ds, none, hwhole, hds.decimal⟩, ?_, rfl⟩
      simp [Numeral.text, Numeral.point, Numeral.powerText, happend, hdot, hds.nonempty]
  cases hpower with
  | none => exact ⟨n, by rw [append_nil, hn]⟩
  | @some mark front ds hmark hsign hds =>
    obtain ⟨sign, hsign⟩ : ∃ s : Number.Sign, Bytes.ofChars front = s.text := by
      cases hsign with
      | none => exact ⟨.none, rfl⟩
      | plus => exact ⟨.plus, rfl⟩
      | minus => exact ⟨.minus, rfl⟩
    have hencode : String.utf8EncodeChar mark = [Bytes.ascii mark] ∧
        (Bytes.ascii mark = Bytes.ascii 'e' ∨ Bytes.ascii mark = Bytes.ascii 'E') := by
      rcases hmark with rfl | rfl <;> decide
    have hcons : Bytes.ofChars (mark :: front ++ ds) =
        Bytes.ascii mark :: sign.text ++ Bytes.ofChars ds := by
      rw [happend, ← hsign, Bytes.ofChars, flatMap_cons, hencode.1]
      rfl
    have hdigits := digits_ofChars hds.nonempty hds.digits
    refine ⟨{ n with power := some ⟨Bytes.ascii mark, sign, _, hencode.2, hdigits⟩ }, ?_⟩
    rw [happend, hn, hcons, Numeral.text, Numeral.powerText, hnone, Numeral.text, Numeral.powerText]
    simp [Numeral.point, Number.Power.text]

structure Spelled (kind : TokenKind) (literal : Bytes) : Prop where
  int : kind = .int → Digits literal
  float : kind = .float → ∃ n : Numeral, literal = n.text

theorem Spelled.of_ne {kind : TokenKind} (hint : kind ≠ .int) (hfloat : kind ≠ .float) :
    Spelled kind literal :=
  ⟨fun h => absurd h hint, fun h => absurd h hfloat⟩

theorem Spells.spelled {kind : TokenKind} (h : Spells kind literal chars) :
    Spelled kind literal := by
  cases h with
  | fixed _ hfixed => exact .of_ne (by rintro rfl; cases hfixed) (by rintro rfl; cases hfixed)
  | name | string | multiline => exact .of_ne (by decide) (by decide)
  | int hwhole => exact ⟨fun _ => digits_ofChars hwhole.nonempty hwhole.digits, (by cases ·)⟩
  | float hwhole hpoint hpower =>
    exact ⟨(by cases ·), fun _ => exists_numeral hwhole.toIsDigits hpoint hpower⟩

end Lexeme

theorem Scanner.spelled_tokens {s : Scanner} {ts : List Token} (h : s.tokens = .ok ts) :
    ∀ t ∈ ts, Lexeme.Spelled t.kind t.literal := by
  obtain ⟨front, stop, rfl, hfront⟩ := (scans_of_tokens h).exists_front
  intro t ht
  rcases mem_append.mp ht with ht | ht
  · obtain ⟨_, hspells⟩ := hfront t ht
    exact hspells.spelled
  · rw [mem_singleton.mp ht]
    exact .of_ne (by simp) (by simp)

/-- Whether the number that a token stands for is below the limit, or is rounded to a finite
double. -/
def Token.Fits (limit : Nat) (t : Token) : Prop :=
  (t.kind = .int → Number.value t.literal < limit) ∧
    (t.kind = .float → (Number.decimal t.literal).Below Double.overflow)

instance (limit : Nat) (t : Token) : Decidable (t.Fits limit) :=
  inferInstanceAs (Decidable ((_ → _) ∧ (_ → _)))

structure SoundInt (limit : Nat) (literal : Bytes) : Prop where
  digits : Digits literal
  below : Number.value literal < limit

def SoundFloat (literal : Bytes) : Prop :=
  ∃ n : Numeral, literal = n.text ∧ n.decimal.Below Double.overflow

structure Token.Sound (limit : Nat) (t : Token) : Prop where
  int : t.kind = .int → SoundInt limit t.literal
  float : t.kind = .float → SoundFloat t.literal

theorem Token.sound_of_fits {t : Token} (h : t.Fits limit)
    (hspelled : Lexeme.Spelled t.kind t.literal) : t.Sound limit where
  int hkind := ⟨hspelled.int hkind, h.1 hkind⟩
  float hkind := by
    obtain ⟨n, hn⟩ := hspelled.float hkind
    have hbelow := h.2 hkind
    rw [hn, n.decimal_text] at hbelow
    exact ⟨n, hn, hbelow⟩

theorem sound_of_tokenize {file source : Bytes} {ts : List Token}
    (h : tokenize file source = .ok ts) (hfits : ∀ t ∈ ts, t.Fits limit) :
    ∀ t ∈ ts, t.Sound limit :=
  fun t ht => Token.sound_of_fits (hfits t ht) (Scanner.spelled_tokens h t ht)

/-- What the limit of integer literals has to allow for: every integer of 32 bits, and no
integer outside 64 bits. -/
structure Limit (limit : Nat) : Prop where
  lower : Nat.pow 2 31 ≤ limit
  upper : limit ≤ Nat.pow 2 63

namespace Number.Numeral

theorem isDecimal_zero : ∀ b ∈ [Bytes.ascii '0'], isDecimal b = true := by
  intro b hb
  rw [mem_singleton.mp hb]
  rfl

def ofDigits (h : Digits literal) : Numeral :=
  ⟨literal, [Bytes.ascii '0'], none, h, isDecimal_zero⟩

theorem text_ofDigits (h : Digits literal) : (ofDigits h).text = literal ++ ".0" := by
  simp [ofDigits, text, point, powerText]
  rfl

theorem decimal_ofDigits (h : Digits literal) :
    (ofDigits h).decimal = ⟨Number.value literal * 10, -1⟩ := by
  have hvalue : Number.value (literal ++ [Bytes.ascii '0']) = Number.value literal * 10 :=
    Number.valueFrom_append 0 literal _
  simp [ofDigits, decimal, hvalue]

end Number.Numeral

namespace SoundFloat

theorem readDouble? (h : SoundFloat literal) :
    ∃ s e, Number.readDouble? literal = some (.finite false s e) := by
  obtain ⟨n, rfl, hn⟩ := h
  obtain ⟨s, e, hread, -⟩ := n.readDouble?_text hn
  exact ⟨s, e, hread⟩

end SoundFloat

namespace SoundInt

theorem readInt64? (hlimit : Limit limit) (h : SoundInt limit literal) :
    Number.readInt64? literal = some (Number.value literal : Int) := by
  rw [Number.readInt64?_digits h.digits]
  exact if_pos (Nat.lt_of_lt_of_le h.below hlimit.upper)

theorem float (hlimit : Limit limit) (h : SoundInt limit literal) :
    SoundFloat (literal ++ ".0") := by
  refine ⟨.ofDigits h.digits, (Numeral.text_ofDigits _).symm, ?_⟩
  have hpower : Nat.pow 2 63 ≤ Double.overflow := by decide +kernel
  have hbelow : Number.value literal < Double.overflow :=
    Nat.lt_of_lt_of_le h.below (Nat.le_trans hlimit.upper hpower)
  rw [Numeral.decimal_ofDigits]
  show Number.value literal * 10 * 1 < Double.overflow * 10
  omega

end SoundInt

theorem Double.toInt?_nonneg {s : Nat} (h : (Double.finite false s e).toInt? = some n) :
    0 ≤ n := by
  simp only [Double.toInt?, Bool.false_eq_true, if_false] at h
  split at h
  · rw [← Option.some.inj h]
    exact Int.natCast_nonneg _
  · split at h
    · rw [← Option.some.inj h]
      exact Int.natCast_nonneg _
    · cases h

theorem soundInt_ofInt (hlimit : Limit limit) (hnonneg : 0 ≤ n) (hn : n < Int.pow 2 31) :
    SoundInt limit (Bytes.ofInt n) := by
  have hpower : Int.pow 2 31 = (Nat.pow 2 31 : Nat) := by decide
  have hlower := hlimit.lower
  rw [Bytes.ofInt, if_neg (Int.not_lt.mpr hnonneg)]
  refine ⟨Number.digits_ofNat _, ?_⟩
  rw [Number.value_ofNat]
  omega

namespace Tree.Value

variable {v : Value}

def Sound (limit : Nat) (v : Value) : Prop :=
  v.null = false →
    match v.type with
    | .i32 => SoundInt limit v.literal
    | .f64 => SoundFloat v.literal
    | .u8 => True
    | _ => False

theorem coerce_cases (hlimit : Limit limit) (h : v.Sound limit) (type : DataType) :
    (∃ w, v.coerce type = .ok w ∧ w.Sound limit) ∨
      ∃ d, v.coerce type = .error d ∧ d.cause.kind ≠ .internal := by
  unfold coerce
  split
  · exact .inr ⟨_, rfl, by simp [Cause.kind]⟩
  rename_i hnull
  have hsound := h (by simpa using hnull)
  split
  · exact .inl ⟨v, rfl, h⟩
  split
  · rename_i htypes
    rw [htypes.1] at hsound
    exact .inl ⟨_, rfl, fun _ => hsound.float hlimit⟩
  split
  · rename_i htypes
    rw [htypes.1] at hsound
    obtain ⟨s, e, hread⟩ := SoundFloat.readDouble? hsound
    rw [hread]
    dsimp only
    cases hinteger : (Double.finite false s e).toInt? with
    | none => exact .inr ⟨_, rfl, by simp [Cause.kind]⟩
    | some n =>
      dsimp only
      split
      · rename_i hrange
        have hnonneg := Double.toInt?_nonneg hinteger
        exact .inl ⟨_, rfl, fun _ => soundInt_ofInt hlimit hnonneg hrange.2⟩
      · exact .inr ⟨_, rfl, by simp [Cause.kind]⟩
  · exact .inr ⟨_, rfl, by simp [Cause.kind]⟩

theorem exists_constant (hlimit : Limit limit) (h : v.Sound limit) :
    ∃ c, Code.constant v = .ok c ∧ ∀ n, c = .int n → 0 ≤ n ∧ n < limit := by
  unfold Code.constant
  split
  · exact ⟨_, rfl, fun n hn => by cases hn⟩
  rename_i hnull
  have hsound := h (by simpa using hnull)
  cases htype : v.type <;> rw [htype] at hsound <;> dsimp only at hsound ⊢
  case i32 =>
    rw [hsound.readInt64? hlimit]
    refine ⟨_, rfl, fun n hn => ?_⟩
    have hbelow := hsound.below
    cases hn
    omega
  case f64 =>
    obtain ⟨s, e, hread⟩ := SoundFloat.readDouble? hsound
    rw [hread]
    exact ⟨_, rfl, fun n hn => by cases hn⟩
  case u8 => exact ⟨_, rfl, fun n hn => by cases hn⟩

/-- An integer literal is a constant exactly if it fits 64 bits: nothing asks it to fit the 32
bits of its type. -/
theorem constant_digits (pos : Pos) (h : Digits literal) :
    Code.constant (ofLiteral pos .i32 literal) =
      if Number.value literal < Nat.pow 2 63 then .ok (.int (Number.value literal))
      else .error ⟨pos, .badInt literal⟩ := by
  have hread := Number.readInt64?_digits h
  unfold Code.constant ofLiteral
  by_cases hvalue : Number.value literal < Nat.pow 2 63
  · rw [if_pos hvalue] at hread ⊢
    simp only [Bool.false_eq_true, if_false, hread]
  · rw [if_neg hvalue] at hread ⊢
    simp only [Bool.false_eq_true, if_false, hread]

theorem constant_numeral (pos : Pos) (n : Numeral) :
    if n.decimal.Below Double.overflow then
      ∃ s e, Code.constant (ofLiteral pos .f64 n.text) = .ok (.float (.finite false s e))
    else Code.constant (ofLiteral pos .f64 n.text) = .error ⟨pos, .badFloat n.text⟩ := by
  unfold Code.constant ofLiteral
  simp only [Bool.false_eq_true, if_false]
  split
  · rename_i hbelow
    obtain ⟨s, e, hread, -⟩ := n.readDouble?_text hbelow
    simp only [hread]
    exact ⟨s, e, rfl⟩
  · rename_i hlarge
    simp only [n.readDouble?_text_eq_none hlarge]

end Tree.Value

end Ifj24
