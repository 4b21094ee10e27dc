import Ifj24.Number.Read

/-!
What decimal notation denotes. A number is written with digits, a fraction and an exponent,
and stands for a natural number times a power of ten. Below the middle between the largest
finite double and the next power of two it is rounded to a finite double. Reading gives
that double, and reading the decimal digits of a natural number gives that number.
-/

open List

namespace Ifj24

namespace Double

@[irreducible] def overflow : Nat := (Nat.pow 2 54 - 1) * Nat.pow 2 970

def IsFinite (negative : Bool) (x : Double) : Prop := ∃ s e, x = .finite negative s e

theorem overflow_le_two_pow : ∃ k ≤ 1024, overflow ≤ Nat.pow 2 k :=
  ⟨1024, Nat.le_refl _, by decide +kernel⟩

theorem two_pow_le_overflow : ∃ k, k = 1023 ∧ Nat.pow 2 k ≤ overflow :=
  ⟨1023, rfl, by decide +kernel⟩

theorem two_mul_overflow : ∃ k, k = 971 ∧ 2 * overflow = Nat.pow 2 k * (2 * Nat.pow 2 53 - 1) :=
  ⟨971, rfl, by decide +kernel⟩

theorem overflow_le_ten_pow : ∃ k ≤ 309, overflow ≤ Nat.pow 10 k :=
  ⟨309, Nat.le_refl _, by decide +kernel⟩

theorem roundDiv_lt (h : 2 * a < b * (2 * m - 1)) :
    roundDiv a b < m := by
  have hdivision : b * (a / b) + a % b = a := Nat.div_add_mod a b
  have hq : a / b < m := by
    refine Nat.lt_of_not_le fun hle => ?_
    have hmul : b * m ≤ b * (a / b) := Nat.mul_le_mul_left b hle
    have hsmall : b * (2 * m - 1) ≤ b * (2 * m) := Nat.mul_le_mul_left b (Nat.sub_le _ _)
    have htwo : b * (2 * m) = 2 * (b * m) := Nat.mul_left_comm b 2 m
    omega
  unfold roundDiv
  dsimp only
  split
  · rename_i hup
    -- Rounding up to `m` would take a remainder of at least a half.
    refine Nat.lt_of_le_of_ne hq fun heq => ?_
    have hhalf : b * (2 * m - 1) = 2 * (b * (a / b)) + b := by
      have hodd : 2 * m - 1 = 2 * (a / b) + 1 := by omega
      rw [hodd, Nat.mul_succ, Nat.mul_left_comm]
    omega
  · exact hq

theorem le_roundDiv (hb : 0 < b) (hm : m % 2 = 0) (h : b * (2 * m - 1) ≤ 2 * a) :
    m ≤ roundDiv a b := by
  have hdivision : b * (a / b) + a % b = a := Nat.div_add_mod a b
  have hremainder : a % b < b := Nat.mod_lt a hb
  unfold roundDiv
  dsimp only
  by_cases hq : m ≤ a / b
  · split <;> omega
  -- The quotient is the odd number before `m`, and the remainder is at least a half.
  have hnext : a / b + 1 = m := by
    refine Nat.le_antisymm (by omega) (Nat.le_of_not_lt fun hlt => ?_)
    have hmul : b * (2 * (a / b) + 3) ≤ b * (2 * m - 1) := Nat.mul_le_mul_left b (by omega)
    have hsplit : b * (2 * (a / b) + 3) = 2 * (b * (a / b)) + 3 * b := by
      rw [Nat.mul_add, Nat.mul_left_comm, Nat.mul_comm b 3]
    omega
  have hhalf : b * (2 * m - 1) = 2 * (b * (a / b)) + b := by
    have hodd : 2 * m - 1 = 2 * (a / b) + 1 := by omega
    rw [hodd, Nat.mul_succ, Nat.mul_left_comm]
  rw [if_pos (by omega)]
  omega

theorem log2Ratio_lt (hn : n ≠ 0) (h : n < d * Nat.pow 2 k) :
    log2Ratio n d < k := by
  have hnlog : 2 ^ n.log2 ≤ n := Nat.log2_self_le hn
  have hdlog : d < 2 ^ (d.log2 + 1) := Nat.lt_log2_self
  have hle : (n.log2 : Int) - d.log2 ≤ k := by
    refine Int.not_lt.mp fun hlt => ?_
    have hexp : d.log2 + 1 + k ≤ n.log2 := by omega
    have hpower : 2 ^ (d.log2 + 1 + k) ≤ 2 ^ n.log2 := Nat.pow_le_pow_right Nat.two_pos hexp
    have hproduct : d * 2 ^ k < 2 ^ (d.log2 + 1) * 2 ^ k :=
      Nat.mul_lt_mul_of_pos_right hdlog (Nat.two_pow_pos k)
    rw [← Nat.pow_add] at hproduct
    exact Nat.lt_irrefl _ (Nat.lt_of_lt_of_le h (Nat.le_trans (Nat.le_of_lt hproduct)
      (Nat.le_trans hpower hnlog)))
  unfold log2Ratio
  dsimp only
  split
  · rename_i hfits
    refine Int.lt_iff_le_and_ne.mpr ⟨hle, fun heq => ?_⟩
    rw [heq, scaled, if_pos (Int.natCast_nonneg k), Int.toNat_natCast] at hfits
    exact Nat.lt_irrefl _ (Nat.lt_of_lt_of_le h hfits)
  · omega

theorem le_log2Ratio (hd : 0 < d) (h : d * Nat.pow 2 k ≤ n) :
    k ≤ log2Ratio n d := by
  have hn : n ≠ 0 := Nat.pos_iff_ne_zero.mp (Nat.lt_of_lt_of_le (Nat.mul_pos hd (Nat.two_pow_pos k)) h)
  have hpower : 2 ^ (d.log2 + k) ≤ n := by
    rw [Nat.pow_add]
    exact Nat.le_trans (Nat.mul_le_mul_right _ (Nat.log2_self_le (Nat.pos_iff_ne_zero.mp hd))) h
  have hle : d.log2 + k ≤ n.log2 := (Nat.le_log2 hn).mpr hpower
  unfold log2Ratio
  dsimp only
  split
  · omega
  · rename_i hfits
    have hne : (n.log2 : Int) - d.log2 ≠ k := by
      intro heq
      rw [heq, scaled, if_pos (Int.natCast_nonneg k), Int.toNat_natCast] at hfits
      exact hfits h
    omega

theorem isFinite_ofRatio (negative : Bool) (h : n < d * overflow) :
    IsFinite negative (ofRatio negative n d) := by
  unfold ofRatio
  split
  · exact ⟨0, 0, rfl⟩
  rename_i hn
  obtain ⟨k, hk, hpower⟩ := overflow_le_two_pow
  have hlog : log2Ratio n d < k :=
    log2Ratio_lt hn (Nat.lt_of_lt_of_le h (Nat.mul_le_mul_left d hpower))
  dsimp only
  split
  · rename_i hinfinite
    refine absurd hinfinite ?_
    rintro (hlarge | ⟨htop, hlarge⟩)
    · omega
    · -- At the largest exponent the significand stays below the next power of two.
      obtain ⟨top, htoNat, hunit⟩ := two_mul_overflow
      have hexp : Int.toNat 971 = top := htoNat.symm
      rw [htop, scaled, if_pos (by decide), hexp] at hlarge
      have hhalf : 2 * n < d * Nat.pow 2 top * (2 * Nat.pow 2 53 - 1) := by
        rw [Nat.mul_assoc, ← hunit, Nat.mul_left_comm]
        exact Nat.mul_lt_mul_of_pos_left h Nat.two_pos
      exact Nat.lt_irrefl _ (Nat.lt_of_le_of_lt hlarge (roundDiv_lt hhalf))
  · exact ⟨_, _, rfl⟩

theorem ofRatio_eq_infinite (negative : Bool) (hd : 0 < d) (h : d * overflow ≤ n) :
    ofRatio negative n d = .infinite negative := by
  obtain ⟨k, hk, hpower⟩ := two_pow_le_overflow
  have hscaled : d * Nat.pow 2 k ≤ n := Nat.le_trans (Nat.mul_le_mul_left d hpower) h
  have hn : n ≠ 0 :=
    Nat.pos_iff_ne_zero.mp (Nat.lt_of_lt_of_le (Nat.mul_pos hd (Nat.two_pow_pos k)) hscaled)
  have hlog := le_log2Ratio hd hscaled
  unfold ofRatio
  rw [if_neg hn]
  dsimp only
  rw [if_pos]
  by_cases htop : max (log2Ratio n d - 52) (-1074) = 971
  · obtain ⟨top, htoNat, hunit⟩ := two_mul_overflow
    have hexp : Int.toNat 971 = top := htoNat.symm
    refine .inr ⟨htop, ?_⟩
    rw [htop, scaled, if_pos (by decide), hexp]
    refine le_roundDiv (Nat.mul_pos hd (Nat.two_pow_pos top)) (by decide) ?_
    rw [Nat.mul_assoc, ← hunit, Nat.mul_left_comm]
    exact Nat.mul_le_mul_left 2 h
  · omega

theorem pow_le_of_toDigits (hn : n ≠ 0) :
    Nat.pow 10 ((Nat.toDigits 10 n).length - 1) ≤ n := by
  have hlen : 0 < (Nat.toDigits 10 n).length := Nat.length_toDigits_pos
  cases hk : (Nat.toDigits 10 n).length - 1 with
  | zero => exact Nat.pos_of_ne_zero hn
  | succ k =>
    refine Nat.le_of_not_lt fun hlt => ?_
    have hle := (Nat.length_toDigits_le_iff (by decide) (Nat.succ_pos k)).mpr hlt
    omega

theorem lt_pow_toDigits (n : Nat) : n < Nat.pow 10 (Nat.toDigits 10 n).length :=
  (Nat.length_toDigits_le_iff (by decide) Nat.length_toDigits_pos).mp (Nat.le_refl _)

end Double

open Double

namespace Number

structure Decimal where
  value : Nat
  exponent : Int
  deriving DecidableEq, Repr

def Decimal.Below (limit : Nat) (x : Decimal) : Prop :=
  x.value * Nat.pow 10 x.exponent.toNat < limit * Nat.pow 10 (-x.exponent).toNat

instance (limit : Nat) (x : Decimal) : Decidable (x.Below limit) :=
  inferInstanceAs (Decidable (_ < _))

theorem Decimal.Below.digits {x : Decimal} {limit k : Nat} (hx : x.Below limit)
    (hlimit : limit ≤ Nat.pow 10 k) (hvalue : x.value ≠ 0) :
    (Nat.toDigits 10 x.value).length + x.exponent ≤ k := by
  have hlen : 0 < (Nat.toDigits 10 x.value).length := Nat.length_toDigits_pos
  have hpower : 10 ^ ((Nat.toDigits 10 x.value).length - 1) * 10 ^ x.exponent.toNat <
      10 ^ k * 10 ^ (-x.exponent).toNat :=
    calc 10 ^ ((Nat.toDigits 10 x.value).length - 1) * 10 ^ x.exponent.toNat
      _ ≤ x.value * 10 ^ x.exponent.toNat :=
        Nat.mul_le_mul_right _ (pow_le_of_toDigits hvalue)
      _ < limit * 10 ^ (-x.exponent).toNat := hx
      _ ≤ 10 ^ k * 10 ^ (-x.exponent).toNat := Nat.mul_le_mul_right _ hlimit
  rw [← Nat.pow_add, ← Nat.pow_add, Nat.pow_lt_pow_iff_right (by decide)] at hpower
  omega

namespace Decimal

def num (x : Decimal) : Nat := x.value * Nat.pow 10 x.exponent.toNat

def den (x : Decimal) : Nat := Nat.pow 10 (-x.exponent).toNat

theorem num_mul_lt {x : Decimal} {k : Nat}
    (h : (Nat.toDigits 10 x.value).length + x.exponent ≤ -(k : Int)) : x.num * Nat.pow 10 k < x.den := by
  have hpos : 0 < (Nat.toDigits 10 x.value).length := Nat.length_toDigits_pos
  have hlen : (Nat.toDigits 10 x.value).length + k ≤ (-x.exponent).toNat := by omega
  have hpositive : 0 < Nat.pow 10 k := Nat.pow_pos (by decide)
  unfold num den
  rw [show x.exponent.toNat = 0 by omega, show Nat.pow 10 0 = 1 from rfl, Nat.mul_one]
  calc x.value * Nat.pow 10 k
    _ < Nat.pow 10 (Nat.toDigits 10 x.value).length * Nat.pow 10 k :=
      Nat.mul_lt_mul_of_pos_right (lt_pow_toDigits x.value) hpositive
    _ = Nat.pow 10 ((Nat.toDigits 10 x.value).length + k) := (Nat.pow_add 10 _ k).symm
    _ ≤ Nat.pow 10 (-x.exponent).toNat := Nat.pow_le_pow_right (by decide) hlen

end Decimal

theorem ofScaled_eq {x : Decimal} (negative : Bool) (hvalue : x.value ≠ 0) :
    ofScaled negative x.value 10 x.exponent =
      if 1100 < (Nat.toDigits 10 x.value).length + x.exponent then .infinite negative
      else if (Nat.toDigits 10 x.value).length + x.exponent < -1100 then .zero negative
      else .ofRatio negative x.num x.den := by
  unfold ofScaled Decimal.num Decimal.den
  rw [if_neg hvalue]
  have hone : Nat.pow 10 0 = 1 := rfl
  split
  · rw [show (-x.exponent).toNat = 0 by omega, hone]
  · rw [show x.exponent.toNat = 0 by omega, hone, Nat.mul_one]

theorem isFinite_ofScaled {x : Decimal} (negative : Bool) (hx : x.Below overflow) :
    (ofScaled negative x.value 10 x.exponent).IsFinite negative := by
  by_cases hvalue : x.value = 0
  · exact ⟨0, 0, if_pos hvalue⟩
  obtain ⟨k, hk, hpower⟩ := overflow_le_ten_pow
  have hdig := hx.digits hpower hvalue
  rw [ofScaled_eq negative hvalue, if_neg (by omega)]
  split
  · exact ⟨0, 0, rfl⟩
  · exact isFinite_ofRatio negative (Nat.mul_comm _ _ ▸ hx)

theorem ofScaled_eq_infinite {x : Decimal} (negative : Bool) (hx : ¬x.Below overflow) :
    ofScaled negative x.value 10 x.exponent = .infinite negative := by
  obtain ⟨k, -, hpower⟩ := two_pow_le_overflow
  have hpositive : 0 < overflow := Nat.lt_of_lt_of_le (Nat.two_pow_pos k) hpower
  have hden : 0 < x.den := Nat.pow_pos (by decide)
  have hlarge : overflow * x.den ≤ x.num := Nat.le_of_not_lt hx
  have hle := Nat.le_mul_of_pos_left x.den hpositive
  have hvalue : x.value ≠ 0 := by
    intro hzero
    rw [Decimal.num, hzero, Nat.zero_mul] at hlarge
    omega
  rw [ofScaled_eq negative hvalue]
  split
  · rfl
  split
  · rename_i hsmall
    have hlt := Decimal.num_mul_lt (k := 0) (x := x) (by omega)
    rw [show Nat.pow 10 0 = 1 from rfl, Nat.mul_one] at hlt
    omega
  · exact ofRatio_eq_infinite negative hden (Nat.mul_comm _ _ ▸ hlarge)

/-! ### Digits -/

theorem isDecimal_iff : isDecimal b = true ↔ 0x30 ≤ b.toNat ∧ b.toNat ≤ 0x39 := by
  unfold isDecimal digit?
  dsimp only
  split
  · rename_i h
    have hten : b.toNat - 0x30 < 10 := by omega
    simp [h, hten]
  · rename_i h
    refine ⟨fun hsome => ?_, fun hrange => absurd hrange h⟩
    have hlower : ¬b.toNat - 0x61 + 10 < 10 := by omega
    have hupper : ¬b.toNat - 0x41 + 10 < 10 := by omega
    split at hsome
    · simp [hlower] at hsome
    · split at hsome <;> simp [hupper] at hsome

theorem digit?_of_isDecimal (h : isDecimal b = true) :
    digit? 10 b = some (b.toNat - 0x30) := by
  obtain ⟨hlow, hhigh⟩ := isDecimal_iff.mp h
  have hten : b.toNat - 0x30 < 10 := by omega
  simp [digit?, hlow, hhigh, hten]

def valueFrom (n : Nat) (digits : Bytes) : Nat :=
  digits.foldl (fun n b => n * 10 + (b.toNat - 0x30)) n

def value (digits : Bytes) : Nat := valueFrom 0 digits

theorem valueFrom_append (n : Nat) (front rest : Bytes) :
    valueFrom n (front ++ rest) = valueFrom (valueFrom n front) rest :=
  foldl_append

structure Digits (text : Bytes) : Prop where
  nonempty : text ≠ []
  decimal : ∀ b ∈ text, isDecimal b = true

theorem foldl_digits (n : Nat) (h : ∀ b ∈ digits, isDecimal b = true) :
    digits.foldl (fun n? b => do return (← n?) * 10 + (← digit? 10 b)) (some n) =
      some (valueFrom n digits) := by
  induction digits generalizing n with
  | nil => rfl
  | cons b rest ih =>
    rw [foldl_cons, digit?_of_isDecimal (h b mem_cons_self)]
    exact ih _ fun c hc => h c (mem_cons_of_mem _ hc)

theorem readNat?_digits (h : Digits digits) :
    readNat? digits = some (value digits) := by
  rw [readNat?, if_neg (by simpa using h.nonempty)]
  exact foldl_digits 0 h.decimal

theorem splitSign_digits (rest : Bytes) (h : Digits digits) :
    splitSign (digits ++ rest) = (false, digits ++ rest) := by
  cases digits with
  | nil => exact absurd rfl h.nonempty
  | cons b more =>
    obtain ⟨hlow, -⟩ := isDecimal_iff.mp (h.decimal b mem_cons_self)
    unfold splitSign
    split
    · rename_i heq
      simp_all
    · rename_i heq
      simp_all
    · rfl

theorem readInt64?_digits (h : Digits digits) :
    readInt64? digits =
      if value digits < Nat.pow 2 63 then some (value digits : Int) else none := by
  have hsplit := splitSign_digits [] h
  have hpower : Int.pow 2 63 = (Nat.pow 2 63 : Nat) := by decide
  have hlow : -Int.pow 2 63 ≤ (value digits : Int) := by omega
  rw [append_nil] at hsplit
  unfold readInt64?
  rw [hsplit]
  simp only [readNat?_digits h]
  rw [Option.bind_eq_bind, Option.bind_some]
  simp only [Bool.false_eq_true, if_false]
  by_cases hvalue : value digits < Nat.pow 2 63
  · have hhigh : (value digits : Int) < Int.pow 2 63 := by omega
    rw [if_pos hvalue]
    exact if_pos ⟨hlow, hhigh⟩
  · have hhigh : ¬(value digits : Int) < Int.pow 2 63 := by omega
    rw [if_neg hvalue]
    exact if_neg fun hrange => hhigh hrange.2

theorem toNat_ascii (h : c.isDigit = true) :
    (Bytes.ascii c).toNat = c.toNat ∧ 0x30 ≤ c.toNat ∧ c.toNat ≤ 0x39 := by
  obtain ⟨hlow, hhigh⟩ := Char.isDigit_iff_toNat.mp h
  have hlow : 0x30 ≤ c.toNat := hlow
  have hhigh : c.toNat ≤ 0x39 := hhigh
  refine ⟨?_, hlow, hhigh⟩
  rw [Bytes.ascii, UInt8.toNat_ofNat']
  omega

theorem isDecimal_ascii (h : c.isDigit = true) : isDecimal (Bytes.ascii c) = true := by
  obtain ⟨heq, hrange⟩ := toNat_ascii h
  rw [isDecimal_iff, heq]
  exact hrange

theorem valueFrom_map_ascii (n : Nat) (h : ∀ c ∈ chars, c.isDigit = true) :
    valueFrom n (chars.map Bytes.ascii) = Nat.ofDigitChars 10 chars n := by
  induction chars generalizing n with
  | nil => rfl
  | cons c rest ih =>
    have hc := (toNat_ascii (h c mem_cons_self)).1
    rw [Nat.ofDigitChars_cons, ← ih _ fun d hd => h d (mem_cons_of_mem _ hd), Nat.mul_comm 10]
    unfold valueFrom
    rw [map_cons, foldl_cons, hc]
    rfl

theorem isDigit_toDigits : ∀ c ∈ Nat.toDigits 10 n, c.isDigit = true :=
  fun _ hc => Nat.isDigit_of_mem_toDigits (by decide) (by decide) hc

theorem digits_ofNat (n : Nat) : Digits (Bytes.ofNat n) where
  nonempty := by simp [Bytes.ofNat, Bytes.digits]
  decimal := by
    intro b hb
    obtain ⟨c, hc, rfl⟩ := mem_map.mp hb
    exact isDecimal_ascii (isDigit_toDigits c hc)

theorem value_ofNat (n : Nat) : value (Bytes.ofNat n) = n := by
  unfold value Bytes.ofNat Bytes.digits
  rw [valueFrom_map_ascii 0 isDigit_toDigits]
  exact Nat.ofDigitChars_ten_toDigits

/-! ### Decimal notation -/

inductive Sign where
  | none
  | plus
  | minus

def Sign.text : Sign → Bytes
  | .none => []
  | .plus => "+"
  | .minus => "-"

structure Power where
  mark : UInt8
  sign : Sign
  digits : Bytes
  mark_eq : mark = Bytes.ascii 'e' ∨ mark = Bytes.ascii 'E'
  digits_ok : Digits digits

namespace Power

def text (p : Power) : Bytes := p.mark :: p.sign.text ++ p.digits

def exponent (p : Power) : Int :=
  match p.sign with
  | .minus => -value p.digits
  | _ => value p.digits

end Power

/-- A number in decimal notation. It has a point if it has digits after it. -/
structure Numeral where
  whole : Bytes
  fraction : Bytes
  power : Option Power
  whole_ok : Digits whole
  fraction_ok : ∀ b ∈ fraction, isDecimal b = true

namespace Numeral

def point (n : Numeral) : Bytes := if n.fraction = [] then [] else Bytes.ascii '.' :: n.fraction

def powerText (n : Numeral) : Bytes := (n.power.map Power.text).getD []

def text (n : Numeral) : Bytes := n.whole ++ n.point ++ n.powerText

def decimal (n : Numeral) : Decimal :=
  ⟨value (n.whole ++ n.fraction), (n.power.map Power.exponent).getD 0 - n.fraction.length⟩

end Numeral

def isFront (b : UInt8) : Bool := isDecimal b || b == Bytes.ascii '.'

/-- The number that a text in decimal notation denotes: the digits up to the exponent, and
the exponent less the digits after the point. -/
def decimal (text : Bytes) : Decimal :=
  let front := text.takeWhile isFront
  let (negative, digits) := splitSign (text.drop (front.length + 1))
  let exponent : Int := if negative then -value digits else value digits
  ⟨value (front.filter isDecimal), exponent - ((front.dropWhile isDecimal).length - 1 : Nat)⟩

theorem splitSign_power (p : Power) :
    splitSign (p.sign.text ++ p.digits) =
      (match p.sign with | .minus => true | _ => false, p.digits) := by
  cases h : p.sign with
  | none => simpa [Sign.text] using splitSign_digits [] p.digits_ok
  | plus => rfl
  | minus => rfl

namespace Numeral

theorem point_of_ne {n : Numeral} (h : n.fraction ≠ []) :
    n.point = Bytes.ascii '.' :: n.fraction := if_neg h

theorem isFront_front (n : Numeral) : ∀ b ∈ n.whole ++ n.point, isFront b = true := by
  intro b hb
  unfold isFront
  rcases mem_append.mp hb with hwhole | hpoint
  · rw [n.whole_ok.decimal b hwhole, Bool.true_or]
  · unfold point at hpoint
    split at hpoint
    · exact absurd hpoint not_mem_nil
    · rcases mem_cons.mp hpoint with rfl | hfrac
      · rfl
      · rw [n.fraction_ok b hfrac, Bool.true_or]

theorem takeWhile_text (n : Numeral) : n.text.takeWhile isFront = n.whole ++ n.point := by
  unfold text
  rw [takeWhile_append_of_pos n.isFront_front]
  unfold powerText
  cases n.power with
  | none => simp
  | some p =>
    have hmark : isFront p.mark = false := by
      rcases p.mark_eq with h | h <;> rw [h] <;> rfl
    simp [Power.text, hmark]

theorem filter_front (n : Numeral) :
    (n.whole ++ n.point).filter isDecimal = n.whole ++ n.fraction := by
  have hpoint : n.point.filter isDecimal = n.fraction := by
    by_cases h : n.fraction = []
    · simp [point, h]
    · have hdot : isDecimal (Bytes.ascii '.') = false := rfl
      rw [point_of_ne h, filter_cons_of_neg (by simp [hdot])]
      exact filter_eq_self.mpr n.fraction_ok
  rw [filter_append, hpoint, filter_eq_self.mpr n.whole_ok.decimal]

theorem dropWhile_front (n : Numeral) : (n.whole ++ n.point).dropWhile isDecimal = n.point := by
  rw [dropWhile_append_of_pos n.whole_ok.decimal]
  by_cases h : n.fraction = []
  · simp [point, h]
  · rw [point_of_ne h]
    rfl

theorem length_point (n : Numeral) : n.point.length - 1 = n.fraction.length := by
  by_cases h : n.fraction = []
  · simp [point, h]
  · rw [point_of_ne h]
    rfl

theorem decimal_text (n : Numeral) : Number.decimal n.text = n.decimal := by
  unfold Number.decimal
  rw [takeWhile_text]
  dsimp only
  rw [filter_front, dropWhile_front, length_point]
  unfold text decimal
  rw [drop_append, drop_of_length_le (Nat.le_succ _), Nat.add_sub_cancel_left]
  unfold powerText
  cases n.power with
  | none => simp [splitSign, value, valueFrom]
  | some p =>
    have hdrop : List.drop 1 p.text = p.sign.text ++ p.digits := rfl
    simp only [Option.map_some, Option.getD_some, nil_append, hdrop, splitSign_power]
    cases h : p.sign <;> simp [Power.exponent, h]

end Numeral

/-! ### Reading decimal notation -/

def isNumeric (b : UInt8) : Bool :=
  isDecimal b || [Bytes.ascii '.', Bytes.ascii 'e', Bytes.ascii 'E', Bytes.ascii '+',
    Bytes.ascii '-'].contains b

theorem isNumeric_of_isDecimal (h : isDecimal b = true) : isNumeric b = true := by
  rw [isNumeric, h, Bool.true_or]

theorem toNat_lower_le (h : isDecimal b = true) : (lower b).toNat ≤ 0x39 := by
  obtain ⟨-, hhigh⟩ := isDecimal_iff.mp h
  have hupper : ¬(0x41 : UInt8) ≤ b := fun hle => by
    have := UInt8.le_iff_toNat_le.mp hle
    simp at this
    omega
  simpa [lower, hupper] using hhigh

theorem numeric_ne (h : isNumeric b = true) : lower b ≠ 0x78 ∧ b ≠ Bytes.ascii '_' := by
  rcases (Bool.or_eq_true _ _).mp h with hdecimal | hmember
  · obtain ⟨-, hhigh⟩ := isDecimal_iff.mp hdecimal
    constructor
    · rintro heq
      have := toNat_lower_le hdecimal
      rw [heq] at this
      exact absurd this (by decide)
    · rintro rfl
      exact absurd hhigh (by decide)
  · simp only [contains_eq_mem, mem_cons, not_mem_nil, or_false,
      decide_eq_true_eq] at hmember
    rcases hmember with rfl | rfl | rfl | rfl | rfl <;> decide

namespace Numeral

theorem isNumeric_text (n : Numeral) : ∀ b ∈ n.text, isNumeric b = true := by
  intro b hb
  rcases mem_append.mp hb with hfront | hpower
  · have hb := n.isFront_front b hfront
    rcases (Bool.or_eq_true _ _).mp hb with hdecimal | hdot
    · exact isNumeric_of_isDecimal hdecimal
    · rw [beq_iff_eq.mp hdot]
      rfl
  · unfold powerText at hpower
    cases hp : n.power with
    | none => simp [hp] at hpower
    | some p =>
      simp only [hp, Option.map_some, Option.getD_some, Power.text, cons_append,
        mem_cons, mem_append] at hpower
      rcases hpower with rfl | hsign | hdigit
      · rcases p.mark_eq with h | h <;> rw [h] <;> rfl
      · have hsigns : ∀ sign : Sign, ∀ c ∈ sign.text, isNumeric c = true := by
          rintro (_ | _ | _) <;> decide +kernel
        exact hsigns p.sign b hsign
      · exact isNumeric_of_isDecimal (p.digits_ok.decimal b hdigit)

theorem exists_text_eq_cons (n : Numeral) :
    ∃ b rest, n.text = b :: rest ∧ isDecimal b = true := by
  cases hwhole : n.whole with
  | nil => exact absurd hwhole n.whole_ok.nonempty
  | cons b rest =>
    refine ⟨b, rest ++ n.point ++ n.powerText, by rw [text, hwhole]; rfl, ?_⟩
    exact n.whole_ok.decimal b (hwhole ▸ mem_cons_self)

theorem splitSign_text (n : Numeral) : splitSign n.text = (false, n.text) := by
  unfold text
  rw [append_assoc]
  exact splitSign_digits _ n.whole_ok

theorem named?_text (n : Numeral) (signed : Bool) : named? false signed n.text = none := by
  obtain ⟨b, rest, htext, hb⟩ := n.exists_text_eq_cons
  have hlower := toNat_lower_le hb
  -- Every name starts with a letter.
  have hne : ∀ (c : UInt8) (tail : Bytes), 0x39 < c.toNat → n.text.map lower ≠ c :: tail := by
    rintro c tail hc heq
    rw [htext, map_cons, List.cons.injEq] at heq
    rw [heq.1] at hlower
    omega
  have hinf : n.text.map lower ≠ Bytes.ofString "inf" := hne 0x69 _ (by decide)
  have hinfinity : n.text.map lower ≠ Bytes.ofString "infinity" := hne 0x69 _ (by decide)
  have hnan : n.text.map lower ≠ Bytes.ofString "nan" := hne 0x6E _ (by decide)
  simp [named?, hinf, hinfinity, hnan]

theorem splitBase_text (n : Numeral) : splitBase n.text = (10, n.text) := by
  have hnum := n.isNumeric_text
  generalize n.text = text at hnum
  unfold splitBase
  split
  · rename_i x c rest
    rw [if_neg]
    simpa using (numeric_ne (hnum x (by simp))).1
  · rfl

end Numeral

theorem underscoresFrom_numeric (hexadecimal : Bool) (before : Before)
    (htext : ∀ b ∈ text, isNumeric b = true) (hbef : before ≠ .underscore) :
    underscoresFrom hexadecimal before text = true := by
  induction text generalizing before with
  | nil => simpa [underscoresFrom] using hbef
  | cons c rest ih =>
    have hrest : ∀ b ∈ rest, isNumeric b = true := fun b hb => htext b (mem_cons_of_mem _ hb)
    have hne : (c == Bytes.ascii '_') = false :=
      beq_eq_false_iff_ne.mpr (numeric_ne (htext c mem_cons_self)).2
    rw [underscoresFrom, ih .digit hrest (by decide), ih .other hrest (by decide), hne,
      decide_eq_true hbef]
    exact ite_self true

theorem underscoresOk_numeric (htext : ∀ b ∈ text, isNumeric b = true) :
    underscoresOk text = true := by
  unfold underscoresOk
  split
  · have hrest : ∀ c ∈ _, isNumeric c = true := fun c hc =>
      htext c (mem_cons_of_mem _ (mem_cons_of_mem _ hc))
    split
    · exact underscoresFrom_numeric _ _ hrest (by decide)
    · exact underscoresFrom_numeric _ _ hrest (by decide)
    · exact underscoresFrom_numeric _ _ hrest (by decide)
    · exact underscoresFrom_numeric _ _ htext (by decide)
  · exact underscoresFrom_numeric _ _ htext (by decide)

theorem mantissa_digits (h : ∀ b ∈ digits, isDecimal b = true)
    (n places : Nat) (sawPoint sawDigit : Bool) (rest : Bytes)
    (hplace : sawPoint = false → places = 0) :
    mantissa 10 ⟨n, places, sawPoint, sawDigit⟩ (digits ++ rest) =
      mantissa 10 ⟨valueFrom n digits, if sawPoint then places + digits.length else 0, sawPoint,
        sawDigit || !digits.isEmpty⟩ rest := by
  induction digits generalizing n places sawDigit with
  | nil => cases sawPoint <;> simp_all [valueFrom]
  | cons c more ih =>
    have hc := h c mem_cons_self
    have hnum := numeric_ne (isNumeric_of_isDecimal hc)
    have hdot : c ≠ Bytes.ascii '.' := by
      rintro rfl
      exact absurd hc (by decide)
    rw [cons_append, mantissa, if_neg (by simpa using hnum.2), if_neg (by simpa using hdot),
      digit?_of_isDecimal hc]
    dsimp only
    rw [ih (fun b hb => h b (mem_cons_of_mem _ hb)) _ _ _ (by simp +contextual)]
    cases sawPoint <;> simp [valueFrom, Nat.add_assoc, Nat.add_comm 1]

namespace Numeral

def mantissa (n : Numeral) : Mantissa :=
  ⟨value (n.whole ++ n.fraction), n.fraction.length, !n.fraction.isEmpty, true⟩

theorem mantissa_text (n : Numeral) :
    Number.mantissa 10 ⟨0, 0, false, false⟩ n.text = (n.mantissa, n.powerText) := by
  have hstop : ∀ m, Number.mantissa 10 m n.powerText = (m, n.powerText) := by
    intro m
    unfold powerText
    cases n.power with
    | none => rfl
    | some p =>
      simp only [Option.map_some, Option.getD_some, Power.text, cons_append]
      rcases p.mark_eq with h | h <;> rw [h] <;> rfl
  have hwhole : (!n.whole.isEmpty) = true := by simpa using n.whole_ok.nonempty
  unfold text
  rw [append_assoc, mantissa_digits n.whole_ok.decimal _ _ _ _ _ fun _ => rfl, hwhole]
  by_cases h : n.fraction = []
  · have hpoint : n.point = [] := if_pos h
    rw [hpoint, nil_append, hstop]
    simp [mantissa, h, value]
  · rw [point_of_ne h, cons_append, Number.mantissa, if_neg (by decide), if_pos (by decide)]
    dsimp only
    rw [if_neg (by decide), mantissa_digits n.fraction_ok _ _ _ _ _ (fun h => by cases h), hstop]
    simp [mantissa, h, value, valueFrom_append]

theorem exponent?_powerText (n : Numeral) :
    (if n.powerText.isEmpty then some 0 else exponent? (Bytes.ascii 'e') n.powerText) =
      some ((n.power.map Power.exponent).getD 0) := by
  unfold powerText
  cases n.power with
  | none => rfl
  | some p =>
    have hmark : (lower p.mark == Bytes.ascii 'e') = true := by
      rcases p.mark_eq with h | h <;> rw [h] <;> decide
    have hfilter : p.digits.filter (· != Bytes.ascii '_') = p.digits := by
      refine filter_eq_self.mpr fun b hb => ?_
      simpa using (numeric_ne (isNumeric_of_isDecimal (p.digits_ok.decimal b hb))).2
    have hdig : exponentDigits? p.digits = some (value p.digits) := by
      unfold exponentDigits?
      split
      · rename_i h
        exact absurd h p.digits_ok.nonempty
      · rename_i c rest h
        rw [if_pos (p.digits_ok.decimal c (h ▸ mem_cons_self)), hfilter]
        exact readNat?_digits p.digits_ok
    simp only [Option.map_some, Option.getD_some, Power.text, cons_append, isEmpty_cons,
      Bool.false_eq_true, if_false, exponent?, hmark, if_true, splitSign_power, hdig]
    cases h : p.sign <;> simp [Power.exponent, h]

theorem numeral?_text (n : Numeral) :
    numeral? false n.text = some (.ofScaled false n.decimal.value 10 n.decimal.exponent) := by
  have hunderscores := underscoresOk_numeric n.isNumeric_text
  have hguard {p : Prop} [Decidable p] (hp : p) : (guard p : Option Unit) = some () := if_pos hp
  unfold numeral?
  rw [splitBase_text]
  dsimp only
  rw [mantissa_text]
  have hdigit : n.mantissa.sawDigit = true := rfl
  rw [hguard (Bool.and_eq_true_iff.mpr ⟨hdigit, hunderscores⟩)]
  have hexp := n.exponent?_powerText
  by_cases hempty : n.powerText.isEmpty = true
  · rw [if_pos hempty] at hexp
    simp [mantissa, hempty, decimal, ← Option.some.inj hexp]
  · rw [if_neg hempty] at hexp
    simp [mantissa, hempty, decimal, hexp]

/-- A number that is not too large is read as the finite double nearest to it. -/
theorem readDouble?_text (n : Numeral) (h : n.decimal.Below overflow) :
    ∃ s e, readDouble? n.text = some (.finite false s e) ∧
      ofScaled false n.decimal.value 10 n.decimal.exponent = .finite false s e := by
  obtain ⟨s, e, hfinite⟩ := isFinite_ofScaled false h
  refine ⟨s, e, ?_, hfinite⟩
  unfold readDouble?
  rw [splitSign_text]
  dsimp only
  rw [named?_text, numeral?_text, hfinite]
  rfl

theorem readDouble?_text_eq_none (n : Numeral) (h : ¬n.decimal.Below overflow) :
    readDouble? n.text = none := by
  unfold readDouble?
  rw [splitSign_text]
  dsimp only
  rw [named?_text, numeral?_text, ofScaled_eq_infinite false h]
  rfl

end Numeral

end Number

end Ifj24
