import Ifj24.Proofs.Literals
import Ifj24.Proofs.Respelling

/-!
Number literals that change their type. An integer below `2 ^ 31` is a double itself, so an integer
literal comes back from a conversion to a float and back with the text that it had. A float literal
becomes an integer if the double nearest to its number is one; the number itself may be as far away
as half of the distance between two doubles.
-/

open List

namespace Ifj24

namespace Double

variable {d n m : Nat}

theorem scaled_eq (n d : Nat) (e : Int) :
    scaled n d e = (n * Nat.pow 2 (-e).toNat, d * Nat.pow 2 e.toNat) := by
  have hone : Nat.pow 2 0 = 1 := rfl
  unfold scaled
  split
  · rw [show (-e).toNat = 0 by omega, hone, Nat.mul_one]
  · rw [show e.toNat = 0 by omega, hone, Nat.mul_one]

theorem roundDiv_mul (m : Nat) (hb : 0 < b) : roundDiv (m * b) b = m := by
  rw [roundDiv, Nat.mul_mod_left, Nat.mul_div_cancel _ hb, if_neg (by omega)]

theorem two_mul_roundDiv (a : Nat) (hb : 0 < b) :
    2 * (roundDiv a b * b) ≤ 2 * a + b ∧ 2 * a ≤ 2 * (roundDiv a b * b) + b := by
  have hdivision : b * (a / b) + a % b = a := Nat.div_add_mod a b
  have hremainder : a % b < b := Nat.mod_lt a hb
  have hcomm : a / b * b = b * (a / b) := Nat.mul_comm _ _
  unfold roundDiv
  dsimp only
  split
  · rw [Nat.add_mul, Nat.one_mul]
    omega
  · omega

theorem toInt?_eq_some (h : (finite false s e).toInt? = some (n : Int)) :
    n * Nat.pow 2 (-e).toNat = s * Nat.pow 2 e.toNat := by
  have hone : Nat.pow 2 0 = 1 := rfl
  simp only [toInt?, Bool.false_eq_true, if_false] at h
  split at h
  · rw [show (-e).toNat = 0 by omega, hone, Nat.mul_one]
    exact (Int.natCast_inj.mp (Option.some.inj h)).symm
  · split at h
    · rename_i hmod
      have hquotient := Int.natCast_inj.mp (Option.some.inj h)
      rw [show e.toNat = 0 by omega, hone, Nat.mul_one, ← hquotient, Nat.div_mul_cancel]
      exact Nat.dvd_of_mod_eq_zero hmod
    · cases h

theorem toInt?_ofRatio_mul (hn : n ≠ 0) (hlt : n < Nat.pow 2 31) (hd : 0 < d) :
    (ofRatio false (n * d) d).toInt? = some (n : Int) := by
  have hlog : n.log2 < 31 := (Nat.log2_lt hn).mpr hlt
  have hratio : log2Ratio (n * d) d = n.log2 := by
    refine Int.le_antisymm (Int.le_of_lt_add_one ?_) (le_log2Ratio hd ?_)
    · refine log2Ratio_lt (Nat.mul_ne_zero hn (Nat.ne_of_gt hd)) ?_
      rw [Nat.mul_comm]
      exact Nat.mul_lt_mul_of_pos_left Nat.lt_log2_self hd
    · rw [Nat.mul_comm n]
      exact Nat.mul_le_mul_left d (Nat.log2_self_le hn)
  have hmax : max ((n.log2 : Int) - 52) (-1074) = n.log2 - 52 := by omega
  have hone : Nat.pow 2 0 = 1 := rfl
  unfold ofRatio
  rw [if_neg (Nat.mul_ne_zero hn (Nat.ne_of_gt hd))]
  dsimp only
  rw [hratio, hmax, scaled_eq, show ((n.log2 : Int) - 52).toNat = 0 by omega, hone, Nat.mul_one,
    Nat.mul_right_comm, roundDiv_mul _ hd, if_neg (by omega)]
  have hunit : 0 < Nat.pow 2 (-((n.log2 : Int) - 52)).toNat := Nat.two_pow_pos _
  simp only [toInt?, Bool.false_eq_true, if_false]
  rw [if_neg (by omega), if_pos (Nat.mul_mod_left _ _), Nat.mul_div_cancel _ hunit]

def unitOf (n d : Nat) : Int := max (log2Ratio n d - 52) (-1074)

theorem two_mul_of_toInt? (hn : n ≠ 0) (hd : 0 < d)
    (h : (ofRatio false n d).toInt? = some (m : Int)) :
    let part := Nat.pow 2 (-unitOf n d).toNat
    let unit := Nat.pow 2 (unitOf n d).toNat
    2 * (m * d * part) ≤ 2 * (n * part) + d * unit ∧
      2 * (n * part) ≤ 2 * (m * d * part) + d * unit := by
  unfold ofRatio at h
  rw [if_neg hn] at h
  dsimp only at h ⊢
  rw [scaled_eq, ← unitOf] at h
  split at h
  · cases h
  have hexact := toInt?_eq_some h
  have hunit : 0 < d * Nat.pow 2 (unitOf n d).toNat := Nat.mul_pos hd (Nat.two_pow_pos _)
  have hbounds := two_mul_roundDiv (n * Nat.pow 2 (-unitOf n d).toNat) hunit
  generalize roundDiv _ _ = s at hexact hbounds
  rwa [Nat.mul_left_comm s, ← hexact, Nat.mul_left_comm d, ← Nat.mul_assoc m] at hbounds

theorem log2Ratio_lt_of_toInt? (hn : n ≠ 0) (hd : 0 < d) (hlt : m < Nat.pow 2 31)
    (h : (ofRatio false n d).toInt? = some (m : Int)) : log2Ratio n d < 31 := by
  refine Int.not_le.mp fun hlarge => ?_
  obtain ⟨k, hk⟩ := Int.eq_ofNat_of_zero_le (show 0 ≤ log2Ratio n d by omega)
  have hpower : d * Nat.pow 2 k ≤ n :=
    Nat.le_of_not_lt fun hlt => Int.lt_irrefl _ (hk ▸ log2Ratio_lt hn hlt)
  have hunit : unitOf n d = k - 52 := by
    unfold unitOf
    omega
  obtain ⟨-, hhigh⟩ := two_mul_of_toInt? hn hd h
  have hone : Nat.pow 2 0 = 1 := rfl
  have hmd : m * d + d ≤ Nat.pow 2 31 * d := by
    rw [← Nat.succ_mul]
    exact Nat.mul_le_mul_right d hlt
  rw [hunit] at hhigh
  rcases Nat.lt_or_ge k 52 with hless | hmore
  · -- Between 31 and 52 a unit is less than one.
    obtain ⟨j, hj⟩ := Nat.exists_eq_add_of_le (show 31 ≤ k by omega)
    have hnd : m * d + d ≤ n := by
      refine Nat.le_trans hmd (Nat.le_trans ?_ hpower)
      rw [Nat.mul_comm, hj]
      exact Nat.mul_le_mul_left d (Nat.pow_le_pow_right Nat.two_pos (Nat.le_add_right 31 j))
    have hpart : 0 < Nat.pow 2 (-((k : Int) - 52)).toNat := Nat.two_pow_pos _
    have hmul := Nat.mul_le_mul_right (Nat.pow 2 (-((k : Int) - 52)).toNat) hnd
    rw [Nat.add_mul] at hmul
    have hd' := Nat.le_mul_of_pos_right d hpart
    rw [show ((k : Int) - 52).toNat = 0 by omega, hone, Nat.mul_one] at hhigh
    omega
  · obtain ⟨j, rfl⟩ := Nat.exists_eq_add_of_le hmore
    have hsplit : d * Nat.pow 2 (52 + j) = 4503599627370496 * (d * Nat.pow 2 j) := by
      rw [show Nat.pow 2 (52 + j) = 4503599627370496 * Nat.pow 2 j from Nat.pow_add 2 52 j,
        Nat.mul_left_comm]
    have hle : d ≤ d * Nat.pow 2 j := Nat.le_mul_of_pos_right d (Nat.two_pow_pos j)
    have hthirty : Nat.pow 2 31 = 2147483648 := rfl
    rw [show (-(((52 + j : Nat) : Int) - 52)).toNat = 0 by omega,
      show (((52 + j : Nat) : Int) - 52).toNat = j by omega, hone, Nat.mul_one, Nat.mul_one] at hhigh
    rw [hthirty] at hmd
    omega

theorem near_of_toInt? (hd : 0 < d) (hlt : m < Nat.pow 2 31)
    (h : (ofRatio false n d).toInt? = some (m : Int)) :
    8388608 * n ≤ 8388608 * (m * d) + d ∧ 8388608 * (m * d) ≤ 8388608 * n + d := by
  by_cases hn : n = 0
  · subst hn
    obtain rfl : 0 = m := Int.natCast_inj.mp (Option.some.inj h)
    omega
  have hsmall := log2Ratio_lt_of_toInt? hn hd hlt h
  have hunit : unitOf n d ≤ -22 := by
    unfold unitOf
    omega
  obtain ⟨hlow, hhigh⟩ := two_mul_of_toInt? hn hd h
  obtain ⟨k, hk⟩ := Nat.exists_eq_add_of_le (show 22 ≤ (-unitOf n d).toNat by omega)
  have hone : Nat.pow 2 0 = 1 := rfl
  have hpositive : 0 < Nat.pow 2 k := Nat.two_pow_pos k
  have hle := Nat.le_mul_of_pos_right d hpositive
  have hsplit : ∀ x, x * Nat.pow 2 (22 + k) = 4194304 * (x * Nat.pow 2 k) := fun x => by
    rw [show Nat.pow 2 (22 + k) = 4194304 * Nat.pow 2 k from Nat.pow_add 2 22 k, Nat.mul_left_comm]
  rw [show (unitOf n d).toNat = 0 by omega, hone, Nat.mul_one, hk, hsplit, hsplit] at hlow hhigh
  constructor
  · refine Nat.le_of_mul_le_mul_right ?_ hpositive
    rw [Nat.add_mul, Nat.mul_assoc 8388608, Nat.mul_assoc 8388608]
    omega
  · refine Nat.le_of_mul_le_mul_right ?_ hpositive
    rw [Nat.add_mul, Nat.mul_assoc 8388608, Nat.mul_assoc 8388608]
    omega

theorem toInt?_ofRatio_tiny (hn : n ≠ 0) (hk : 1100 ≤ k) (h : n * Nat.pow 10 k < d) :
    (ofRatio false n d).toInt? = some 0 := by
  have hpower : n * Nat.pow 2 k ≤ d :=
    Nat.le_of_lt (Nat.lt_of_le_of_lt (Nat.mul_le_mul_left n (Nat.pow_le_pow_left (by decide) k)) h)
  have hlog : n.log2 + k ≤ d.log2 := by
    refine (Nat.le_log2 (Nat.ne_of_gt (Nat.lt_of_le_of_lt (Nat.zero_le _) h))).mpr ?_
    rw [Nat.pow_add]
    exact Nat.le_trans (Nat.mul_le_mul_right _ (Nat.log2_self_le hn)) hpower
  have hratio : log2Ratio n d ≤ n.log2 - d.log2 := by
    unfold log2Ratio
    dsimp only
    split <;> omega
  obtain ⟨j, hj⟩ : ∃ j, j = 1074 := ⟨_, rfl⟩
  have hunit : unitOf n d = -j := by
    unfold unitOf
    omega
  have hzero : roundDiv (n * Nat.pow 2 j) (d * 1) < 1 := by
    refine roundDiv_lt ?_
    have hle : n * Nat.pow 2 (j + 1) ≤ n * Nat.pow 2 k :=
      Nat.mul_le_mul_left n (Nat.pow_le_pow_right Nat.two_pos (by omega))
    have hten : n * Nat.pow 2 k ≤ n * Nat.pow 10 k :=
      Nat.mul_le_mul_left n (Nat.pow_le_pow_left (by decide) k)
    rw [show Nat.pow 2 (j + 1) = 2 * Nat.pow 2 j from Nat.pow_succ', Nat.mul_left_comm] at hle
    omega
  unfold ofRatio
  rw [if_neg hn]
  dsimp only
  rw [scaled_eq, ← unitOf, hunit, show (-(j : Int)).toNat = 0 by omega,
    show (-(-(j : Int))).toNat = j by omega, show Nat.pow 2 0 = 1 from rfl]
  dsimp only
  rw [Nat.lt_one_iff.mp hzero, if_neg (by omega)]
  simp [toInt?]

end Double

namespace Number

def Decimal.nearest (x : Decimal) : Double := .ofRatio false x.num x.den

/-- Whether a number is at most `2 ^ -23` from a whole one. -/
def Decimal.Near (m : Nat) (x : Decimal) : Prop :=
  Nat.pow 2 23 * x.num ≤ Nat.pow 2 23 * (m * x.den) + x.den ∧
    Nat.pow 2 23 * (m * x.den) ≤ Nat.pow 2 23 * x.num + x.den

theorem Decimal.den_pos (x : Decimal) : 0 < x.den := Nat.pow_pos (by decide)

theorem Decimal.nearest_of_eq {x : Decimal} (hlt : n < Nat.pow 2 31) (h : x.num = n * x.den) :
    x.nearest.toInt? = some (n : Int) := by
  unfold nearest
  by_cases hn : n = 0
  · rw [h, hn, Nat.zero_mul]
    rfl
  · rw [h]
    exact Double.toInt?_ofRatio_mul hn hlt x.den_pos

theorem toInt?_ofScaled {x : Decimal} (h : x.Below Double.overflow) :
    (Double.ofScaled false x.value 10 x.exponent).toInt? = x.nearest.toInt? := by
  unfold Decimal.nearest
  by_cases hvalue : x.value = 0
  · rw [Decimal.num, hvalue, Nat.zero_mul]
    rfl
  obtain ⟨k, hk, hpower⟩ := Double.overflow_le_ten_pow
  have hdig := h.digits hpower hvalue
  have hnum : x.num ≠ 0 := Nat.mul_ne_zero hvalue (Nat.ne_of_gt (Nat.pow_pos (by decide)))
  rw [ofScaled_eq false hvalue, if_neg (by omega)]
  split
  · rename_i hsmall
    obtain ⟨size, hsize⟩ := Int.eq_ofNat_of_zero_le
      (show 0 ≤ -((Nat.toDigits 10 x.value).length + x.exponent) by omega)
    exact (Double.toInt?_ofRatio_tiny hnum (k := size) (by omega)
      (Decimal.num_mul_lt (by omega))).symm
  · rfl

end Number

namespace Lexeme

theorem digitChar_sub (h : c.isDigit = true) : Nat.digitChar (c.toNat - '0'.toNat) = c := by
  obtain ⟨-, hlow, hhigh⟩ := Number.toNat_ascii h
  rw [← Char.toNat_inj, Nat.toNat_digitChar_of_lt_ten (by simp; omega)]
  simp
  omega

theorem toDigits_ofDigitChars (hn : 0 < n) (h : ∀ c ∈ chars, c.isDigit = true) :
    Nat.toDigits 10 (Nat.ofDigitChars 10 chars n) = Nat.toDigits 10 n ++ chars := by
  induction chars generalizing n with
  | nil => rw [Nat.ofDigitChars_nil, append_nil]
  | cons c rest ih =>
    obtain ⟨-, hlow, hhigh⟩ := Number.toNat_ascii (h c mem_cons_self)
    have hlt : c.toNat - '0'.toNat < 10 := by simp; omega
    rw [Nat.ofDigitChars_cons, ih (by omega) fun d hd => h d (mem_cons_of_mem _ hd),
      ← Nat.toDigits_append_toDigits (by decide) hn hlt, Nat.toDigits_of_lt_base hlt,
      digitChar_sub (h c mem_cons_self), append_assoc]
    rfl

theorem ofNat_value (h : IsWhole chars) :
    Bytes.ofNat (Number.value (Bytes.ofChars chars)) = Bytes.ofChars chars := by
  have hdig : ∀ c ∈ chars, c.isDigit = true := fun c hc => isDigit_iff.mp (h.digits c hc)
  rw [ofChars_digits h.digits, Number.value, Number.valueFrom_map_ascii 0 hdig, Bytes.ofNat,
    Bytes.digits]
  congr 1
  cases chars with
  | nil => exact absurd rfl h.nonempty
  | cons c rest =>
    by_cases hzero : c = '0'
    · rw [h.zero (by rw [hzero]; rfl)]
      rfl
    · have hc := hdig c mem_cons_self
      obtain ⟨-, hlow, hhigh⟩ := Number.toNat_ascii hc
      have hne : c.toNat ≠ 48 := fun heq => hzero (Char.toNat_inj.mp heq)
      have hpos : 0 < 10 * 0 + (c.toNat - '0'.toNat) := by simp; omega
      have hlt : 10 * 0 + (c.toNat - '0'.toNat) < 10 := by simp; omega
      rw [Nat.ofDigitChars_cons, toDigits_ofDigitChars hpos fun d hd => hdig d (mem_cons_of_mem _ hd),
        Nat.toDigits_of_lt_base hlt, Nat.mul_zero, Nat.zero_add, digitChar_sub hc]
      rfl

theorem Spells.float_of_whole (h : IsWhole chars) :
    Spells .float (Bytes.ofChars chars ++ ".0") (chars ++ ['.', '0']) := by
  have hzero : ∀ c ∈ ['0'], isDigit c = true := fun c hc => by rw [mem_singleton.mp hc]; rfl
  have hpoint : IsFraction ['.', '0'] := .some ⟨cons_ne_nil _ _, hzero⟩
  have hfloat := Spells.float h hpoint .none (cons_ne_nil _ _)
  rw [append_nil] at hfloat
  have htext : Bytes.ofChars (chars ++ ['.', '0']) = Bytes.ofChars chars ++ ".0" := flatMap_append
  rwa [htext] at hfloat

end Lexeme

namespace Tree.Value

open Number (Decimal Numeral)

theorem ofInt_natCast (n : Nat) : Bytes.ofInt n = Bytes.ofNat n :=
  if_neg (Int.not_lt.mpr (Int.natCast_nonneg n))

theorem coerce_numeral (pos : Pos) (n : Numeral) :
    (∃ m < Nat.pow 2 31, n.decimal.nearest.toInt? = some (m : Int) ∧
      (ofLiteral pos .f64 n.text).coerce .i32 = .ok (ofLiteral pos .i32 (Bytes.ofNat m))) ∨
    (∀ m < Nat.pow 2 31, n.decimal.nearest.toInt? ≠ some (m : Int)) ∧
      ∃ d, (ofLiteral pos .f64 n.text).coerce .i32 = .error d ∧
        d.kind = if n.decimal.Below Double.overflow then .incompatibleTypes else .internal := by
  have hpower : Int.pow 2 31 = (Nat.pow 2 31 : Nat) := by decide
  unfold coerce
  simp only [ofLiteral, Bool.false_eq_true, if_false, reduceCtorEq, and_self, if_true]
  by_cases hbelow : n.decimal.Below Double.overflow
  · obtain ⟨s, e, hread, hfinite⟩ := n.readDouble?_text hbelow
    rw [← Number.toInt?_ofScaled hbelow, hread, hfinite, if_pos hbelow]
    dsimp only
    cases hinteger : (Double.finite false s e).toInt? with
    | none => exact .inr ⟨fun _ _ h => (by cases h), _, rfl, rfl⟩
    | some k =>
      obtain ⟨m, rfl⟩ := Int.eq_ofNat_of_zero_le (Double.toInt?_nonneg hinteger)
      dsimp only
      split
      · exact .inl ⟨m, by omega, rfl, by rw [ofInt_natCast]⟩
      · refine .inr ⟨fun k hk heq => ?_, _, rfl, rfl⟩
        cases heq
        omega
  · have hinfinite : n.decimal.nearest = .infinite false :=
      Double.ofRatio_eq_infinite false n.decimal.den_pos
        (Nat.mul_comm _ _ ▸ Nat.le_of_not_lt hbelow)
    rw [n.readDouble?_text_eq_none hbelow, hinfinite, if_neg hbelow]
    exact .inr ⟨fun _ _ h => (by cases h), _, rfl, rfl⟩

/-- A float literal becomes an integer if the double nearest to its number is one of 32 bits. Every
number that is one itself does, and every one that does is near the integer it becomes. -/
theorem coerce_float_literal {file source : Bytes} {ts : List Token} {t : Token}
    (h : tokenize file source = .ok ts) (ht : t ∈ ts) (hkind : t.kind = .float) (pos : Pos) :
    let q := Number.decimal t.literal
    let result := (ofLiteral pos .f64 t.literal).coerce .i32
    let integer (n : Nat) := ofLiteral pos .i32 (Bytes.ofNat n)
    (∀ n < Nat.pow 2 31, result = .ok (integer n) ↔ q.nearest.toInt? = some (n : Int)) ∧
      (∀ n < Nat.pow 2 31, q.num = n * q.den → result = .ok (integer n)) ∧
      (∀ v, result = .ok v → ∃ n < Nat.pow 2 31, v = integer n ∧ q.Near n) ∧
      ∀ d, result = .error d →
        d.kind = if q.Below Double.overflow then .incompatibleTypes else .internal := by
  obtain ⟨n, hn⟩ := (Scanner.spelled_tokens h t ht).float hkind
  rw [hn, n.decimal_text]
  rcases coerce_numeral pos n with ⟨m, hm, hnearest, hok⟩ | ⟨hnone, d, herror, hd⟩
  · have hsome : ∀ k : Nat, n.decimal.nearest.toInt? = some (k : Int) ↔ k = m := by
      intro k
      rw [hnearest, Option.some.injEq, Int.natCast_inj, eq_comm]
    have hiff : ∀ k : Nat, (ofLiteral pos .f64 n.text).coerce .i32 =
        .ok (ofLiteral pos .i32 (Bytes.ofNat k)) ↔ k = m := by
      intro k
      rw [hok]
      refine ⟨fun heq => ?_, fun heq => by rw [heq]⟩
      have htext := congrArg Value.literal (Except.ok.inj heq)
      exact ((Number.value_ofNat m).symm.trans ((congrArg Number.value htext).trans
        (Number.value_ofNat k))).symm
    refine ⟨fun k _ => (hiff k).trans (hsome k).symm, fun k hk heq => ?_, fun v hv => ?_, ?_⟩
    · exact (hiff k).mpr ((hsome k).mp (Decimal.nearest_of_eq hk heq))
    · refine ⟨m, hm, Except.ok.inj (hv.symm.trans hok), ?_⟩
      exact Double.near_of_toInt? n.decimal.den_pos hm hnearest
    · intro d hd
      cases hok.symm.trans hd
  · refine ⟨fun k hk => ⟨fun hok => ?_, fun heq => absurd heq (hnone k hk)⟩, fun k hk heq => ?_,
      fun v hv => ?_, fun d' hd' => ?_⟩
    · cases herror.symm.trans hok
    · exact absurd (Decimal.nearest_of_eq hk heq) (hnone k hk)
    · cases herror.symm.trans hv
    · cases herror.symm.trans hd'
      exact hd

theorem coerce_float_literal_seven :
    (ofLiteral ⟨"t", 1, 1⟩ .f64 "7.000").coerce .i32 = .ok (ofLiteral ⟨"t", 1, 1⟩ .i32 "7") := by
  have htoks : tokenize "t" "7.000" =
      .ok [⟨.float, "7.000", ⟨"t", 1, 1⟩⟩, ⟨.eof, [], ⟨"t", 1, 6⟩⟩] :=
    eq_ok_of_toOption (by decide +kernel)
  exact (coerce_float_literal htoks mem_cons_self rfl ⟨"t", 1, 1⟩).2.1 7 (by decide) (by decide)

/-- A number with a fraction becomes an integer if the double nearest to it is one. A number that
is too large for a double is an internal fault. -/
theorem coerce_float_literal_inexact :
    let literal : Bytes := "1.00000000000000000000000001"
    (Number.decimal literal).num % (Number.decimal literal).den = 1 ∧
      ((ofLiteral ⟨"t", 1, 1⟩ .f64 literal).coerce .i32).toOption =
        some (ofLiteral ⟨"t", 1, 1⟩ .i32 "1") ∧
      (ofLiteral ⟨"t", 1, 1⟩ .f64 "1e400").coerce .i32 =
        .error ⟨⟨"t", 1, 1⟩, .badFloat "1e400"⟩ ∧
      (Cause.badFloat "1e400").kind = .internal := by
  have hlarge : Number.readDouble? "1e400" = none := by decide +kernel
  exact ⟨by decide +kernel, by decide +kernel, by simp [coerce, ofLiteral, hlarge], rfl⟩

theorem coerce_self {v : Value} (h : v.null = false) : v.coerce v.type = .ok v := by
  rw [coerce, if_neg (by simp [h]), if_pos rfl]

theorem coerce_idem {v w : Value} {type : DataType} (h : v.coerce type = .ok w) :
    w.coerce type = .ok w := by
  unfold coerce at h
  split at h
  · cases h
  rename_i hnull
  split at h
  · rename_i htype
    cases h
    rw [← htype]
    exact coerce_self (by simpa using hnull)
  split at h
  · rename_i htypes
    cases h
    rw [htypes.2]
    exact coerce_self rfl
  split at h
  · rename_i htypes
    split at h
    · cases h
    split at h
    · cases h
    split at h
    · cases h
      rw [htypes.2]
      exact coerce_self rfl
    · cases h
  · cases h

theorem coerce_zero_fraction {literal : Bytes} (pos : Pos) (h : Number.Digits literal)
    (hlt : Number.value literal < Nat.pow 2 31) :
    (∃ x, Number.readDouble? (literal ++ ".0") = some x ∧
      x.toInt? = some (Number.value literal : Int)) ∧
      (ofLiteral pos .f64 (literal ++ ".0")).coerce .i32 =
        .ok (ofLiteral pos .i32 (Bytes.ofNat (Number.value literal))) := by
  have hnearest : (Numeral.ofDigits h).decimal.nearest.toInt? =
      some (Number.value literal : Int) := by
    rw [Numeral.decimal_ofDigits]
    exact Decimal.nearest_of_eq hlt (Nat.mul_one _)
  have hbelow : (Numeral.ofDigits h).decimal.Below Double.overflow := by
    have hsound : SoundInt (Nat.pow 2 31) literal := ⟨h, hlt⟩
    obtain ⟨n, hn, hbelow⟩ := hsound.float ⟨by decide, by decide⟩
    rwa [← n.decimal_text, ← hn, ← Numeral.text_ofDigits h, Numeral.decimal_text] at hbelow
  rw [← Numeral.text_ofDigits h]
  constructor
  · obtain ⟨s, e, hread, hfinite⟩ := (Numeral.ofDigits h).readDouble?_text hbelow
    exact ⟨_, hread, by rw [← hfinite, Number.toInt?_ofScaled hbelow, hnearest]⟩
  · rcases coerce_numeral pos (.ofDigits h) with ⟨m, -, hm, hok⟩ | ⟨hnone, -⟩
    · rw [hok, Int.natCast_inj.mp (Option.some.inj (hnearest.symm.trans hm))]
    · exact absurd hnearest (hnone _ hlt)

theorem exists_whole {file source : Bytes} {ts : List Token} {t : Token}
    (h : tokenize file source = .ok ts) (ht : t ∈ ts) (hkind : t.kind = .int) :
    ∃ chars, Lexeme.IsWhole chars ∧ t.literal = Bytes.ofChars chars := by
  obtain ⟨front, stop, rfl, hfront⟩ := (Scanner.scans_of_tokens h).exists_front
  rcases mem_append.mp ht with ht | ht
  · obtain ⟨chars, hspells⟩ := hfront t ht
    generalize t.literal = literal at hspells ⊢
    rw [hkind] at hspells
    cases hspells with
    | fixed _ hfixed => cases hfixed
    | int hwhole => exact ⟨_, hwhole, rfl⟩
  · rw [mem_singleton.mp ht] at hkind
    cases hkind

/-- An integer literal below `2 ^ 31` becomes a float literal of the same value and back. No
conversion changes a literal that it gave, and the constant stays the same. -/
theorem coerce_int_literal {file source : Bytes} {ts : List Token} {t : Token}
    (h : tokenize file source = .ok ts) (ht : t ∈ ts) (hkind : t.kind = .int)
    (hlt : Number.value t.literal ≤ 2147483647) (pos : Pos) :
    let n := Number.value t.literal
    let int := ofLiteral pos .i32 t.literal
    let float := ofLiteral pos .f64 (t.literal ++ ".0")
    int.coerce .f64 = .ok float ∧
      (∃ x, Number.readDouble? float.literal = some x ∧ x.toInt? = some (n : Int)) ∧
      (∀ copy, ∃ us, tokenize copy float.literal = .ok us ∧
        us.map Token.content = [(.float, float.literal), (.eof, [])]) ∧
      float.coerce .i32 = .ok int ∧
      (∀ v w : Value, ∀ type, v.coerce type = .ok w → w.coerce type = .ok w) ∧
      Code.constant int = .ok (.int n) ∧
      (Code.Constant.int n).text = "int@" ++ t.literal := by
  obtain ⟨chars, hwhole, hlit⟩ := exists_whole h ht hkind
  have hdig := Lexeme.digits_ofChars hwhole.nonempty hwhole.digits
  rw [← hlit] at hdig
  have htext := Lexeme.ofNat_value hwhole
  rw [← hlit] at htext
  obtain ⟨hread, hback⟩ := coerce_zero_fraction pos hdig (Nat.lt_succ_of_le hlt)
  refine ⟨rfl, hread, fun copy => ?_, ?_, fun v w type => coerce_idem, ?_, ?_⟩
  · have hspell := Lexeme.Spells.float_of_whole hwhole
    have hgives := Scanner.gives_nil.cons (.inl rfl) hspell (hwhole.head_ne _) .ending
    obtain ⟨us, hus, hcontents⟩ := hgives copy .first
    refine ⟨us, ?_, by rw [hcontents, ← hlit]; rfl⟩
    have hchars : Bytes.ofChars (chars ++ ['.', '0']) = t.literal ++ ".0" := by
      rw [hlit]
      exact flatMap_append
    show Scanner.tokens ⟨copy, Scanner.characters (t.literal ++ ".0"), .first⟩ = _
    rw [← hchars, Scanner.characters_ofChars]
    rwa [nil_append, append_nil] at hus
  · rw [hback, htext]
  · rw [constant_digits pos hdig, if_pos (Nat.lt_of_le_of_lt hlt (by decide))]
  · show "int@" ++ Bytes.ofInt _ = _
    rw [ofInt_natCast, htext]

theorem coerce_int_literal_small :
    (ofLiteral ⟨"t", 1, 1⟩ .f64 "42.0").coerce .i32 = .ok (ofLiteral ⟨"t", 1, 1⟩ .i32 "42") := by
  have htoks : tokenize "t" "42" = .ok [⟨.int, "42", ⟨"t", 1, 1⟩⟩, ⟨.eof, [], ⟨"t", 1, 3⟩⟩] :=
    eq_ok_of_toOption (by decide +kernel)
  exact (coerce_int_literal htoks mem_cons_self rfl (by decide) ⟨"t", 1, 1⟩).2.2.2.1

end Tree.Value

end Ifj24
