import CountedLisp.Binary64.Arithmetic
import Mathlib.Data.Int.Order.Lemmas
import Mathlib.Order.Monotone.Basic
import Mathlib.Tactic.Linarith
import Mathlib.Tactic.Ring

/-!
# Integers in double precision

`Binary64.Denotes x i` says that the value of `x` is the integer `i`. An integer is converted to the
number that has it as its value if there is one; otherwise it is rounded to 53 binary digits
(`Binary64.nearest`). Sums, differences and products of numbers whose values are integers are the
exact ones, rounded in the same way once, and numbers are ordered as their values are.

`Binary64.DenotesOver x i k` says that the value of `x` is the fraction `i / 2 ^ k`. Multiplying
fractions is multiplying their numerators, with the same rounding.

The value of a number is measured in units of the least positive one, `2 ^ -1074`, so that it is an
integer (`Binary64.units`). What is rounded is a quotient of two naturals, and it does not matter
how this quotient is written (`round_mul_pow`).
-/

namespace CountedLisp

namespace Binary64

/-! ### Rounding a quotient -/

theorem log2_mul_pow {n : ℕ} (hn : n ≠ 0) (k : ℕ) : (n * 2 ^ k).log2 = n.log2 + k := by
  have hpos : 0 < 2 ^ k := Nat.two_pow_pos k
  rw [Nat.log2_eq_iff (Nat.mul_ne_zero hn hpos.ne'), Nat.pow_add, Nat.add_right_comm, Nat.pow_add]
  exact ⟨Nat.mul_le_mul_right _ (Nat.log2_self_le hn), Nat.mul_lt_mul_of_pos_right
    Nat.lt_log2_self hpos⟩

theorem roundQuotient_mul (num den : ℕ) {c : ℕ} (hc : 0 < c) :
    roundQuotient (num * c) (den * c) = roundQuotient num den := by
  have hlt : den * c < 2 * (num % den * c) ↔ den < 2 * (num % den) := by
    rw [← Nat.mul_assoc, Nat.mul_lt_mul_right hc]
  have heq : 2 * (num % den * c) = den * c ↔ 2 * (num % den) = den := by
    rw [← Nat.mul_assoc, Nat.mul_left_inj hc.ne']
  simp only [roundQuotient, Nat.mul_div_mul_right _ _ hc, Nat.mul_mod_mul_right, hlt, heq]

/-- A quotient that is a natural needs no rounding. -/
theorem roundQuotient_self_mul (n : ℕ) {c : ℕ} (hc : 0 < c) : roundQuotient (n * c) c = n := by
  simp [roundQuotient, Nat.mul_div_cancel n hc, hc.ne]

theorem roundQuotient_one (n : ℕ) : roundQuotient n 1 = n := by
  simpa using roundQuotient_self_mul n Nat.one_pos

theorem scale_mul_pow (num den k : ℕ) (e : ℤ) : scale (num * 2 ^ k) (den * 2 ^ k) e =
    ((scale num den e).1 * 2 ^ k, (scale num den e).2 * 2 ^ k) := by
  unfold scale
  split_ifs
  · rw [Nat.mul_right_comm]
  · rw [Nat.mul_right_comm]

theorem roundingExponent_mul_pow {num den : ℕ} (hnum : num ≠ 0) (hden : den ≠ 0) (k : ℕ) :
    roundingExponent (num * 2 ^ k) (den * 2 ^ k) = roundingExponent num den := by
  unfold roundingExponent
  rw [log2_mul_pow hnum, log2_mul_pow hden]
  have hexp : ((num.log2 + k : ℕ) : ℤ) - (den.log2 + k : ℕ) - 52 = num.log2 - den.log2 - 52 := by
    omega
  simp only [hexp, scale_mul_pow, Nat.mul_div_mul_right _ _ (Nat.two_pow_pos k)]

/-- **Rounding depends on the quotient only.** -/
theorem round_mul_pow (negative : Bool) (num : ℕ) {den : ℕ} (hden : den ≠ 0) (k : ℕ) :
    round negative (num * 2 ^ k) (den * 2 ^ k) = round negative num den := by
  by_cases hnum : num = 0
  · simp [round, hnum]
  · have hnum' : num * 2 ^ k ≠ 0 := Nat.mul_ne_zero hnum (Nat.two_pow_pos k).ne'
    simp only [round, hnum, hnum', if_false, roundingExponent_mul_pow hnum hden, scale_mul_pow,
      roundQuotient_mul _ _ (Nat.two_pow_pos k)]

/-- A number of whole units is rounded as the fraction that it is. -/
theorem roundScaled_eq (negative : Bool) {m n k j : ℕ} {q : ℤ} (hq : 0 ≤ q + k)
    (h : m * 2 ^ (q + k).toNat * 2 ^ j = n * 2 ^ k) :
    roundScaled negative m q = round negative n (2 ^ j) := by
  unfold roundScaled
  split_ifs with hpos
  · have hn : m * 2 ^ q.toNat * 2 ^ j = n := by
      refine Nat.mul_right_cancel (Nat.two_pow_pos k) ?_
      rw [← h, show (q + k).toNat = q.toNat + k by omega, Nat.pow_add]
      ring
    rw [Nat.pow_eq, ← hn, ← round_mul_pow negative _ Nat.one_ne_zero j, Nat.one_mul]
  · have hn : m * 2 ^ j = n * 2 ^ (-q).toNat := by
      refine Nat.mul_right_cancel (Nat.two_pow_pos (q + k).toNat) ?_
      rw [Nat.mul_right_comm, h, Nat.mul_assoc, ← Nat.pow_add]
      congr 2
      omega
    rw [Nat.pow_eq, ← round_mul_pow negative m (Nat.two_pow_pos _).ne' j, hn,
      Nat.mul_comm (2 ^ _), round_mul_pow negative n (Nat.two_pow_pos _).ne']

/-! ### Units -/

/-- The unit is this negative power of two. -/
@[irreducible] def unitExponent : ℕ := 1074

theorem unitExponent_eq : (unitExponent : ℤ) = 1074 := by
  rw [unitExponent]
  rfl

theorem two_pow_unitExponent_pos : (0 : ℤ) < 2 ^ unitExponent :=
  pow_pos two_pos _

/-- The value of a magnitude in units. -/
def weight (n : ℕ) : ℕ :=
  if n / 2 ^ 52 = 0 then n else (2 ^ 52 + n % 2 ^ 52) * 2 ^ (n / 2 ^ 52 - 1)

/-- A magnitude that is put together from an exponent and a significand of 53 binary digits, or the
one after all these. -/
theorem weight_add (k : ℕ) {m : ℕ} (hlow : 2 ^ 52 ≤ m) (hhigh : m ≤ 2 ^ 53) :
    weight (k * 2 ^ 52 + m) = m * 2 ^ k := by
  unfold weight
  rcases Nat.lt_or_eq_of_le hhigh with hlt | rfl
  · have hdiv : (k * 2 ^ 52 + m) / 2 ^ 52 = k + 1 := by omega
    have hmod : 2 ^ 52 + (k * 2 ^ 52 + m) % 2 ^ 52 = m := by omega
    rw [hdiv, hmod, if_neg (Nat.succ_ne_zero k), Nat.add_sub_cancel]
  · -- the carry out of the significand doubles the unit
    have hdiv : (k * 2 ^ 52 + 2 ^ 53) / 2 ^ 52 = k + 2 := by omega
    have hmod : (k * 2 ^ 52 + 2 ^ 53) % 2 ^ 52 = 0 := by omega
    rw [hdiv, hmod, if_neg (by omega), Nat.add_zero, show k + 2 - 1 = k + 1 from rfl, Nat.pow_succ]
    ring

theorem weight_of_lt {n : ℕ} (h : n < 2 ^ 52) : weight n = n := by
  rw [weight, if_pos (Nat.div_eq_of_lt h)]

theorem strictMono_weight : StrictMono weight := by
  refine strictMono_nat_of_lt_succ fun n => ?_
  by_cases hn : n < 2 ^ 52
  · rw [weight_of_lt hn]
    rcases Nat.lt_or_eq_of_le (Nat.succ_le_of_lt hn) with hlt | heq
    · rw [weight_of_lt hlt]
      exact Nat.lt_succ_self n
    · rw [show n + 1 = 0 * 2 ^ 52 + 2 ^ 52 by omega, weight_add 0 (le_refl _) (by norm_num)]
      omega
  · -- both are written with the exponent of the smaller one
    obtain ⟨k, m, rfl, hlow, hhigh⟩ : ∃ k m, n = k * 2 ^ 52 + m ∧ 2 ^ 52 ≤ m ∧ m < 2 ^ 53 :=
      ⟨n / 2 ^ 52 - 1, 2 ^ 52 + n % 2 ^ 52, by omega, by omega, by omega⟩
    rw [Nat.add_assoc, weight_add k hlow hhigh.le, weight_add k (by omega) hhigh]
    exact Nat.mul_lt_mul_of_pos_right (Nat.lt_succ_self m) (Nat.two_pow_pos k)

/-- The value of a number in units, as far as it has one. -/
def units (x : Binary64) : ℤ :=
  if x.isNegative then -(weight x.magnitude) else weight x.magnitude

theorem decode_of_lt {x : Binary64} (hx : x.magnitude < infinityBits) :
    ∃ m q, x.decode = .finite x.isNegative m q ∧ 0 ≤ q + unitExponent ∧
      m * 2 ^ (q + unitExponent).toNat = weight x.magnitude := by
  have hunit := unitExponent_eq
  have hnan : x.isNaN = false := by simp [isNaN, hx.le]
  have hinf : x.isInfinite = false := by simp [isInfinite, hx.ne]
  simp only [decode, hnan, hinf, Bool.false_eq_true, if_false, Nat.pow_eq, weight]
  split_ifs with hfield
  · refine ⟨_, _, rfl, by omega, ?_⟩
    have hlt : x.magnitude < 2 ^ 52 := Nat.lt_of_div_eq_zero (Nat.two_pow_pos 52) hfield
    rw [Nat.mod_eq_of_lt hlt, hunit]
    exact Nat.mul_one _
  · refine ⟨_, _, rfl, by omega, ?_⟩
    congr 2
    omega

/-- A value at another exponent. -/
theorem signedAt_mul_pow (s : Bool) (m : ℕ) {q e f : ℤ} (hf : f ≤ e) (he : e ≤ q) :
    signedAt s m q e * 2 ^ (e - f).toNat = signedAt s m q f := by
  have hexp : (q - f).toNat = (q - e).toNat + (e - f).toNat := by omega
  simp only [signedAt, Nat.pow_eq, hexp, pow_add]
  push_cast
  split_ifs <;> ring

theorem signedAt_unit {x : Binary64} {m : ℕ} {q : ℤ}
    (h : m * 2 ^ (q + unitExponent).toNat = weight x.magnitude) :
    signedAt x.isNegative m q (-unitExponent) = x.units := by
  simp only [signedAt, Nat.pow_eq, sub_neg_eq_add, units, ← h]
  push_cast
  rfl

theorem units_lt_iff {x y : Binary64} : x.units < y.units ↔ x.orderKey < y.orderKey := by
  have hlt : ∀ m n, weight m < weight n ↔ m < n := fun m n => strictMono_weight.lt_iff_lt
  have hzero : weight 0 = 0 := weight_of_lt (by norm_num)
  have hx := hlt 0 x.magnitude
  have hy := hlt 0 y.magnitude
  have hxy := hlt x.magnitude y.magnitude
  have hyx := hlt y.magnitude x.magnitude
  simp only [units, orderKey]
  split_ifs <;> omega

theorem units_eq_iff {x y : Binary64} : x.units = y.units ↔ x.orderKey = y.orderKey := by
  have hxy := @units_lt_iff x y
  have hyx := @units_lt_iff y x
  omega

/-! ### Numbers that are fractions or integers -/

/-- The value of the number is this integer divided by the power `2 ^ k`. -/
structure DenotesOver (x : Binary64) (i : ℤ) (k : ℕ) : Prop where
  finite : x.magnitude < infinityBits
  units : x.units * 2 ^ k = i * 2 ^ unitExponent

/-- The value of the number is this integer. -/
structure Denotes (x : Binary64) (i : ℤ) : Prop where
  finite : x.magnitude < infinityBits
  units : x.units = i * 2 ^ unitExponent

theorem denotesOver_zero_iff {x : Binary64} {i : ℤ} : x.DenotesOver i 0 ↔ x.Denotes i := by
  constructor
  · rintro ⟨hfinite, hunits⟩
    exact ⟨hfinite, by rwa [pow_zero, mul_one] at hunits⟩
  · rintro ⟨hfinite, hunits⟩
    exact ⟨hfinite, by rwa [pow_zero, mul_one]⟩

theorem bits_ofMagnitude (negative : Bool) {n : ℕ} (hn : n < infinityBits) :
    (ofMagnitude negative n).bits.toNat = (if negative then 2 ^ 63 else 0) + n := by
  simp only [infinityBits, Nat.pow_eq] at hn
  simp only [ofMagnitude, Nat.pow_eq, UInt64.toNat_ofNat', Nat.toUInt64]
  cases negative
  · simp only [Bool.false_eq_true, if_false]
    omega
  · simp only [if_true]
    omega

theorem magnitude_ofMagnitude (negative : Bool) {n : ℕ} (hn : n < infinityBits) :
    (ofMagnitude negative n).magnitude = n := by
  simp only [magnitude, bits_ofMagnitude negative hn, Nat.pow_eq]
  simp only [infinityBits, Nat.pow_eq] at hn
  split_ifs <;> omega

theorem isNegative_ofMagnitude (negative : Bool) {n : ℕ} (hn : n < infinityBits) :
    (ofMagnitude negative n).isNegative = negative := by
  simp only [isNegative, bits_ofMagnitude negative hn, Nat.pow_eq]
  simp only [infinityBits, Nat.pow_eq] at hn
  cases negative
  · simp only [Bool.false_eq_true, if_false, decide_eq_false_iff_not]
    omega
  · simp

theorem denotesOver_ofMagnitude (negative : Bool) {n k : ℕ} {i : ℤ} (hn : n < infinityBits)
    (hi : (if negative then -(weight n : ℤ) else weight n) * 2 ^ k = i * 2 ^ unitExponent) :
    (ofMagnitude negative n).DenotesOver i k := by
  refine ⟨by rwa [magnitude_ofMagnitude negative hn], ?_⟩
  rw [Binary64.units, magnitude_ofMagnitude negative hn, isNegative_ofMagnitude negative hn, hi]

theorem denotesOver_zero (negative : Bool) (k : ℕ) : (zero negative).DenotesOver 0 k :=
  denotesOver_ofMagnitude negative (by decide) (by cases negative <;> simp [weight])

namespace DenotesOver

variable {x : Binary64} {i : ℤ} {k : ℕ}

theorem isNaN (hx : x.DenotesOver i k) : x.isNaN = false := by
  simp [Binary64.isNaN, hx.finite.le]

theorem weight_eq (hx : x.DenotesOver i k) :
    weight x.magnitude * 2 ^ k = i.natAbs * 2 ^ unitExponent := by
  have habs := congrArg Int.natAbs hx.units
  rw [Int.natAbs_mul, Int.natAbs_mul, Int.natAbs_pow, Int.natAbs_pow, Binary64.units] at habs
  refine Eq.trans ?_ habs
  split_ifs <;> simp

/-- The sign and the value agree, where zero has either sign. -/
theorem signed_natAbs (hx : x.DenotesOver i k) :
    (if x.isNegative then -(i.natAbs : ℤ) else i.natAbs) = i := by
  have hweight : (weight x.magnitude : ℤ) * 2 ^ k = i.natAbs * 2 ^ unitExponent := by
    exact_mod_cast hx.weight_eq
  have hunits := hx.units
  rw [Binary64.units] at hunits
  refine mul_right_cancel₀ two_pow_unitExponent_pos.ne' (Eq.trans ?_ hunits)
  split_ifs
  · rw [neg_mul, neg_mul, hweight]
  · rw [hweight]

/-- **The least integer that is not below a fraction.** -/
theorem ceil?_eq (hx : x.DenotesOver i k) : x.ceil? = some (-(-i / 2 ^ k)) := by
  obtain ⟨m, q, hdecode, hq, hvalue⟩ := decode_of_lt hx.finite
  -- the number is a multiple `v` of the power of two `2 ^ min q 0`
  have hmax : signedAt x.isNegative m (max q 0) 0 = signedAt x.isNegative m q (min q 0) := by
    simp only [signedAt, show max q 0 - 0 = q - min q 0 by omega]
  have hunits := signedAt_mul_pow x.isNegative m (show -(unitExponent : ℤ) ≤ min q 0 by omega)
    (min_le_left q 0)
  rw [signedAt_unit hvalue] at hunits
  simp only [ceil?, hdecode, hmax, Nat.pow_eq, Option.some.injEq]
  generalize signedAt x.isNegative m q (min q 0) = v at hunits
  have hv : v * 2 ^ k = i * 2 ^ (-min q 0).toNat := by
    have hpos : (0 : ℤ) < 2 ^ (min q 0 - -unitExponent).toNat := pow_pos two_pos _
    refine mul_right_cancel₀ hpos.ne' ?_
    rw [mul_right_comm, hunits, hx.units, mul_assoc, ← pow_add]
    congr 2
    omega
  have hceil : -v / 2 ^ (-min q 0).toNat = -i / 2 ^ k := by
    rw [← Int.mul_ediv_mul_of_pos_left _ _ (pow_pos two_pos k), neg_mul, hv, ← neg_mul,
      mul_comm (2 ^ _), Int.mul_ediv_mul_of_pos_left _ _ (pow_pos two_pos _)]
  split_ifs with hpos
  · rw [← hceil, min_eq_right hpos]
    simp
  · rw [← hceil, min_eq_left (not_le.1 hpos).le]
    push_cast
    rfl

end DenotesOver

namespace Denotes

variable {x y : Binary64} {i j : ℤ}

theorem isNaN (hx : x.Denotes i) : x.isNaN = false :=
  (denotesOver_zero_iff.2 hx).isNaN

theorem weight_eq (hx : x.Denotes i) : weight x.magnitude = i.natAbs * 2 ^ unitExponent := by
  simpa using (denotesOver_zero_iff.2 hx).weight_eq

/-- The sign and the value agree, where zero has either sign. -/
theorem signed_natAbs (hx : x.Denotes i) :
    (if x.isNegative then -(i.natAbs : ℤ) else i.natAbs) = i :=
  (denotesOver_zero_iff.2 hx).signed_natAbs

/-- **A number that is an integer is found to be this integer.** -/
theorem toInt?_eq (hx : x.Denotes i) : x.toInt? = some i := by
  obtain ⟨m, q, hdecode, hq, hvalue⟩ := decode_of_lt hx.finite
  rw [hx.weight_eq] at hvalue
  simp only [toInt?, hdecode, Nat.pow_eq]
  by_cases hpos : 0 ≤ q
  · have hm : m * 2 ^ q.toNat = i.natAbs := by
      rw [show (q + unitExponent).toNat = q.toNat + unitExponent by omega, Nat.pow_add,
        ← Nat.mul_assoc] at hvalue
      exact Nat.mul_right_cancel (Nat.two_pow_pos _) hvalue
    simp only [hpos, decide_true, Bool.true_or, if_true, ← Nat.cast_mul, hm, hx.signed_natAbs]
  · have hexp : unitExponent = (-q).toNat + (q + unitExponent).toNat := by omega
    have hm : m = i.natAbs * 2 ^ (-q).toNat := by
      rw [hexp, Nat.pow_add, ← Nat.mul_assoc, ← hexp] at hvalue
      exact Nat.mul_right_cancel (Nat.two_pow_pos _) hvalue
    have hdiv : ((m : ℤ) / (2 ^ (-q).toNat : ℕ)) = i.natAbs := by
      rw [← Int.natCast_ediv, hm, Nat.mul_div_cancel _ (Nat.two_pow_pos _)]
    have hmod : m % 2 ^ (-q).toNat = 0 := by rw [hm, Nat.mul_mod_left]
    simp only [hpos, hmod, hdiv, decide_true, Bool.or_true, if_true, if_false, hx.signed_natAbs]

theorem lt_eq (hx : x.Denotes i) (hy : y.Denotes j) : x.lt y = decide (i < j) := by
  simp only [lt, hx.isNaN, hy.isNaN, Bool.not_false, Bool.true_and, ← units_lt_iff, hx.units,
    hy.units, mul_lt_mul_iff_left₀ two_pow_unitExponent_pos]

theorem eq_eq (hx : x.Denotes i) (hy : y.Denotes j) : x.eq y = decide (i = j) := by
  simp only [Binary64.eq, hx.isNaN, hy.isNaN, Bool.not_false, Bool.true_and, ← units_eq_iff,
    hx.units, hy.units, mul_left_inj' two_pow_unitExponent_pos.ne']

end Denotes

/-! ### Rounding an integer -/

theorem roundQuotient_le_succ (num den : ℕ) :
    num / den ≤ roundQuotient num den ∧ roundQuotient num den ≤ num / den + 1 := by
  simp only [roundQuotient]
  split_ifs <;> omega

/-- At the exponent that leaves 53 binary digits of a natural, the quotient has them. -/
theorem div_scale {n : ℕ} (hn : n ≠ 0) {s : ℕ × ℕ} (hs : s = scale n 1 (n.log2 - 52)) :
    2 ^ 52 ≤ s.1 / s.2 ∧ s.1 / s.2 < 2 ^ 53 := by
  have hlow := Nat.log2_self_le hn
  have hhigh : n < 2 ^ (n.log2 + 1) := Nat.lt_log2_self
  subst hs
  unfold scale
  split_ifs with he
  · obtain ⟨k, hk⟩ : ∃ k, n.log2 = 52 + k := ⟨n.log2 - 52, by omega⟩
    rw [hk, Nat.add_right_comm, Nat.pow_add] at hhigh
    rw [hk, Nat.pow_add] at hlow
    rw [show ((n.log2 : ℤ) - 52).toNat = k by omega, Nat.one_mul, Nat.pow_eq]
    exact ⟨(Nat.le_div_iff_mul_le (Nat.two_pow_pos k)).2 hlow,
      (Nat.div_lt_iff_lt_mul (Nat.two_pow_pos k)).2 hhigh⟩
  · obtain ⟨k, hk⟩ : ∃ k, 52 = n.log2 + k := ⟨52 - n.log2, by omega⟩
    rw [show (-((n.log2 : ℤ) - 52)).toNat = k by omega, Nat.div_one, Nat.pow_eq]
    constructor
    · calc 2 ^ 52 = 2 ^ n.log2 * 2 ^ k := by rw [← Nat.pow_add, ← hk]
        _ ≤ n * 2 ^ k := Nat.mul_le_mul_right _ hlow
    · calc n * 2 ^ k < 2 ^ (n.log2 + 1) * 2 ^ k :=
          Nat.mul_lt_mul_of_pos_right hhigh (Nat.two_pow_pos k)
        _ = 2 ^ 53 := by rw [← Nat.pow_add, show n.log2 + 1 + k = 53 by omega]

/-- Dividing by a power of two changes the exponent and not the digits. -/
theorem exists_scale_two_pow (n k : ℕ) (e : ℤ) : ∃ c, scale n (2 ^ k) (e - k) =
    ((scale n 1 e).1 * 2 ^ c, (scale n 1 e).2 * 2 ^ c) := by
  unfold scale
  simp only [Nat.pow_eq, Nat.one_mul]
  split_ifs with hk he
  · refine ⟨0, ?_⟩
    rw [← Nat.pow_add, show k + (e - k).toNat = e.toNat by omega, Nat.pow_zero, Nat.mul_one,
      Nat.mul_one]
  · omega
  · refine ⟨(k - e).toNat, ?_⟩
    rw [← Nat.pow_add, show e.toNat + (k - e).toNat = k by omega, neg_sub]
  · refine ⟨k, ?_⟩
    rw [Nat.mul_assoc, ← Nat.pow_add, show (-e).toNat + k = (-(e - k)).toNat by omega, Nat.one_mul]

theorem roundingExponent_two_pow {n k : ℕ} (hn : n ≠ 0) (hk : k ≤ 1022) :
    roundingExponent n (2 ^ k) = n.log2 - 52 - k := by
  obtain ⟨c, hc⟩ := exists_scale_two_pow n k (n.log2 - 52)
  have hbound := (div_scale hn rfl).1
  simp only [roundingExponent, Nat.log2_two_pow, sub_right_comm _ (k : ℤ), hc, Nat.pow_eq,
    Nat.mul_div_mul_right _ _ (Nat.two_pow_pos c), if_neg (Nat.not_lt.2 hbound)]
  omega

/-- A natural rounded to 53 binary digits, a tie to the even one. -/
def keep (n : ℕ) : ℕ :=
  roundQuotient n (2 ^ (n.log2 - 52)) * 2 ^ (n.log2 - 52)

/-- The digits that are kept, in units. -/
theorem roundQuotient_scale_mul_pow (n : ℕ) {s : ℕ × ℕ} (hs : s = scale n 1 (n.log2 - 52)) :
    roundQuotient s.1 s.2 * 2 ^ ((n.log2 : ℤ) - 52 + unitExponent).toNat =
      keep n * 2 ^ unitExponent := by
  have hunit := unitExponent_eq
  subst hs
  unfold scale keep
  split_ifs with he
  · rw [show ((n.log2 : ℤ) - 52 + unitExponent).toNat = (n.log2 - 52) + unitExponent by omega,
      show ((n.log2 : ℤ) - 52).toNat = n.log2 - 52 by omega, Nat.one_mul, Nat.pow_eq, Nat.pow_add,
      Nat.mul_assoc]
  · rw [show n.log2 - 52 = 0 by omega, Nat.pow_zero, roundQuotient_one, roundQuotient_one,
      Nat.mul_one, Nat.mul_assoc, Nat.pow_eq, ← Nat.pow_add]
    congr 2
    omega

/-- A fraction is rounded by rounding its numerator to 53 binary digits. -/
theorem denotesOver_round (negative : Bool) {n k : ℕ} (hn : n.log2 < 1023) (hk : k ≤ 1022) :
    (round negative n (2 ^ k)).DenotesOver (if negative then -keep n else keep n) k := by
  by_cases h0 : n = 0
  · subst h0
    have hkeep : keep 0 = 0 := rfl
    simpa [hkeep, round] using denotesOver_zero negative k
  · have hunit := unitExponent_eq
    obtain ⟨c, hc⟩ := exists_scale_two_pow n k (n.log2 - 52)
    simp only [round, h0, if_false, roundingExponent_two_pow h0 hk, hc,
      roundQuotient_mul _ _ (Nat.two_pow_pos c), Nat.pow_eq, ← hunit]
    generalize hs : scale n 1 (n.log2 - 52) = s
    have hdigits := div_scale h0 hs.symm
    have hround := roundQuotient_le_succ s.1 s.2
    -- the quotient has 53 binary digits, or it is rounded up to the power of two above them
    have hfinite : ((n.log2 : ℤ) - 52 - k + unitExponent).toNat * 2 ^ 52 + roundQuotient s.1 s.2
        < infinityBits := by
      simp only [infinityBits, Nat.pow_eq]
      omega
    rw [Nat.min_eq_left hfinite.le]
    have hweight : weight (((n.log2 : ℤ) - 52 - k + unitExponent).toNat * 2 ^ 52 +
        roundQuotient s.1 s.2) * 2 ^ k = keep n * 2 ^ unitExponent := by
      rw [weight_add _ (by omega) (by omega), ← roundQuotient_scale_mul_pow n hs.symm,
        Nat.mul_assoc, ← Nat.pow_add]
      congr 2
      omega
    refine denotesOver_ofMagnitude negative hfinite ?_
    have hweight' := congrArg (Nat.cast (R := ℤ)) hweight
    push_cast at hweight'
    cases negative <;> simpa using hweight'

/-- A natural is rounded to 53 binary digits. -/
theorem denotes_round (negative : Bool) {n : ℕ} (hn : n.log2 < 1023) :
    (round negative n 1).Denotes (if negative then -keep n else keep n) := by
  have h := denotesOver_round negative hn (Nat.zero_le _)
  rwa [Nat.pow_zero, denotesOver_zero_iff] at h

/-- An integer rounded to 53 binary digits, a tie to the even one. -/
def nearest (i : ℤ) : ℤ :=
  if i < 0 then -keep i.natAbs else keep i.natAbs

theorem nearest_eq {i : ℤ} {negative : Bool}
    (h : (if negative then -(i.natAbs : ℤ) else i.natAbs) = i) :
    (if negative then -(keep i.natAbs : ℤ) else keep i.natAbs) = nearest i := by
  unfold nearest
  by_cases h0 : i = 0
  · subst h0
    have hkeep : keep 0 = 0 := rfl
    simp [hkeep]
  · cases negative
    · rw [if_neg Bool.false_ne_true] at h ⊢
      rw [if_neg (by omega)]
    · rw [if_pos rfl] at h ⊢
      rw [if_pos (by omega)]

/-- **An integer is converted to the one that it is rounded to.** -/
theorem denotes_ofInt {i : ℤ} (hi : i.natAbs.log2 < 1023) : (ofInt i).Denotes (nearest i) := by
  have h := denotes_round (i < 0) hi
  rwa [nearest_eq (by simp only [decide_eq_true_eq]; omega)] at h

namespace Denotes

variable {x y : Binary64} {i j : ℤ}

/-- **A sum is rounded once.** -/
theorem add (hx : x.Denotes i) (hy : y.Denotes j) (hij : (i + j).natAbs.log2 < 1023) :
    (x.add y).Denotes (nearest (i + j)) := by
  obtain ⟨m, q, hdx, hq, hm⟩ := decode_of_lt hx.finite
  obtain ⟨n, r, hdy, hr, hn⟩ := decode_of_lt hy.finite
  simp only [Binary64.add, propagate, hx.isNaN, hy.isNaN, Bool.false_eq_true, if_false, hdx, hdy]
  -- in the smaller of the two units the sum is exact
  generalize he : min q r = e
  generalize hsum : signedAt x.isNegative m q e + signedAt y.isNegative n r e = sum
  have hexact : sum * 2 ^ (e + unitExponent).toNat = (i + j) * 2 ^ unitExponent := by
    rw [add_mul, ← hx.units, ← hy.units, ← signedAt_unit hm, ← signedAt_unit hn,
      ← signedAt_mul_pow _ m (show -(unitExponent : ℤ) ≤ e by omega) (show e ≤ q by omega),
      ← signedAt_mul_pow _ n (show -(unitExponent : ℤ) ≤ e by omega) (show e ≤ r by omega),
      ← add_mul, hsum, sub_neg_eq_add]
  have hsign : sum < 0 ↔ i + j < 0 :=
    calc sum < 0 ↔ sum * 2 ^ (e + unitExponent).toNat < 0 * 2 ^ (e + unitExponent).toNat :=
          (mul_lt_mul_iff_left₀ (pow_pos two_pos _)).symm
      _ ↔ (i + j) * 2 ^ unitExponent < 0 * 2 ^ unitExponent := by rw [hexact, zero_mul, zero_mul]
      _ ↔ i + j < 0 := mul_lt_mul_iff_left₀ two_pow_unitExponent_pos
  split_ifs with h0
  · have hij0 : i + j = 0 := by
      rw [h0, zero_mul] at hexact
      exact (mul_eq_zero.1 hexact.symm).resolve_right two_pow_unitExponent_pos.ne'
    rw [hij0]
    exact denotesOver_zero_iff.1 (denotesOver_zero _ 0)
  · have habs := congrArg Int.natAbs hexact
    rw [Int.natAbs_mul, Int.natAbs_mul, Int.natAbs_pow, Int.natAbs_pow, ← Nat.mul_one (_ * _)]
      at habs
    rw [roundScaled_eq (j := 0) _ (by omega) habs, decide_eq_decide.2 hsign, Nat.pow_zero]
    exact denotes_ofInt hij

theorem neg (hx : x.Denotes i) : x.neg.Denotes (-i) := by
  refine denotesOver_zero_iff.1 (denotesOver_ofMagnitude _ hx.finite ?_)
  have hunits := hx.units
  rw [Binary64.units] at hunits
  rw [neg_mul, ← hunits]
  cases x.isNegative <;> simp

/-- **A difference is rounded once.** -/
theorem sub (hx : x.Denotes i) (hy : y.Denotes j) (hij : (i - j).natAbs.log2 < 1023) :
    (x.sub y).Denotes (nearest (i - j)) := by
  rw [Binary64.sub, hy.isNaN, if_neg Bool.false_ne_true]
  exact hx.add hy.neg hij

end Denotes

/-- **A product is rounded once.** -/
theorem DenotesOver.mul {x y : Binary64} {i j : ℤ} {k l : ℕ} (hx : x.DenotesOver i k)
    (hy : y.DenotesOver j l) (hij : (i * j).natAbs.log2 < 1023) (hkl : k + l ≤ 1022) :
    (x.mul y).DenotesOver (nearest (i * j)) (k + l) := by
  obtain ⟨m, q, hdx, hq, hm⟩ := decode_of_lt hx.finite
  obtain ⟨n, r, hdy, hr, hn⟩ := decode_of_lt hy.finite
  simp only [Binary64.mul, propagate, hx.isNaN, hy.isNaN, Bool.false_eq_true, if_false, hdx, hdy]
  have hexact : m * n * 2 ^ (q + r + (2 * unitExponent : ℕ)).toNat * 2 ^ (k + l) =
      (i * j).natAbs * 2 ^ (2 * unitExponent) :=
    calc m * n * 2 ^ (q + r + (2 * unitExponent : ℕ)).toNat * 2 ^ (k + l)
        = (m * 2 ^ (q + unitExponent).toNat * 2 ^ k) *
            (n * 2 ^ (r + unitExponent).toNat * 2 ^ l) := by
          rw [show (q + r + (2 * unitExponent : ℕ)).toNat = (q + unitExponent).toNat +
            (r + unitExponent).toNat by omega]
          ring
      _ = (i * j).natAbs * 2 ^ (2 * unitExponent) := by
          rw [hm, hn, hx.weight_eq, hy.weight_eq, Int.natAbs_mul]
          ring
  rw [roundScaled_eq _ (by omega) hexact]
  have h := denotesOver_round (x.isNegative != y.isNegative) hij hkl
  rwa [nearest_eq] at h
  calc (if x.isNegative != y.isNegative then -((i * j).natAbs : ℤ) else (i * j).natAbs)
      = (if x.isNegative then -(i.natAbs : ℤ) else i.natAbs) *
          (if y.isNegative then -(j.natAbs : ℤ) else j.natAbs) := by
        rw [Int.natAbs_mul, Nat.cast_mul]
        cases x.isNegative <;> cases y.isNegative <;> simp
    _ = i * j := by rw [hx.signed_natAbs, hy.signed_natAbs]

/-- A product of integers is rounded once. -/
theorem Denotes.mul {x y : Binary64} {i j : ℤ} (hx : x.Denotes i) (hy : y.Denotes j)
    (hij : (i * j).natAbs.log2 < 1023) : (x.mul y).Denotes (nearest (i * j)) :=
  denotesOver_zero_iff.1 <|
    (denotesOver_zero_iff.2 hx).mul (denotesOver_zero_iff.2 hy) hij (Nat.zero_le _)

/-! ### Representable integers -/

/-- An integer that can be written with 53 binary digits followed by zeros. -/
def Representable (i : ℤ) : Prop :=
  ∃ m k : ℕ, m < 2 ^ 53 ∧ i.natAbs = m * 2 ^ k

theorem Representable.of_eq_mul {i : ℤ} {m k : ℕ} (hm : m ≤ 2 ^ 53) (hi : i.natAbs = m * 2 ^ k) :
    Representable i := by
  rcases Nat.lt_or_eq_of_le hm with hlt | rfl
  · exact ⟨m, k, hlt, hi⟩
  · exact ⟨2 ^ 52, k + 1, by norm_num, hi.trans (by ring)⟩

theorem Representable.of_le {i : ℤ} (hi : i.natAbs ≤ 2 ^ 53) : Representable i :=
  .of_eq_mul hi (show i.natAbs = i.natAbs * 2 ^ 0 from (Nat.mul_one _).symm)

/-- A natural with 53 digits followed by zeros is a multiple of the last digit that is kept. -/
theorem pow_dvd_of_eq {m k n : ℕ} (hm : m < 2 ^ 53) (hn : n = m * 2 ^ k) :
    2 ^ (n.log2 - 52) ∣ n := by
  by_cases h0 : n = 0
  · rw [h0]
    exact dvd_zero _
  · have hlog : n.log2 < 53 + k := by
      rw [Nat.log2_lt h0, Nat.pow_add, hn]
      exact Nat.mul_lt_mul_of_pos_right hm (Nat.two_pow_pos k)
    calc 2 ^ (n.log2 - 52) ∣ 2 ^ k := pow_dvd_pow 2 (by omega)
      _ ∣ n := hn ▸ Nat.dvd_mul_left _ m

theorem keep_of_dvd {n : ℕ} (h : 2 ^ (n.log2 - 52) ∣ n) : keep n = n := by
  obtain ⟨c, hc⟩ := h
  unfold keep
  generalize 2 ^ (n.log2 - 52) = d at hc
  rcases Nat.eq_zero_or_pos d with rfl | hd
  · simpa using hc.symm
  · rw [hc, Nat.mul_comm d c, roundQuotient_self_mul c hd]

theorem nearest_of_representable {i : ℤ} (hi : Representable i) : nearest i = i := by
  obtain ⟨m, k, hm, hmk⟩ := hi
  unfold nearest
  rw [keep_of_dvd (pow_dvd_of_eq hm hmk)]
  split_ifs <;> omega

/-- No multiple is nearer than the one that a quotient is rounded to. -/
theorem abs_sub_roundQuotient_le (n : ℕ) {d : ℕ} (hd : 0 < d) (c : ℤ) :
    |(n : ℤ) - (roundQuotient n d * d : ℕ)| ≤ |(n : ℤ) - c * d| := by
  have hn : (n : ℤ) = (n / d : ℕ) * d + (n % d : ℕ) := by
    exact_mod_cast (Nat.div_add_mod' n d).symm
  have hr : n % d < d := Nat.mod_lt n hd
  simp only [roundQuotient]
  generalize n / d = q at hn
  generalize n % d = r at hn hr
  -- the multiple lies at or below the quotient rounded down, or at or above the next one
  rcases le_or_gt c q with hc | hc
  · have hcd : c * d ≤ q * d := by gcongr
    split_ifs <;> push_cast <;> grind
  · have hcd : (q + 1) * (d : ℤ) ≤ c * d := by gcongr; omega
    split_ifs <;> push_cast <;> grind

theorem abs_sub_keep_le (n : ℕ) {j : ℤ} (hj : Representable j) :
    |(n : ℤ) - keep n| ≤ |(n : ℤ) - j| := by
  obtain ⟨m, k, hm, hmk⟩ := hj
  by_cases hd : 2 ^ (n.log2 - 52) ∣ j.natAbs
  · obtain ⟨c, hc⟩ : ((2 ^ (n.log2 - 52) : ℕ) : ℤ) ∣ j := Int.natCast_dvd.2 hd
    rw [hc, mul_comm]
    exact abs_sub_roundQuotient_le n (Nat.two_pow_pos _) c
  · -- what has more digits than are kept lies below all that have as many as the natural
    have hk : k < n.log2 - 52 := by
      refine Nat.lt_of_not_le fun hle => hd ?_
      rw [hmk]
      exact (pow_dvd_pow 2 hle).mul_left m
    have hn : 2 ^ 52 * 2 ^ (n.log2 - 52) ≤ n := by
      have hn0 : n ≠ 0 := by
        rintro rfl
        exact absurd hk (by simp)
      rw [← Nat.pow_add, show 52 + (n.log2 - 52) = n.log2 by omega]
      exact Nat.log2_self_le hn0
    have hj : j.natAbs ≤ 2 ^ 52 * 2 ^ (n.log2 - 52) :=
      calc j.natAbs ≤ 2 ^ 53 * 2 ^ k := by
            rw [hmk]
            exact Nat.mul_le_mul_right _ hm.le
        _ = 2 ^ 52 * 2 ^ (k + 1) := by ring
        _ ≤ 2 ^ 52 * 2 ^ (n.log2 - 52) := Nat.mul_le_mul_left _ (pow_le_pow_right₀ (by norm_num) hk)
    have hmult := abs_sub_roundQuotient_le n (Nat.two_pow_pos (n.log2 - 52)) (2 ^ 52 : ℕ)
    rw [← Nat.cast_mul] at hmult
    unfold keep
    generalize 2 ^ 52 * 2 ^ (n.log2 - 52) = c at hn hj hmult
    refine hmult.trans ?_
    rw [abs_of_nonneg (by omega), abs_of_nonneg (by omega)]
    omega

/-- **No representable integer is nearer** than the one that an integer is rounded to. -/
theorem abs_sub_nearest_le (i : ℤ) {j : ℤ} (hj : Representable j) : |i - nearest i| ≤ |i - j| := by
  unfold nearest
  split_ifs with hi
  · have hneg : Representable (-j) := by rwa [Representable, Int.natAbs_neg]
    have h := abs_sub_keep_le i.natAbs hneg
    rw [show ((i.natAbs : ℕ) : ℤ) = -i by omega] at h
    rw [← abs_neg, ← abs_neg (i - j)]
    convert h using 2 <;> ring
  · have h := abs_sub_keep_le i.natAbs hj
    rwa [show ((i.natAbs : ℕ) : ℤ) = i by omega] at h

theorem representable_nearest (i : ℤ) : Representable (nearest i) := by
  have habs : (nearest i).natAbs = keep i.natAbs := by
    unfold nearest
    split_ifs <;> simp
  refine .of_eq_mul ?_ habs
  have hdiv : i.natAbs / 2 ^ (i.natAbs.log2 - 52) < 2 ^ 53 := by
    rw [Nat.div_lt_iff_lt_mul (Nat.two_pow_pos _), ← Nat.pow_add]
    calc i.natAbs < 2 ^ (i.natAbs.log2 + 1) := Nat.lt_log2_self
      _ ≤ 2 ^ (53 + (i.natAbs.log2 - 52)) := Nat.pow_le_pow_right (by norm_num) (by omega)
  exact (roundQuotient_le_succ _ _).2.trans hdiv

instance : DecidablePred Representable := fun i =>
  decidable_of_iff (nearest i = i)
    ⟨fun h => h ▸ representable_nearest i, nearest_of_representable⟩

end Binary64

end CountedLisp
