import Mathlib.Algebra.Order.Field.Power
import Mathlib.Data.Rat.Cast.Order
import Mathlib.Tactic.FieldSimp
import Mathlib.Tactic.Linarith
import Mathlib.Tactic.NormNum
import Mathlib.Tactic.Positivity
import Mathlib.Tactic.Ring
import Parlance.Decimal.Binary64
import Parlance.Proofs.Decimal.Spelling

/-
  Rounding to 53 bits is rounding to the nearest. `Binary64.Nearest` says what that is without an
  algorithm: no number of 53 bits is closer to the rational, and where another one is as close, the
  mantissa is even. `Binary64.rounds_ofNumeral?` says that this is what rounding a numeral gives,
  and that it gives nothing only for numerals that are large.

  At the exponent of its binade, rounding a rational is rounding its quotient by the unit to a whole
  number (`HalfEven`). The numbers of the binade and of those above are multiples of the unit. Those
  below are farther away than the first number of the binade (`Binary64.InBinade.lt_of_small`).
-/

namespace Parlance.Decimal

/-! ## Whole numbers nearest to a rational -/

/-- The whole number is nearest to the rational, and even if it lies half way to the next. -/
structure HalfEven (t : ℚ) (m : ℤ) : Prop where
  near : |t - m| ≤ 1 / 2
  even : |t - m| = 1 / 2 → Even m

/-- Two whole numbers are at least one apart. -/
theorem one_le_dist_add_dist (t : ℚ) {m k : ℤ} (hne : k ≠ m) : 1 ≤ |t - m| + |t - k| := by
  have hk : (1 : ℚ) ≤ |(k : ℚ) - m| := by
    exact_mod_cast Int.one_le_abs (sub_ne_zero.mpr hne)
  have htri : |(k : ℚ) - m| ≤ |t - m| + |t - k| := by
    rw [abs_sub_comm t k, add_comm]
    exact abs_sub_le _ _ _
  exact hk.trans htri

namespace HalfEven

variable {t : ℚ} {m k : ℤ}

theorem le (h : HalfEven t m) (k : ℤ) : |t - m| ≤ |t - k| := by
  by_cases hne : k = m
  · rw [hne]
  · have hone := one_le_dist_add_dist t hne
    linarith [h.near]

/-- Of two whole numbers at the same distance one is even and the other is odd. -/
theorem tie (h : HalfEven t m) (hne : k ≠ m) (heq : |t - k| = |t - m|) : Even m ∧ Odd k := by
  have hone := one_le_dist_add_dist t hne
  have hhalf : |t - m| = 1 / 2 := le_antisymm h.near (by linarith)
  have hdist : |(k : ℚ) - m| ≤ 1 := by
    calc |(k : ℚ) - m| ≤ |(k : ℚ) - t| + |t - m| := abs_sub_le _ _ _
      _ = 1 := by
        rw [abs_sub_comm, heq, hhalf]
        norm_num
  have hint : |k - m| ≤ 1 := by exact_mod_cast hdist
  have hm := h.even hhalf
  refine ⟨hm, ?_⟩
  have hcases : k = m + 1 ∨ k = m - 1 := by
    have habs := abs_le.mp hint
    omega
  rcases hcases with rfl | rfl
  · exact hm.add_one
  · exact hm.sub_odd odd_one

end HalfEven

/-- For a quotient it is enough to compare the remainder with half of the denominator. -/
theorem HalfEven.of_remainder {num m : ℤ} {den : Nat} (hd : 0 < den)
    (hnear : |2 * (num - m * den)| ≤ den) (heven : |2 * (num - m * den)| = den → Even m) :
    HalfEven (num / den) m := by
  have hden : (0 : ℚ) < den := by exact_mod_cast hd
  have hdist : |(num : ℚ) / den - m| = (|2 * (num - m * den)| : ℤ) / (2 * den) := by
    rw [Int.cast_abs, ← abs_of_pos (show (0 : ℚ) < 2 * den by linarith), ← abs_div]
    congr 1
    push_cast
    field_simp
  constructor
  · have hle : ((|2 * (num - m * den)| : ℤ) : ℚ) ≤ den := by exact_mod_cast hnear
    rw [hdist, div_le_iff₀ (by linarith)]
    linarith
  · intro htie
    rw [hdist, div_eq_iff (by linarith)] at htie
    have heq : ((|2 * (num - m * den)| : ℤ) : ℚ) = (den : ℤ) := by
      rw [htie]
      push_cast
      ring
    exact heven (by exact_mod_cast heq)

/-- A quotient is rounded to the nearest whole number, a half to the even one. -/
theorem halfEven_roundDiv (num : Nat) {den : Nat} (hd : 0 < den) :
    HalfEven ((num : ℚ) / den) (roundDiv num den) := by
  have hdiv : (num : ℤ) = den * (num / den : Nat) + (num % den : Nat) := by
    exact_mod_cast (Nat.div_add_mod num den).symm
  have hlt := Nat.mod_lt num hd
  unfold roundDiv
  dsimp only
  generalize num / den = quotient at hdiv ⊢
  generalize num % den = r at hdiv hlt ⊢
  rw [show (num : ℚ) = (num : ℤ) by norm_cast]
  split
  · next hup =>
    have hrem : (num : ℤ) - (quotient + 1 : Nat) * den = r - den := by
      rw [hdiv]
      push_cast
      ring
    refine .of_remainder hd ?_ fun htie => ?_
    · rw [hrem, abs_le]
      omega
    · rw [hrem, abs_of_nonpos (by omega)] at htie
      exact_mod_cast Nat.even_iff.mpr (show (quotient + 1) % 2 = 0 by omega)
  · next hup =>
    have hrem : (num : ℤ) - quotient * den = r := by
      rw [hdiv]
      ring
    refine .of_remainder hd ?_ fun htie => ?_
    · rw [hrem, abs_le]
      omega
    · rw [hrem, abs_of_nonneg (by omega)] at htie
      exact_mod_cast Nat.even_iff.mpr (show quotient % 2 = 0 by omega)

/-! ## Binary numbers and their values -/

namespace Binary64

/-- The rational that a number stands for. -/
def value (x : Binary64) : ℚ := (if x.negative then -1 else 1) * x.mantissa * 2 ^ x.exponent

/-- The number has at most 53 bits, all of them unless its exponent is the least one. -/
structure WellFormed (x : Binary64) : Prop where
  mantissa_lt : x.mantissa < 2 ^ 53
  le_exponent : minExponent ≤ x.exponent
  exponent_le : x.exponent ≤ maxExponent
  exponent_eq : x.mantissa < 2 ^ 52 → x.exponent = minExponent

/-- The number with the other sign. -/
def neg (x : Binary64) : Binary64 := { x with negative := !x.negative }

theorem value_neg (x : Binary64) : x.neg.value = -x.value := by
  unfold neg value
  cases x.negative <;> simp

theorem abs_value (x : Binary64) : |x.value| = x.mantissa * 2 ^ x.exponent := by
  rw [value, abs_mul, abs_mul, abs_of_pos (show (0 : ℚ) < 2 ^ x.exponent by positivity),
    Nat.abs_cast]
  cases x.negative <;> simp

theorem neg_involutive (x : Binary64) : x.neg.neg = x := by simp [neg]

theorem WellFormed.neg {x : Binary64} (h : x.WellFormed) : x.neg.WellFormed :=
  ⟨h.mantissa_lt, h.le_exponent, h.exponent_le, h.exponent_eq⟩

/-- The number is closest to the rational. Where another is as close, its mantissa is even. -/
structure Nearest (q : ℚ) (x : Binary64) : Prop where
  wellFormed : x.WellFormed
  closest : ∀ y : Binary64, y.WellFormed → |q - x.value| ≤ |q - y.value|
  even_of_tie : ∀ y : Binary64, y.WellFormed → y.value ≠ x.value →
    |q - y.value| = |q - x.value| → Even x.mantissa

theorem Nearest.neg {q : ℚ} {x : Binary64} (h : Nearest q x) : Nearest (-q) x.neg := by
  have hdist : ∀ y : Binary64, |-q - y.value| = |q - y.neg.value| := fun y => by
    rw [value_neg, ← abs_neg]
    ring_nf
  have hself : |-q - x.neg.value| = |q - x.value| := by rw [hdist, neg_involutive]
  refine ⟨h.wellFormed.neg, fun y hy => ?_, fun y hy hne heq => ?_⟩
  · rw [hself, hdist]
    exact h.closest y.neg hy.neg
  · rw [hself, hdist] at heq
    refine h.even_of_tie y.neg hy.neg (fun hval => hne ?_) heq
    rw [value_neg] at hval ⊢
    linarith

/-! ## Rounding in one binade -/

/-- At the exponent the rational has 53 bits in front of the point, or less at the least one. -/
structure InBinade (q : ℚ) (e : ℤ) : Prop where
  le : minExponent ≤ e
  lt : q < 2 ^ 53 * 2 ^ e
  ge : e = minExponent ∨ 2 ^ 52 * 2 ^ e ≤ q

/-- A number is a multiple of the unit, odd only if its mantissa is, or it is small and has a
smaller exponent. -/
theorem WellFormed.multiple_or_small {y : Binary64} (hy : y.WellFormed) (e : ℤ) :
    (∃ k : ℤ, y.value = k * 2 ^ e ∧ (Odd k → Odd y.mantissa)) ∨
      (y.exponent < e ∧ |y.value| < 2 ^ 52 * 2 ^ e) := by
  by_cases he : e ≤ y.exponent
  · obtain ⟨n, hn⟩ := Int.le.dest he
    refine .inl ⟨(if y.negative then -1 else 1) * y.mantissa * 2 ^ n, ?_, fun hodd => ?_⟩
    · rw [value, ← hn, zpow_add₀ two_ne_zero, zpow_natCast]
      push_cast
      ring
    · have hm := (Int.odd_mul.mp (Int.odd_mul.mp hodd).1).2
      exact_mod_cast hm
  · have hlt : y.exponent + 1 ≤ e := by omega
    have hm : (y.mantissa : ℚ) < 2 ^ 53 := by exact_mod_cast hy.mantissa_lt
    have hpow : (0 : ℚ) < 2 ^ y.exponent := by positivity
    refine .inr ⟨by omega, ?_⟩
    calc |y.value| = y.mantissa * 2 ^ y.exponent := y.abs_value
      _ < 2 ^ 53 * 2 ^ y.exponent := (mul_lt_mul_iff_of_pos_right hpow).mpr hm
      _ = 2 ^ 52 * 2 ^ (y.exponent + 1) := by
          rw [zpow_add_one₀ two_ne_zero]
          ring
      _ ≤ 2 ^ 52 * 2 ^ e := by gcongr; norm_num

section Binade

variable {q : ℚ} {e m : ℤ} {y : Binary64}

theorem dist_multiple (q : ℚ) (e k : ℤ) : |q - k * 2 ^ e| = |q / 2 ^ e - k| * 2 ^ e := by
  have hpow : (0 : ℚ) < 2 ^ e := by positivity
  rw [← abs_of_pos hpow, ← abs_mul, abs_of_pos hpow, sub_mul, div_mul_cancel₀ _ hpow.ne']

/-- Numbers of a smaller exponent are farther away than the nearest multiple of the unit. -/
theorem InBinade.lt_of_small (hb : InBinade q e) (hm : HalfEven (q / 2 ^ e) m)
    (hy : y.WellFormed) (he : y.exponent < e) (hsmall : |y.value| < 2 ^ 52 * 2 ^ e) :
    |q - m * 2 ^ e| < |q - y.value| := by
  have hq : 2 ^ 52 * 2 ^ e ≤ q := hb.ge.resolve_left fun heq => by
    have hle := hy.le_exponent
    omega
  have hyq := (abs_lt.mp hsmall).2
  have hgrid : |q - m * 2 ^ e| ≤ |q - ((2 ^ 52 : ℤ) : ℚ) * 2 ^ e| := by
    rw [dist_multiple, dist_multiple]
    exact mul_le_mul_of_nonneg_right (hm.le _) (by positivity)
  calc |q - m * 2 ^ e| ≤ |q - ((2 ^ 52 : ℤ) : ℚ) * 2 ^ e| := hgrid
    _ = q - 2 ^ 52 * 2 ^ e := by
        push_cast
        exact abs_of_nonneg (by linarith)
    _ < q - y.value := by linarith
    _ ≤ |q - y.value| := le_abs_self _

theorem InBinade.closest (hb : InBinade q e) (hm : HalfEven (q / 2 ^ e) m)
    (hy : y.WellFormed) : |q - m * 2 ^ e| ≤ |q - y.value| := by
  rcases hy.multiple_or_small e with ⟨k, hk, -⟩ | ⟨he, hsmall⟩
  · rw [hk, dist_multiple, dist_multiple]
    exact mul_le_mul_of_nonneg_right (hm.le k) (by positivity)
  · exact (hb.lt_of_small hm hy he hsmall).le

theorem InBinade.tie (hb : InBinade q e) (hm : HalfEven (q / 2 ^ e) m) (hy : y.WellFormed)
    (hne : y.value ≠ m * 2 ^ e) (heq : |q - y.value| = |q - m * 2 ^ e|) :
    Even m ∧ Odd y.mantissa := by
  rcases hy.multiple_or_small e with ⟨k, hk, hodd⟩ | ⟨he, hsmall⟩
  · have hpow : (0 : ℚ) < 2 ^ e := by positivity
    have hkm : k ≠ m := fun hkm => hne (hkm ▸ hk)
    rw [hk, dist_multiple, dist_multiple, mul_left_inj' hpow.ne'] at heq
    obtain ⟨heven, hk⟩ := hm.tie hkm heq
    exact ⟨heven, hodd hk⟩
  · exact absurd heq (hb.lt_of_small hm hy he hsmall).ne'

end Binade

/-- What rounding gives for a rational: a nearest number, and all nearest numbers have its value; or
nothing, if the rational is large. No more is said of how large it is. -/
inductive Rounds (q : ℚ) : Option Binary64 → Prop where
  | nearest {x : Binary64} : Nearest q x → (∀ y, Nearest q y → y.value = x.value) →
      Rounds q (some x)
  | large : 2 ^ 1000 ≤ |q| → Rounds q none

theorem InBinade.rounds {q : ℚ} {e m : ℤ} {x : Binary64} (hb : InBinade q e)
    (hm : HalfEven (q / 2 ^ e) m) (hx : x.WellFormed) (hvalue : x.value = m * 2 ^ e)
    (heven : Even m → Even x.mantissa) : Rounds q (some x) := by
  have hnear : Nearest q x := by
    refine ⟨hx, fun y hy => ?_, fun y hy hne heq => ?_⟩
    · rw [hvalue]
      exact hb.closest hm hy
    · rw [hvalue] at hne heq
      exact heven (hb.tie hm hy hne heq).1
  refine .nearest hnear fun y hy => ?_
  -- Two nearest numbers that differ would be a tie, with both mantissas even.
  by_contra hne
  have heq := le_antisymm (hy.closest x hx) (hnear.closest y hy.wellFormed)
  have heven := hy.even_of_tie x hx (Ne.symm hne) heq.symm
  rw [hvalue] at hne heq
  exact Nat.not_even_iff_odd.mpr (hb.tie hm hy.wellFormed hne heq).2 heven

theorem Rounds.neg {q : ℚ} {r : Option Binary64} (h : Rounds q r) :
    Rounds (-q) (r.map Binary64.neg) := by
  cases h with
  | nearest hx hall =>
    refine .nearest hx.neg fun y hy => ?_
    have hneg := hy.neg
    rw [neg_neg] at hneg
    have hvalue := hall _ hneg
    rw [value_neg] at hvalue ⊢
    linarith
  | large hlarge => exact .large (by rwa [abs_neg])

/-! ## Fractions -/

theorem scaleBy_div (e : ℤ) (num : Nat) {den : Nat} (hd : 0 < den) :
    0 < (scaleBy e num den).2 ∧
      ((scaleBy e num den).1 : ℚ) / (scaleBy e num den).2 = num / den / 2 ^ e := by
  have hden : (den : ℚ) ≠ 0 := by exact_mod_cast hd.ne'
  unfold scaleBy
  split
  · next he =>
    obtain ⟨n, rfl⟩ := Int.eq_ofNat_of_zero_le he
    refine ⟨Nat.mul_pos hd (Nat.two_pow_pos _), ?_⟩
    simp only [Int.toNat_natCast, Nat.pow_eq, zpow_natCast]
    push_cast
    field_simp
  · next he =>
    obtain ⟨n, hn⟩ := Int.eq_ofNat_of_zero_le (show 0 ≤ -e by omega)
    obtain rfl : e = -n := by omega
    refine ⟨hd, ?_⟩
    simp only [neg_neg, Int.toNat_natCast, Nat.pow_eq, zpow_neg, zpow_natCast]
    push_cast
    field_simp

/-- The number of bits of both terms tells a fraction up to a factor of two. -/
theorem log2_bounds {num den : Nat} (hn : 0 < num) (hd : 0 < den) :
    (2 : ℚ) ^ ((num.log2 : ℤ) - den.log2 - 1) ≤ num / den ∧
      (num : ℚ) / den < 2 ^ ((num.log2 : ℤ) - den.log2 + 1) := by
  have hden : (0 : ℚ) < den := by exact_mod_cast hd
  have hnum_le : (2 : ℚ) ^ (num.log2 : ℤ) ≤ num := by
    rw [zpow_natCast]
    exact_mod_cast Nat.log2_self_le hn.ne'
  have hnum_lt : (num : ℚ) < 2 ^ ((num.log2 : ℤ) + 1) := by
    exact_mod_cast Nat.lt_log2_self (n := num)
  have hden_le : (2 : ℚ) ^ (den.log2 : ℤ) ≤ den := by
    rw [zpow_natCast]
    exact_mod_cast Nat.log2_self_le hd.ne'
  have hden_lt : (den : ℚ) < 2 ^ ((den.log2 : ℤ) + 1) := by
    exact_mod_cast Nat.lt_log2_self (n := den)
  constructor
  · rw [le_div_iff₀ hden]
    calc (2 : ℚ) ^ ((num.log2 : ℤ) - den.log2 - 1) * den
        ≤ 2 ^ ((num.log2 : ℤ) - den.log2 - 1) * 2 ^ ((den.log2 : ℤ) + 1) := by gcongr
      _ = 2 ^ (num.log2 : ℤ) := by
          rw [← zpow_add₀ two_ne_zero]
          congr 1
          ring
      _ ≤ num := hnum_le
  · rw [div_lt_iff₀ hden]
    calc (num : ℚ) < 2 ^ ((num.log2 : ℤ) + 1) := hnum_lt
      _ = 2 ^ ((num.log2 : ℤ) - den.log2 + 1) * 2 ^ (den.log2 : ℤ) := by
          rw [← zpow_add₀ two_ne_zero]
          congr 1
          ring
      _ ≤ 2 ^ ((num.log2 : ℤ) - den.log2 + 1) * den := by gcongr

/-- A fraction of `b` bits in front of the point has 53 or 54 of them at the exponent `b - 53`, and
less if that is below the least one. -/
theorem bounds_at_max {q : ℚ} {b : ℤ} (hlow : 2 ^ (b - 1) ≤ q) (hhigh : q < 2 ^ (b + 1)) :
    q < 2 ^ 54 * 2 ^ max (b - 53) minExponent ∧
      (max (b - 53) minExponent = minExponent ∨
        2 ^ 52 * 2 ^ max (b - 53) minExponent ≤ q) := by
  constructor
  · refine hhigh.trans_le ?_
    rw [← zpow_natCast, ← zpow_add₀ two_ne_zero]
    have hmax : b - 53 ≤ max (b - 53) minExponent := le_max_left _ _
    exact zpow_le_zpow_right₀ one_le_two (by push_cast; omega)
  · rcases max_choice (b - 53) minExponent with hmax | hmax
    · refine .inr (le_trans (le_of_eq ?_) hlow)
      rw [hmax, ← zpow_natCast, ← zpow_add₀ two_ne_zero]
      congr 1
      push_cast
      ring
    · exact .inl hmax

theorem pow_le_scaleBy_iff (e : ℤ) (num : Nat) {den : Nat} (hd : 0 < den) :
    (scaleBy e num den).1 / (scaleBy e num den).2 ≥ Nat.pow 2 53 ↔
      2 ^ 53 * 2 ^ e ≤ (num : ℚ) / den := by
  obtain ⟨hpos, hscale⟩ := scaleBy_div e num hd
  have hpos' : (0 : ℚ) < (scaleBy e num den).2 := by exact_mod_cast hpos
  rw [← le_div_iff₀ (show (0 : ℚ) < 2 ^ e by positivity), ← hscale, le_div_iff₀ hpos', ge_iff_le,
    Nat.le_div_iff_mul_le hpos]
  exact_mod_cast Iff.rfl

theorem inBinade_exponentFor {num den : Nat} (hn : 0 < num) (hd : 0 < den) :
    InBinade (num / den) (exponentFor num den) := by
  obtain ⟨hlow, hhigh⟩ := log2_bounds hn hd
  obtain ⟨hlt, hge⟩ := bounds_at_max hlow hhigh
  have hle := le_max_right ((num.log2 : ℤ) - den.log2 - 53) minExponent
  unfold exponentFor
  dsimp only
  generalize max ((num.log2 : ℤ) - den.log2 - 53) minExponent = e at hlt hge hle ⊢
  split
  · next hbig =>
    rw [pow_le_scaleBy_iff e num hd] at hbig
    have hstep : (2 : ℚ) ^ (e + 1) = 2 * 2 ^ e := by
      rw [zpow_add_one₀ two_ne_zero]
      ring
    refine ⟨by omega, ?_, .inr ?_⟩
    · rw [hstep]
      linarith
    · rw [hstep]
      linarith
  · next hsmall =>
    rw [pow_le_scaleBy_iff e num hd, not_le] at hsmall
    exact ⟨hle, hsmall, hge⟩

/-- The rounded mantissa has 53 bits, or is the first that has more. -/
theorem InBinade.mantissa_bounds {q : ℚ} {e : ℤ} {m : Nat} (hb : InBinade q e)
    (hm : HalfEven (q / 2 ^ e) m) : m ≤ 2 ^ 53 ∧ (e = minExponent ∨ 2 ^ 52 ≤ m) := by
  have hpow : (0 : ℚ) < 2 ^ e := by positivity
  obtain ⟨hlow, hhigh⟩ := abs_le.mp hm.near
  push_cast at hlow hhigh
  constructor
  · have hlt : q / 2 ^ e < 2 ^ 53 := (div_lt_iff₀ hpow).mpr hb.lt
    have hm' : (m : ℚ) < 2 ^ 53 + 1 := by linarith
    have : m < 2 ^ 53 + 1 := by exact_mod_cast hm'
    omega
  · refine hb.ge.imp_right fun hge => ?_
    have hle : 2 ^ 52 ≤ q / 2 ^ e := (le_div_iff₀ hpow).mpr hge
    have hm' : (2 : ℚ) ^ 52 < m + 1 := by linarith
    have : 2 ^ 52 < m + 1 := by exact_mod_cast hm'
    omega

/-- Past the largest exponent a rational is large. -/
theorem large_of_exponent {q : ℚ} {e : ℤ} (he : maxExponent ≤ e) (hq : 2 ^ 52 * 2 ^ e ≤ q) :
    (2 : ℚ) ^ 1000 ≤ |q| := by
  refine le_trans ?_ (hq.trans (le_abs_self q))
  rw [← zpow_natCast, ← zpow_natCast, ← zpow_add₀ two_ne_zero]
  unfold maxExponent at he
  exact zpow_le_zpow_right₀ one_le_two (by push_cast; omega)

theorem InBinade.rounds_mantissa {q : ℚ} {e : ℤ} {m : Nat} (hb : InBinade q e)
    (hm : HalfEven (q / 2 ^ e) m) (hlt : m < 2 ^ 53) :
    Rounds q (if e > maxExponent then none else some ⟨false, m, e⟩) := by
  split
  · next hbig =>
    refine .large (large_of_exponent (by omega) (hb.ge.resolve_left fun heq => ?_))
    rw [heq] at hbig
    exact absurd hbig (by decide)
  · next hfits =>
    refine hb.rounds hm ⟨hlt, hb.le, not_lt.mp hfits, fun hsmall => ?_⟩ ?_ fun heven => ?_
    · exact (hb.mantissa_bounds hm).2.resolve_right (not_le.mpr hsmall)
    · simp [value]
    · exact_mod_cast heven

/-- A mantissa that rounds up to 54 bits is half of it at the next exponent. -/
theorem InBinade.rounds_carry {q : ℚ} {e : ℤ} (hb : InBinade q e)
    (hm : HalfEven (q / 2 ^ e) (Nat.pow 2 53 : Nat)) :
    Rounds q (if e + 1 > maxExponent then none else some ⟨false, Nat.pow 2 52, e + 1⟩) := by
  split
  · next hbig =>
    have hnear := (abs_le.mp hm.near).1
    have hge : 2 ^ 52 ≤ q / 2 ^ e := by
      push_cast at hnear
      linarith
    refine .large (large_of_exponent (by omega) ((le_div_iff₀ ?_).mp hge))
    positivity
  · next hfits =>
    refine hb.rounds hm ⟨show Nat.pow 2 52 < 2 ^ 53 by decide, ?_, not_lt.mp hfits,
      fun hlt => absurd (show Nat.pow 2 52 < 2 ^ 52 from hlt) (by decide)⟩ ?_ ?_
    · exact hb.le.trans (Int.le_add_one le_rfl)
    · rw [value, zpow_add_one₀ two_ne_zero]
      push_cast
      ring
    · exact fun _ => show Even (Nat.pow 2 52) by decide

theorem rounds_ofFraction? {num den : Nat} (hn : 0 < num) (hd : 0 < den) :
    Rounds (num / den) (ofFraction? false num den) := by
  have hb := inBinade_exponentFor hn hd
  unfold ofFraction?
  dsimp only
  generalize exponentFor num den = e at hb ⊢
  obtain ⟨hpos, hscale⟩ := scaleBy_div e num hd
  have hm := halfEven_roundDiv (scaleBy e num den).1 hpos
  rw [hscale] at hm
  generalize roundDiv (scaleBy e num den).1 (scaleBy e num den).2 = m at hm ⊢
  by_cases hcarry : m = Nat.pow 2 53
  · rw [if_pos hcarry]
    exact hb.rounds_carry (hcarry ▸ hm)
  · rw [if_neg hcarry]
    exact hb.rounds_mantissa hm (lt_of_le_of_ne (hb.mantissa_bounds hm).1 hcarry)

/-! ## Numerals -/

theorem rounds_zero {q : ℚ} (h0 : 0 ≤ q) (h : q ≤ 2 ^ (-1075 : ℤ)) :
    Rounds q (some ⟨false, 0, minExponent⟩) := by
  have hpow : (0 : ℚ) < 2 ^ minExponent := by positivity
  have hhalf : q / 2 ^ minExponent ≤ 1 / 2 := by
    rw [div_le_iff₀ hpow]
    refine h.trans (le_of_eq ?_)
    rw [show minExponent = -1075 + 1 from rfl, zpow_add_one₀ two_ne_zero]
    ring
  have hb : InBinade q minExponent := by
    refine ⟨le_rfl, ?_, .inl rfl⟩
    rw [← div_lt_iff₀ hpow]
    exact hhalf.trans_lt (by norm_num)
  refine hb.rounds (m := 0) ⟨?_, fun _ => Even.zero⟩ ⟨by decide, le_rfl, by decide, fun _ => rfl⟩
    (by simp [value]) fun _ => Even.zero
  rw [Int.cast_zero, sub_zero, abs_of_nonneg (by positivity)]
  exact hhalf

end Binary64

/-- The number of digits tells a numeral up to a factor of ten. -/
theorem toDigits_bounds {n : Nat} (hn : 0 < n) (e : ℤ) :
    (10 : ℚ) ^ (((Nat.toDigits 10 n).length : ℤ) + e - 1) ≤ n * 10 ^ e ∧
      (n : ℚ) * 10 ^ e < 10 ^ (((Nat.toDigits 10 n).length : ℤ) + e) := by
  have hlt : ∀ k, 0 < k → ((Nat.toDigits 10 n).length ≤ k ↔ n < 10 ^ k) := fun k hk =>
    Nat.length_toDigits_le_iff (by decide) hk
  have hpow : (0 : ℚ) < 10 ^ e := by positivity
  have hpos : 0 < (Nat.toDigits 10 n).length := Nat.length_toDigits_pos
  generalize (Nat.toDigits 10 n).length = digits at hlt hpos ⊢
  obtain ⟨k, rfl⟩ := Nat.exists_eq_succ_of_ne_zero hpos.ne'
  have hlow : 10 ^ k ≤ n := by
    rcases Nat.eq_zero_or_pos k with rfl | hk
    · exact hn
    · exact not_lt.mp fun h => absurd ((hlt k hk).mpr h) (by omega)
  have hhigh : n < 10 ^ (k + 1) := (hlt (k + 1) hpos).mp le_rfl
  constructor
  · rw [show ((k.succ : ℤ) + e - 1) = k + e by push_cast; ring, zpow_add₀ (by norm_num),
      zpow_natCast]
    exact mul_le_mul_of_nonneg_right (by exact_mod_cast hlow) hpow.le
  · rw [zpow_add₀ (by norm_num), zpow_natCast]
    exact mul_lt_mul_of_pos_right (by exact_mod_cast hhigh) hpow

namespace Binary64

theorem two_pow_le_ten_pow : (2 : ℚ) ^ 1000 ≤ 10 ^ 310 := by
  calc (2 : ℚ) ^ 1000 = (2 ^ 100) ^ 10 := by rw [← pow_mul]
    _ ≤ (10 ^ 31) ^ 10 := by gcongr; norm_num
    _ = 10 ^ 310 := by rw [← pow_mul]

theorem ten_pow_le_two_pow : (10 : ℚ) ^ (-330 : ℤ) ≤ 2 ^ (-1075 : ℤ) := by
  rw [zpow_neg, zpow_neg]
  refine inv_anti₀ (by positivity) ?_
  calc (2 : ℚ) ^ (1075 : ℤ) = (2 ^ 215) ^ 5 := by rw [← pow_mul]; rfl
    _ ≤ (10 ^ 66) ^ 5 := by gcongr; norm_num
    _ = 10 ^ (330 : ℤ) := by rw [← pow_mul]; rfl

theorem rounds_of_nonneg (coefficient : Nat) (exponent : ℤ) :
    Rounds (coefficient * 10 ^ exponent) (ofNumeral? ⟨false, coefficient, exponent⟩) := by
  unfold ofNumeral?
  dsimp only
  split
  · next hzero =>
    rw [hzero, Nat.cast_zero, zero_mul]
    exact rounds_zero le_rfl (by positivity)
  · next hne =>
    have hc : 0 < coefficient := Nat.pos_of_ne_zero hne
    obtain ⟨hlow, hhigh⟩ := toDigits_bounds hc exponent
    have hq : (0 : ℚ) ≤ coefficient * 10 ^ exponent := by positivity
    generalize ((Nat.toDigits 10 coefficient).length : ℤ) + exponent = size at hlow hhigh ⊢
    split
    · next hlarge =>
      refine .large (le_trans ?_ (hlow.trans (le_abs_self _)))
      refine two_pow_le_ten_pow.trans ?_
      rw [← zpow_natCast]
      exact zpow_le_zpow_right₀ (by norm_num) (by push_cast; omega)
    split
    · next hsmall =>
      refine rounds_zero hq (hhigh.le.trans (le_trans ?_ ten_pow_le_two_pow))
      exact zpow_le_zpow_right₀ (by norm_num) (by omega)
    split
    · next he =>
      obtain ⟨n, rfl⟩ := Int.eq_ofNat_of_zero_le he
      have h := rounds_ofFraction? (Nat.mul_pos hc (Nat.pow_pos (n := n) (show 0 < 10 by decide)))
        Nat.one_pos
      push_cast at h
      rwa [div_one, ← zpow_natCast] at h
    · next he =>
      obtain ⟨n, hn⟩ := Int.eq_ofNat_of_zero_le (show 0 ≤ -exponent by omega)
      obtain rfl : exponent = -n := by omega
      have h := rounds_ofFraction? hc (Nat.pow_pos (n := n) (show 0 < 10 by decide))
      push_cast at h
      rw [div_eq_mul_inv, ← zpow_natCast, ← zpow_neg] at h
      simpa using h

/-- The sign is carried over. -/
theorem ofNumeral?_neg (coefficient : Nat) (exponent : ℤ) :
    ofNumeral? ⟨true, coefficient, exponent⟩ =
      (ofNumeral? ⟨false, coefficient, exponent⟩).map Binary64.neg := by
  have hfraction : ∀ num den, ofFraction? true num den =
      (ofFraction? false num den).map Binary64.neg := fun num den => by
    unfold ofFraction?
    dsimp only
    rw [apply_ite (Option.map Binary64.neg)]
    rfl
  unfold ofNumeral?
  simp only [hfraction, apply_ite (Option.map Binary64.neg)]
  rfl

/-- Reading a numeral gives the number nearest to it, unless it is large. -/
theorem rounds_ofNumeral? (x : Numeral) : Rounds x.value (ofNumeral? x) := by
  obtain ⟨negative, coefficient, exponent⟩ := x
  cases negative with
  | false => simpa [Numeral.value] using rounds_of_nonneg coefficient exponent
  | true =>
    rw [ofNumeral?_neg]
    simpa [Numeral.value] using (rounds_of_nonneg coefficient exponent).neg

end Binary64

end Parlance.Decimal
