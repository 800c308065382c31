import Mathlib.Data.Nat.Log
import Parlance.Language.Literal
import Parlance.Proofs.Decimal.Rounding

/-
  Whole numbers that are written as numerals. A word that is a whole number by its looks, and fits,
  is read as it is. Every other numeral is rounded to 53 bits first, and it is the rounded number
  that has to be whole and in range; one past the largest number is let through and becomes the
  largest (`int_literal_is_nearest_number`). So whole numbers in range are always taken, and exactly
  up to `2 ^ 53`. Numerals that round to a whole number are taken as well, and `2 ^ 63` is.
-/

namespace Parlance

namespace Decimal.Binary64

/-! ## Numbers that are whole -/

theorem toInt?_eq_some_iff {x : Binary64} {n : ℤ} : x.toInt? = some n ↔ x.value = n := by
  have hsigned : ∀ k : Nat, ((if x.negative then -(k : ℤ) else k : ℤ) : ℚ) =
      (if x.negative then -1 else 1) * k := fun k => by split <;> simp
  unfold toInt?
  dsimp only
  split
  · next he =>
    obtain ⟨k, hk⟩ := Int.eq_ofNat_of_zero_le he
    rw [Option.some_inj, ← @Int.cast_inj ℚ, hsigned, value, hk]
    simp
  · next he =>
    obtain ⟨k, hk⟩ := Int.eq_ofNat_of_zero_le (show 0 ≤ -x.exponent by omega)
    obtain hk' : x.exponent = -k := by omega
    have hpow : (2 : ℚ) ^ k ≠ 0 := by positivity
    rw [hk, Int.toNat_natCast, Nat.pow_eq, value, hk', zpow_neg, zpow_natCast]
    split
    · next hmod =>
      obtain ⟨c, hc⟩ := Nat.dvd_of_mod_eq_zero hmod
      rw [Option.some_inj, ← @Int.cast_inj ℚ, hsigned, hc,
        Nat.mul_div_cancel_left _ (Nat.two_pow_pos k)]
      push_cast
      field_simp
    · next hmod =>
      refine ⟨fun hnone => absurd hnone (by simp), fun hvalue => absurd ?_ hmod⟩
      -- The mantissa of a whole number is a multiple of the power of two.
      have hq : (x.mantissa : ℚ) = (if x.negative then -1 else 1) * n * 2 ^ k := by
        rw [← hvalue]
        cases x.negative <;> simp
      have hm : ((if x.negative then -1 else 1) * n : ℤ) * (2 ^ k : Nat) = x.mantissa := by
        apply @Int.cast_injective ℚ
        push_cast
        exact hq.symm
      exact Nat.mod_eq_zero_of_dvd (Int.natCast_dvd_natCast.mp (Dvd.intro_left _ hm))

/-- The number `± 2 ^ (52 + e)`. -/
def power (negative : Bool) (e : ℤ) : Binary64 := ⟨negative, 2 ^ 52, e⟩

theorem wellFormed_power (negative : Bool) {e : ℤ} (h : minExponent ≤ e) (h' : e ≤ maxExponent) :
    (power negative e).WellFormed :=
  ⟨show 2 ^ 52 < 2 ^ 53 by decide, h, h',
    fun hlt => absurd (show 2 ^ 52 < 2 ^ 52 from hlt) (by decide)⟩

theorem value_power (negative : Bool) (e : ℤ) :
    (power negative e).value = (if negative then -1 else 1) * 2 ^ (52 + e) := by
  rw [value, power, zpow_add₀ two_ne_zero, mul_assoc]
  push_cast
  norm_num

theorem exists_value_natCast {n : Nat} (h : n ≤ 2 ^ 53) :
    ∃ y : Binary64, y.WellFormed ∧ y.value = n := by
  rcases Nat.eq_zero_or_pos n with rfl | hn
  · exact ⟨⟨false, 0, minExponent⟩, ⟨by decide, le_rfl, by decide, fun _ => rfl⟩, by simp [value]⟩
  rcases Nat.eq_or_lt_of_le h with rfl | hlt
  · refine ⟨power false 1, wellFormed_power false (by decide) (by decide), ?_⟩
    rw [value_power]
    norm_num
  -- The highest bit is shifted to the front.
  have hlog : n.log2 < 53 := (Nat.log2_lt hn.ne').mpr hlt
  obtain ⟨k, hk⟩ := Nat.exists_eq_add_of_le (show n.log2 ≤ 52 by omega)
  have hlow : 2 ^ 52 ≤ n * 2 ^ k := by
    calc 2 ^ 52 = 2 ^ n.log2 * 2 ^ k := by rw [← pow_add, ← hk]
      _ ≤ n * 2 ^ k := Nat.mul_le_mul_right _ (Nat.log2_self_le hn.ne')
  have hhigh : n * 2 ^ k < 2 ^ 53 := by
    calc n * 2 ^ k < 2 ^ (n.log2 + 1) * 2 ^ k :=
          Nat.mul_lt_mul_of_pos_right Nat.lt_log2_self (Nat.two_pow_pos k)
      _ = 2 ^ 53 := by rw [← pow_add]; congr 1; omega
  refine ⟨⟨false, n * 2 ^ k, -k⟩,
    ⟨hhigh, ?_, ?_, fun hsmall => absurd hlow (not_le.mpr hsmall)⟩, ?_⟩
  · show (-1074 : ℤ) ≤ -k
    omega
  · show (-k : ℤ) ≤ 971
    omega
  · have hpow : (2 : ℚ) ^ k ≠ 0 := by positivity
    simp [value, hpow]

/-- Whole numbers of up to 53 bits have a representation. -/
theorem exists_value_eq {m : ℤ} (h : |m| ≤ 2 ^ 53) :
    ∃ y : Binary64, y.WellFormed ∧ y.value = m := by
  obtain ⟨n, rfl | rfl⟩ := Int.eq_nat_or_neg m
  · rw [Nat.abs_cast] at h
    obtain ⟨y, hy, hvalue⟩ := exists_value_natCast (show n ≤ 2 ^ 53 by exact_mod_cast h)
    exact ⟨y, hy, by exact_mod_cast hvalue⟩
  · rw [abs_neg, Nat.abs_cast] at h
    obtain ⟨y, hy, hvalue⟩ := exists_value_natCast (show n ≤ 2 ^ 53 by exact_mod_cast h)
    refine ⟨y.neg, hy.neg, ?_⟩
    rw [value_neg, hvalue]
    push_cast
    rfl

namespace Nearest

variable {q : ℚ} {x : Binary64}

/-- What has a representation is rounded to itself. -/
theorem value_eq {y : Binary64} (h : Nearest y.value x) (hy : y.WellFormed) :
    x.value = y.value := by
  have hclose := h.closest y hy
  rw [sub_self, abs_zero] at hclose
  linarith [abs_eq_zero.mp (le_antisymm hclose (abs_nonneg _))]

theorem self {y : Binary64} (hy : y.WellFormed) : Nearest y.value y := by
  refine ⟨hy, fun z _ => ?_, fun z _ hne htie => absurd ?_ hne⟩
  · rw [sub_self, abs_zero]
    exact abs_nonneg _
  · rw [sub_self, abs_zero, abs_eq_zero] at htie
    linarith

/-- A number on the way from a rational to the nearest one is that one. -/
theorem le_of_le {y : Binary64} (h : Nearest q x) (hy : y.WellFormed) (hq : q ≤ y.value) :
    x.value ≤ y.value := by
  by_contra hlt
  have hclose := h.closest y hy
  rw [abs_of_nonpos (by linarith), abs_of_nonpos (by linarith)] at hclose
  linarith

theorem le_of_ge {y : Binary64} (h : Nearest q x) (hy : y.WellFormed) (hq : y.value ≤ q) :
    y.value ≤ x.value := by
  by_contra hlt
  have hclose := h.closest y hy
  rw [abs_of_nonneg (by linarith), abs_of_nonneg (by linarith)] at hclose
  linarith

/-- Rounding does not pass a power of two, upwards. -/
theorem abs_value_le {e : ℤ} (h : Nearest q x) (he : minExponent ≤ e) (he' : e ≤ maxExponent)
    (hq : |q| ≤ 2 ^ (52 + e)) : |x.value| ≤ 2 ^ (52 + e) := by
  have hplus := value_power false e
  have hminus := value_power true e
  simp only [Bool.false_eq_true, if_false, if_true, one_mul, neg_mul] at hplus hminus
  obtain ⟨hlow, hhigh⟩ := abs_le.mp hq
  refine abs_le.mpr ⟨?_, ?_⟩
  · rw [← hminus] at hlow ⊢
    exact h.le_of_ge (wellFormed_power true he he') hlow
  · rw [← hplus] at hhigh ⊢
    exact h.le_of_le (wellFormed_power false he he') hhigh

/-- Rounding does not pass a power of two, downwards. -/
theorem le_abs_value {e : ℤ} (h : Nearest q x) (he : minExponent ≤ e) (he' : e ≤ maxExponent)
    (hq : 2 ^ (52 + e) ≤ |q|) : 2 ^ (52 + e) ≤ |x.value| := by
  have hplus := value_power false e
  have hminus := value_power true e
  simp only [Bool.false_eq_true, if_false, if_true, one_mul, neg_mul] at hplus hminus
  rcases le_abs.mp hq with hq | hq
  · rw [← hplus] at hq ⊢
    exact (h.le_of_ge (wellFormed_power false he he') hq).trans (le_abs_self _)
  · have hle := h.le_of_le (wellFormed_power true he he') (by linarith)
    have habs := neg_le_abs x.value
    linarith

end Nearest

/-- From `2 ^ 53` on all numbers are whole. -/
theorem WellFormed.whole {x : Binary64} (hx : x.WellFormed) (h : 2 ^ 53 ≤ |x.value|) :
    ∃ m : ℤ, x.value = m := by
  have hm : (x.mantissa : ℚ) < 2 ^ 53 := by exact_mod_cast hx.mantissa_lt
  have hexponent : 0 ≤ x.exponent := by
    by_contra hneg
    have hpow : (2 : ℚ) ^ x.exponent ≤ 1 :=
      zpow_le_one_of_nonpos₀ one_le_two (by omega)
    have hle : (x.mantissa : ℚ) * 2 ^ x.exponent ≤ x.mantissa * 1 := by gcongr
    rw [abs_value] at h
    linarith
  obtain ⟨m, hm⟩ : ∃ m, x.toInt? = some m := ⟨_, if_pos hexponent⟩
  exact ⟨m, toInt?_eq_some_iff.mp hm⟩

/-- Whole numbers of 64 bits are rounded to whole numbers in range, or to the next one; up to 53
bits they are kept. -/
theorem Nearest.whole {m : ℤ} {x : Binary64} (h : Nearest m x) (hm : |m| ≤ 2 ^ 63) :
    ∃ n : ℤ, x.value = n ∧ |n| ≤ 2 ^ 63 ∧ (|m| ≤ 2 ^ 53 → n = m) := by
  by_cases hsmall : |m| ≤ 2 ^ 53
  · obtain ⟨y, hy, hvalue⟩ := exists_value_eq hsmall
    rw [← hvalue] at h
    exact ⟨m, (h.value_eq hy).trans hvalue, hm, fun _ => rfl⟩
  · have hlarge : 2 ^ 53 ≤ |x.value| := h.le_abs_value (e := 1) (by decide) (by decide) (by
      norm_num
      exact_mod_cast (not_le.mp hsmall).le)
    have hrange : |x.value| ≤ 2 ^ 63 := h.abs_value_le (e := 11) (by decide) (by decide) (by
      norm_num
      exact_mod_cast hm)
    obtain ⟨n, hn⟩ := h.wellFormed.whole hlarge
    rw [hn] at hrange
    exact ⟨n, hn, by exact_mod_cast hrange, fun hm => absurd hm hsmall⟩

/-- What is rounded to a number of 64 bits is not large. -/
theorem Nearest.abs_lt {q : ℚ} {x : Binary64} (h : Nearest q x) (hx : |x.value| ≤ 2 ^ 63) :
    |q| < 2 ^ 1000 := by
  by_contra hlarge
  have hpow : (2 : ℚ) ^ (52 + 12 : ℤ) ≤ 2 ^ 1000 := by
    rw [← zpow_natCast]
    exact zpow_le_zpow_right₀ one_le_two (by norm_num)
  have hle := h.le_abs_value (e := 12) (by decide) (by decide) (hpow.trans (not_lt.mp hlarge))
  norm_num at hle
  linarith

end Decimal.Binary64

/-! ## Words that are whole numbers -/

namespace Literal

open Decimal

theorem intOfNumber?_eq_some_iff {x : Binary64} {n : ℤ} :
    intOfNumber? x = some n ↔
      ∃ m : ℤ, x.value = m ∧ minInt ≤ m ∧ m ≤ maxInt + 1 ∧ n = min m maxInt := by
  simp only [intOfNumber?, Option.map_eq_some_iff, Option.filter_eq_some_iff, decide_eq_true_eq,
    Binary64.toInt?_eq_some_iff]
  constructor
  · rintro ⟨m, ⟨hvalue, hmin, hmax⟩, rfl⟩
    exact ⟨m, hvalue, hmin, hmax, rfl⟩
  · rintro ⟨m, hvalue, hmin, hmax, rfl⟩
    exact ⟨m, ⟨hvalue, hmin, hmax⟩, rfl⟩

theorem readPlainInt?_text (s : Spelling) {n : ℤ} :
    readPlainInt? s.text = some n ↔ s.Plain ∧ s.value = n ∧ minInt ≤ n ∧ n ≤ maxInt := by
  by_cases hs : s.Plain
  · obtain ⟨m, hm, hvalue⟩ := hs.readInteger?_text
    rw [readPlainInt?, hm, Option.filter_eq_some_iff, hvalue]
    simp [hs]
  · simp [readPlainInt?, Spelling.readInteger?_eq_none hs, hs]

/-- A spelling that is not taken as it stands does not look like a whole number, or does not
fit. -/
theorem readPlainInt?_text_eq_none (s : Spelling) : readPlainInt? s.text = none ↔
    ¬ (s.Plain ∧ (minInt : ℚ) ≤ s.value ∧ s.value ≤ maxInt) := by
  rw [Option.eq_none_iff_forall_ne_some]
  simp only [ne_eq, readPlainInt?_text]
  constructor
  · rintro h ⟨hs, hmin, hmax⟩
    obtain ⟨m, -, hvalue⟩ := hs.readInteger?_text
    rw [hvalue] at hmin hmax
    exact h m ⟨hs, hvalue, by exact_mod_cast hmin, by exact_mod_cast hmax⟩
  · rintro h n ⟨hs, hvalue, hmin, hmax⟩
    refine h ⟨hs, ?_⟩
    rw [hvalue]
    exact ⟨by exact_mod_cast hmin, by exact_mod_cast hmax⟩

/-- The number nearest to the rational is whole and of 64 bits, and it is the given one; past the
largest one comes the largest again. -/
def RoundsToInt (q : ℚ) (n : ℤ) : Prop :=
  ∃ (x : Binary64) (m : ℤ), x.Nearest q ∧ x.value = m ∧ minInt ≤ m ∧ m ≤ maxInt + 1 ∧
    n = min m maxInt

theorem abs_le_of_range {m : ℤ} (hmin : minInt ≤ m) (hmax : m ≤ maxInt + 1) : |m| ≤ 2 ^ 63 :=
  abs_le.mpr ⟨hmin, hmax⟩

theorem readNumber_text (s : Spelling) {n : ℤ} :
    (readNumber s.text).toOption.bind intOfNumber? = some n ↔ RoundsToInt s.value n := by
  obtain ⟨x, hread, hvalue⟩ := s.read?_text
  have hrounds := Binary64.rounds_ofNumeral? x
  unfold readNumber
  rw [hread, Option.bind_some, hvalue] at *
  generalize Binary64.ofNumeral? x = r at hrounds ⊢
  cases hrounds with
  | @nearest b hb hunique =>
    refine intOfNumber?_eq_some_iff.trans ⟨?_, ?_⟩
    · rintro ⟨m, hm⟩
      exact ⟨b, m, hb, hm⟩
    · rintro ⟨b', m, hb', hm, hrange⟩
      exact ⟨m, (hunique b' hb').symm.trans hm, hrange⟩
  | large hlarge =>
    refine ⟨nofun, ?_⟩
    rintro ⟨b, m, hb, hm, hmin, hmax, -⟩
    have habs : |b.value| ≤ 2 ^ 63 := by
      rw [hm]
      exact_mod_cast abs_le_of_range hmin hmax
    exact absurd hlarge (not_le.mpr (hb.abs_lt habs))

/-- What looks like a whole number and fits is read as it stands, and everything else through the
nearest number. -/
def ReadsAs (s : Spelling) (n : ℤ) : Prop :=
  if s.Plain ∧ (minInt : ℚ) ≤ s.value ∧ s.value ≤ maxInt then s.value = n
  else RoundsToInt s.value n

theorem readInt_text (s : Spelling) {n : ℤ} : readInt s.text = .ok n ↔ ReadsAs s n := by
  unfold readInt ReadsAs
  by_cases hplain : s.Plain ∧ (minInt : ℚ) ≤ s.value ∧ s.value ≤ maxInt
  · obtain ⟨m, hm⟩ : ∃ m, readPlainInt? s.text = some m :=
      Option.ne_none_iff_exists'.mp fun h => (readPlainInt?_text_eq_none s).mp h hplain
    rw [hm, if_pos hplain, ((readPlainInt?_text s).mp hm).2.1]
    simp
  · rw [(readPlainInt?_text_eq_none s).mpr hplain, if_neg hplain, ← readNumber_text]
    dsimp only
    split
    · next m hm => simp [hm]
    · next hnone => simp [hnone]

/-- Nothing is read but spellings. -/
theorem exists_spelling_of_readInt {word : String} {n : ℤ} (h : readInt word = .ok n) :
    ∃ s : Spelling, s.text = word := by
  unfold readInt at h
  split at h
  · next m hm =>
    obtain ⟨hread, -⟩ := Option.filter_eq_some_iff.mp hm
    obtain ⟨s, -, hs⟩ := exists_plain hread
    exact ⟨s, hs⟩
  · cases hread : Numeral.read? word with
    | some x => exact Numeral.exists_spelling hread
    | none =>
      simp only [readNumber, hread, Option.bind_none] at h
      cases h

theorem readInt_cases (word : String) :
    (∃ n, readInt word = .ok n) ∨ readInt word = .error "expected integer" := by
  unfold readInt
  split
  · exact .inl ⟨_, rfl⟩
  · split
    · exact .inl ⟨_, rfl⟩
    · exact .inr rfl

theorem exists_nearest {s : Spelling} (h : |s.value| ≤ 2 ^ 63) :
    ∃ x : Binary64, x.Nearest s.value := by
  obtain ⟨x, -, hvalue⟩ := s.read?_text
  have hrounds := Binary64.rounds_ofNumeral? x
  rw [hvalue] at hrounds
  cases hr : Binary64.ofNumeral? x with
  | some b =>
    rw [hr] at hrounds
    cases hrounds with
    | nearest hb _ => exact ⟨b, hb⟩
  | none =>
    rw [hr] at hrounds
    cases hrounds with
    | large hlarge =>
      have hpow : (2 : ℚ) ^ 63 < 2 ^ 1000 := pow_lt_pow_right₀ one_lt_two (by decide)
      exact absurd hlarge (not_le.mpr (h.trans_lt hpow))

/-- Whole numbers in range are read, whatever their looks, and exactly if they have 53 bits. -/
theorem reads_whole {s : Spelling} {m : ℤ} (hvalue : s.value = m) (hmin : minInt ≤ m)
    (hmax : m ≤ maxInt) : ∃ n, ReadsAs s n ∧ (s.Plain ∨ |m| ≤ 2 ^ 53 → n = m) := by
  have hrange : (minInt : ℚ) ≤ s.value ∧ s.value ≤ maxInt := by
    rw [hvalue]
    exact ⟨by exact_mod_cast hmin, by exact_mod_cast hmax⟩
  unfold ReadsAs
  by_cases hs : s.Plain
  · exact ⟨m, by rw [if_pos ⟨hs, hrange⟩, hvalue], fun _ => rfl⟩
  · have habs : |m| ≤ 2 ^ 63 := abs_le_of_range hmin (by omega)
    obtain ⟨x, hx⟩ : ∃ x : Binary64, x.Nearest s.value := exists_nearest (by
      rw [hvalue]
      exact_mod_cast habs)
    rw [hvalue] at hx
    obtain ⟨n, hn, hnabs, hexact⟩ := hx.whole habs
    obtain ⟨hlow, hhigh⟩ := abs_le.mp hnabs
    refine ⟨min n maxInt, ?_, fun h => ?_⟩
    · rw [if_neg fun h => hs h.1, hvalue]
      exact ⟨x, n, hx, hn, hlow, hhigh, rfl⟩
    · rw [hexact (h.resolve_left hs)]
      exact min_eq_left hmax

/-- What has a representation is read exactly, with one exception. -/
theorem reads_represented {s : Spelling} {y : Binary64} (hy : y.WellFormed)
    (hvalue : y.value = s.value) (hne : s.value ≠ 2 ^ 63) {n : ℤ} :
    ReadsAs s n ↔ s.value = n ∧ minInt ≤ n ∧ n ≤ maxInt := by
  unfold ReadsAs
  split
  · next hplain =>
    refine ⟨fun h => ⟨h, ?_⟩, And.left⟩
    rw [h] at hplain
    exact ⟨by exact_mod_cast hplain.2.1, by exact_mod_cast hplain.2.2⟩
  · constructor
    · rintro ⟨x, m, hx, hm, hmin, hmax, rfl⟩
      rw [← hvalue] at hx hne ⊢
      rw [hx.value_eq hy] at hm
      have hle : m ≤ maxInt := by
        refine Int.lt_add_one_iff.mp (lt_of_le_of_ne hmax fun heq => hne ?_)
        rw [hm, heq]
        norm_num [maxInt]
      rw [min_eq_left hle]
      exact ⟨hm, hmin, hle⟩
    · rintro ⟨hn, hmin, hmax⟩
      exact ⟨y, n, hvalue ▸ .self hy, hvalue.trans hn, hmin, by omega, (min_eq_left hmax).symm⟩

/-- Whole numbers are read through the nearest number of 53 bits, except where they stand in the
word as they are and fit; nothing is read but numerals. So all whole numbers in range are taken, and
exactly if they stand there or have 53 bits. A numeral with a representation in 53 bits is taken
exactly if it is a whole number in range, apart from `2 ^ 63`. -/
theorem int_literal_is_nearest_number (word : String) :
    (∀ n, readInt word = .ok n ↔ ∃ s : Spelling, s.text = word ∧ ReadsAs s n) ∧
    ((∀ n, readInt word ≠ .ok n) → readInt word = .error "expected integer") ∧
    (∀ (s : Spelling) (m : ℤ), s.text = word → s.value = m → minInt ≤ m → m ≤ maxInt →
      ∃ n, readInt word = .ok n ∧ (s.Plain ∨ |m| ≤ 2 ^ 53 → n = m)) ∧
    ∀ (s : Spelling) (y : Binary64), s.text = word → y.WellFormed → y.value = s.value →
      s.value ≠ 2 ^ 63 → ∀ n, readInt word = .ok n ↔ s.value = n ∧ minInt ≤ n ∧ n ≤ maxInt := by
  refine ⟨fun n => ⟨fun h => ?_, ?_⟩, fun h => ?_, ?_, ?_⟩
  · obtain ⟨s, rfl⟩ := exists_spelling_of_readInt h
    exact ⟨s, rfl, (readInt_text s).mp h⟩
  · rintro ⟨s, rfl, h⟩
    exact (readInt_text s).mpr h
  · exact (readInt_cases word).resolve_left fun ⟨n, hn⟩ => h n hn
  · rintro s m rfl hvalue hmin hmax
    obtain ⟨n, hn, hexact⟩ := reads_whole hvalue hmin hmax
    exact ⟨n, (readInt_text s).mpr hn, hexact⟩
  · rintro s y rfl hy hvalue hne n
    exact (readInt_text s).trans (reads_represented hy hvalue hne)

/-- The word `4.0` is a whole number that has 53 bits, and is taken; the word `4.5` is a numeral
with a representation, and is not. -/
theorem int_literal_is_nearest_number_halves :
    (∃ s : Spelling, s.text = "4.0" ∧ s.value = (4 : ℤ) ∧ minInt ≤ 4 ∧ 4 ≤ maxInt ∧
      |(4 : ℤ)| ≤ 2 ^ 53 ∧ readInt "4.0" = .ok 4) ∧
    ∃ (s : Spelling) (y : Binary64), s.text = "4.5" ∧ y.WellFormed ∧ y.value = s.value ∧
      s.value ≠ 2 ^ 63 ∧ readInt "4.5" = .error "expected integer" := by
  constructor
  · let s : Spelling := ⟨.absent, [4], some [0], none, by decide⟩
    have hs : s.value = (4 : ℤ) := by
      norm_num [s, Spelling.value, Spelling.decimals, natural, Nat.ofDigits, Sign.negative]
    obtain ⟨-, -, hwhole, -⟩ := int_literal_is_nearest_number "4.0"
    obtain ⟨n, hn, hexact⟩ := hwhole s 4 (by decide) hs (by decide) (by decide)
    exact ⟨s, by decide, hs, by decide, by decide, by decide, hexact (.inr (by decide)) ▸ hn⟩
  · let s : Spelling := ⟨.absent, [4], some [5], none, by decide⟩
    let y : Binary64 := ⟨false, 9 * 2 ^ 49, -50⟩
    have hs : s.value = 9 / 2 := by
      norm_num [s, Spelling.value, Spelling.decimals, natural, Nat.ofDigits, Sign.negative]
    have hy : y.value = s.value := by
      rw [hs]
      norm_num [y, Binary64.value]
    have hwf : y.WellFormed := ⟨by decide, by decide, by decide, fun h => absurd h (by decide)⟩
    have hne : s.value ≠ 2 ^ 63 := by
      rw [hs]
      norm_num
    obtain ⟨-, hrefused, -, hexact⟩ := int_literal_is_nearest_number "4.5"
    refine ⟨s, y, by decide, hwf, hy, hne, hrefused fun n hn => ?_⟩
    have hn := ((hexact s y (by decide) hwf hy hne n).mp hn).1
    rw [hs] at hn
    have htwice : (9 : ℤ) = 2 * n := by
      have hq : (9 : ℚ) = 2 * n := by linarith
      exact_mod_cast hq
    omega

/-- The number past the largest one is taken for the largest; a numeral that is not whole is taken
if it rounds to a whole number, and a whole number of 54 bits for another one. -/
theorem int_literal_not_exact :
    (∃ s : Spelling, s.text = "9223372036854775808" ∧ s.value = 2 ^ 63 ∧ maxInt = 2 ^ 63 - 1 ∧
      readInt "9223372036854775808" = .ok (2 ^ 63 - 1)) ∧
    (∃ s : Spelling, s.text = "0.99999999999999999999" ∧ 0 < s.value ∧ s.value < 1 ∧
      readInt "0.99999999999999999999" = .ok 1) ∧
    ∃ s : Spelling, s.text = "9007199254740993.0" ∧ s.value = 9007199254740993 ∧
      readInt "9007199254740993.0" = .ok 9007199254740992 := by
  refine ⟨⟨⟨.absent, [9, 2, 2, 3, 3, 7, 2, 0, 3, 6, 8, 5, 4, 7, 7, 5, 8, 0, 8], none, none,
    by decide⟩, by decide, ?_, rfl, by decide +kernel⟩,
    ⟨⟨.absent, [0], some (List.replicate 20 9), none, by decide⟩, by decide, ?_, ?_,
      by decide +kernel⟩,
    ⟨⟨.absent, [9, 0, 0, 7, 1, 9, 9, 2, 5, 4, 7, 4, 0, 9, 9, 3], some [0], none, by decide⟩,
      by decide, ?_, by decide +kernel⟩⟩ <;>
    norm_num [Spelling.value, Spelling.decimals, natural, Nat.ofDigits, Sign.negative,
      List.replicate]

end Literal

end Parlance
