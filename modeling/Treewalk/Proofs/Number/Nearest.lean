import Mathlib
import Treewalk.Proofs.Number.Rounding

/-!
# Correct rounding

The value of a finite number is a rational (`Number.value`), and a decimal is rounded to the number
whose value is nearest to it (`Number.IsNearest`). The argument is on one grid: the multiples of the
spacing at the decimal. Rounding finds the nearest of these. A number from the same binade or a
higher one is such a multiple itself, and one from a lower binade lies below a multiple that is
nearer (`exists_nearer_multiple`), so no number is nearer than the nearest multiple.

What is rounded up past the largest number is infinite. This begins halfway between the largest
number and the next power of two (`le_rank_iff`), since that power would be even.

The main statements are `isNearest_ofDecimal` and `ofDecimal_eq_infinity_iff`.
-/

namespace Treewalk

/-! ## The nearest whole number -/

section

variable {num den n k : Nat}

theorem RoundsTo.two_mul_abs_le (h : RoundsTo num den n) :
    2 * |(n : ℚ) * den - num| ≤ den := by
  have hlow : 2 * ((n : ℚ) * den) ≤ 2 * num + den := by exact_mod_cast h.low
  have hhigh : 2 * (num : ℚ) ≤ 2 * (n * den) + den := by exact_mod_cast h.high
  have habs : |(n : ℚ) * den - num| ≤ den / 2 := abs_le.mpr ⟨by linarith, by linarith⟩
  linarith

theorem RoundsTo.le_two_mul_abs (h : RoundsTo num den n) (hne : k ≠ n) :
    (den : ℚ) ≤ 2 * |(k : ℚ) * den - num| := by
  have hlow : 2 * ((n : ℚ) * den) ≤ 2 * num + den := by exact_mod_cast h.low
  have hhigh : 2 * (num : ℚ) ≤ 2 * (n * den) + den := by exact_mod_cast h.high
  rcases Nat.lt_or_gt_of_ne hne with hlt | hgt
  · have hstep : (k : ℚ) * den + den ≤ n * den := by
      exact_mod_cast Nat.succ_mul k den ▸ Nat.mul_le_mul_right den hlt
    linarith [neg_abs_le ((k : ℚ) * den - num)]
  · have hstep : (n : ℚ) * den + den ≤ k * den := by
      exact_mod_cast Nat.succ_mul n den ▸ Nat.mul_le_mul_right den hgt
    linarith [le_abs_self ((k : ℚ) * den - num)]

theorem RoundsTo.abs_le (h : RoundsTo num den n) (k : Nat) :
    |(n : ℚ) * den - num| ≤ |(k : ℚ) * den - num| := by
  by_cases hne : k = n
  · rw [hne]
  · linarith [h.two_mul_abs_le, h.le_two_mul_abs hne]

/-- Where another whole number is as near, both are half a step away. -/
theorem RoundsTo.even_of_abs_eq (h : RoundsTo num den n) (hne : k ≠ n)
    (heq : |(k : ℚ) * den - num| = |(n : ℚ) * den - num|) : n % 2 = 0 := by
  have hhalf : 2 * |(n : ℚ) * den - num| = den :=
    le_antisymm h.two_mul_abs_le (heq ▸ h.le_two_mul_abs hne)
  rcases abs_cases ((n : ℚ) * den - num) with ⟨habs, -⟩ | ⟨habs, -⟩
  · refine h.even_of_low ?_
    have hsum : 2 * ((n : ℚ) * den) = 2 * num + den := by linarith
    exact_mod_cast hsum
  · refine h.even_of_high ?_
    have hsum : 2 * (num : ℚ) = 2 * (n * den) + den := by linarith
    exact_mod_cast hsum

/-- Half a step below an even number is rounded up to it. -/
theorem RoundsTo.le_iff_of_even (h : RoundsTo num den n) (hden : 0 < den) (heven : k % 2 = 0)
    (hpos : 0 < k) : k ≤ n ↔ (2 * k - 1) * den ≤ 2 * num := by
  have hk : (2 * k - 1) * den + den = 2 * (k * den) := by
    rw [← Nat.succ_mul, Nat.succ_eq_add_one, Nat.sub_add_cancel (by omega), Nat.mul_assoc]
  constructor
  · intro hle
    have hmul : k * den ≤ n * den := Nat.mul_le_mul_right den hle
    have hlow := h.low
    omega
  · intro hle
    by_contra hlt
    -- Then `k` is the next number, and the quotient is halfway.
    have hmul : (n + 1) * den ≤ k * den := Nat.mul_le_mul_right den (by omega)
    have hsucc : (n + 1) * den = n * den + den := Nat.succ_mul n den
    have hhigh := h.high
    have hnext : (n + 1) * den = k * den := by omega
    have heq : n + 1 = k := Nat.eq_of_mul_eq_mul_right hden hnext
    have hn := h.even_of_high (by omega)
    omega

end

namespace Number

/-! ## The value of a number -/

/-- The fraction of a finite number as a whole number, with the bit that is hidden above the lowest
binade. -/
def significand (x : Number) : Nat :=
  if x.magnitude / 2 ^ 52 = 0 then x.magnitude % 2 ^ 52 else 2 ^ 52 + x.magnitude % 2 ^ 52

/-- The value of a finite number. -/
def value (x : Number) : ℚ :=
  (if x.isNegative then -1 else 1) * (x.significand * 2 ^ x.binade / 2 ^ 1074)

/-- No finite number is nearer to `q` than `x`, and where one with another value is as near, the
significand of `x` is even. -/
structure IsNearest (x : Number) (q : ℚ) : Prop where
  isFinite : x.isFinite = true
  le : ∀ y : Number, y.isFinite = true → |x.value - q| ≤ |y.value - q|
  even : ∀ y : Number, y.isFinite = true → y.value ≠ x.value → |y.value - q| = |x.value - q| →
    x.significand % 2 = 0

def infinity : Number := ⟨0x7ff0000000000000⟩

/-- The largest finite number. -/
def largest : Number := ⟨0x7fefffffffffffff⟩

theorem cast_unitsInOne : (unitsInOne : ℚ) = 2 ^ 1074 := by
  have hcast : ∀ n, ((Nat.pow 2 n : Nat) : ℚ) = 2 ^ n := fun n => by
    rw [Nat.pow_eq, Nat.cast_pow, Nat.cast_ofNat]
  unfold unitsInOne
  exact hcast 1074

theorem cast_unitsInOne_pos : (0 : ℚ) < unitsInOne := by
  exact_mod_cast unitsInOne_pos

theorem units_eq (x : Number) : x.units = x.significand * 2 ^ x.binade := by
  simp only [units, significand, binade, Nat.pow_eq]
  split
  next hzero => rw [hzero, Nat.zero_sub, Nat.pow_zero, Nat.mul_one]
  next => rfl

theorem significand_mod_two (x : Number) : x.significand % 2 = x.magnitude % 2 := by
  unfold significand
  split <;> omega

theorem value_eq (x : Number) :
    x.value = (if x.isNegative then -1 else 1) * (x.units / unitsInOne) := by
  rw [value, units_eq, cast_unitsInOne]
  push_cast
  rfl

theorem value_of_positive {x : Number} (h : x.isNegative = false) :
    x.value = x.units / unitsInOne := by
  rw [value_eq, h, if_neg Bool.false_ne_true, one_mul]

/-! ## The grid at a quotient -/

section

variable {num den : Nat} {x : Number}

/-- A magnitude is split into a binade and a count of steps in one way only, but for the last step,
which is the first of the next binade. -/
theorem units_of_magnitude {s r : Nat} (h : x.magnitude = s * 2 ^ 52 + r) (hr : r ≤ 2 ^ 53)
    (hs : 0 < s → 2 ^ 52 ≤ r) : x.units = r * 2 ^ s := by
  obtain ⟨t, hunits, hmagnitude, hlt, hle⟩ := x.exists_units_eq
  rcases Nat.eq_or_lt_of_le hr with rfl | hr
  · have hbinade : x.binade = s + 1 := by omega
    have ht : t = 2 ^ 52 := by omega
    rw [hunits, hbinade, ht, Nat.pow_succ]
    ring
  · have hbinade : x.binade = s := by omega
    have ht : t = r := by omega
    rw [hunits, hbinade, ht]

theorem units_of_magnitude_eq_rank (hden : 0 < den) (h : x.magnitude = rank num den) :
    x.units = roundHalfEven num (den * 2 ^ spacing (num / den)) * 2 ^ spacing (num / den) :=
  units_of_magnitude h (roundHalfEven_le_two_pow num hden) (two_pow_le_roundHalfEven num hden)

/-- A number is a multiple of the spacing at a quotient, or some multiple is nearer. -/
theorem exists_nearer_multiple (num : Nat) (hden : 0 < den) (y : Number) :
    ∃ k : Nat, y.units = k * 2 ^ spacing (num / den) ∨
      |(k : ℚ) * (den * 2 ^ spacing (num / den) : Nat) - num| < |(y.units : ℚ) * den - num| := by
  obtain ⟨t, hunits, -, ht, -⟩ := y.exists_units_eq
  rcases Nat.lt_or_ge y.binade (spacing (num / den)) with hlt | hle
  · -- The lower binade ends at a multiple that is below the quotient.
    refine ⟨2 ^ 52, .inr ?_⟩
    have hpos : 0 < spacing (num / den) := Nat.zero_lt_of_lt hlt
    have htop : 2 ^ 52 * (den * 2 ^ spacing (num / den)) ≤ num := by
      have hfloor := (Nat.le_div_iff_mul_le hden).mp (two_pow_spacing_le hpos)
      rw [Nat.pow_add] at hfloor
      linarith
    have hbelow : y.units < 2 ^ 52 * 2 ^ spacing (num / den) := by
      calc y.units = t * 2 ^ y.binade := hunits
        _ < 2 ^ 53 * 2 ^ y.binade := Nat.mul_lt_mul_of_pos_right ht (Nat.two_pow_pos _)
        _ = 2 ^ 52 * 2 ^ (y.binade + 1) := by rw [Nat.pow_succ]; ring
        _ ≤ 2 ^ 52 * 2 ^ spacing (num / den) :=
          Nat.mul_le_mul_left _ (Nat.pow_le_pow_right (by decide) hlt)
    have hstep : y.units * den < 2 ^ 52 * (den * 2 ^ spacing (num / den)) := by
      calc y.units * den < 2 ^ 52 * 2 ^ spacing (num / den) * den :=
            Nat.mul_lt_mul_of_pos_right hbelow hden
        _ = 2 ^ 52 * (den * 2 ^ spacing (num / den)) := by ring
    generalize den * 2 ^ spacing (num / den) = step at htop hstep
    have htop' : ((2 ^ 52 : Nat) : ℚ) * step ≤ num := by exact_mod_cast htop
    have hstep' : (y.units : ℚ) * den < ((2 ^ 52 : Nat) : ℚ) * step := by exact_mod_cast hstep
    rw [abs_sub_comm, abs_sub_comm _ (num : ℚ), abs_of_nonneg (by linarith),
      abs_of_nonneg (by linarith)]
    linarith
  · refine ⟨t * 2 ^ (y.binade - spacing (num / den)), .inl ?_⟩
    rw [hunits, Nat.mul_assoc, ← Nat.pow_add, Nat.sub_add_cancel hle]

theorem cast_multiple_mul (m den s : Nat) :
    ((m * 2 ^ s : Nat) : ℚ) * den = (m : ℚ) * (den * 2 ^ s : Nat) := by
  push_cast
  ring

/-- No number is nearer to a quotient than the one whose magnitude is its rank. -/
theorem abs_units_le (hden : 0 < den) (h : x.magnitude = rank num den) (y : Number) :
    |(x.units : ℚ) * den - num| ≤ |(y.units : ℚ) * den - num| := by
  have hstep : 0 < den * 2 ^ spacing (num / den) := Nat.mul_pos hden (Nat.two_pow_pos _)
  have hround := roundsTo_roundHalfEven num hstep
  have hx := units_of_magnitude_eq_rank hden h
  obtain ⟨k, hk⟩ := exists_nearer_multiple num hden y
  have hmultiple := hround.abs_le k
  rw [hx, cast_multiple_mul]
  rcases hk with hy | hlt
  · rw [hy, cast_multiple_mul]
    exact hmultiple
  · exact hmultiple.trans hlt.le

theorem even_of_abs_units_eq (hden : 0 < den) (h : x.magnitude = rank num den) {y : Number}
    (hne : y.units ≠ x.units)
    (heq : |(y.units : ℚ) * den - num| = |(x.units : ℚ) * den - num|) :
    x.significand % 2 = 0 := by
  have hstep : 0 < den * 2 ^ spacing (num / den) := Nat.mul_pos hden (Nat.two_pow_pos _)
  have hround := roundsTo_roundHalfEven num hstep
  have hx := units_of_magnitude_eq_rank hden h
  obtain ⟨k, hk⟩ := exists_nearer_multiple num hden y
  rw [hx, cast_multiple_mul] at heq
  have hy : y.units = k * 2 ^ spacing (num / den) := by
    refine hk.resolve_right fun hlt => ?_
    rw [heq] at hlt
    exact absurd (hround.abs_le k) (not_le_of_gt hlt)
  rw [hy, cast_multiple_mul] at heq
  have hkne : k ≠ roundHalfEven num (den * 2 ^ spacing (num / den)) := by
    rintro rfl
    exact hne (hy.trans hx.symm)
  have heven := hround.even_of_abs_eq hkne heq
  rw [significand_mod_two, h, rank]
  omega

end

/-! ## Where the largest number ends -/

/-- The end of a binade is reached from half a step below. -/
theorem le_rank_iff (k num : Nat) {den : Nat} (hden : 0 < den) :
    k * 2 ^ 52 + 2 ^ 53 ≤ rank num den ↔ (2 * 2 ^ 53 - 1) * (den * 2 ^ k) ≤ 2 * num := by
  have hstep : ∀ s, 0 < den * 2 ^ s := fun s => Nat.mul_pos hden (Nat.two_pow_pos s)
  rw [rank]
  rcases Nat.lt_trichotomy (spacing (num / den)) k with hlt | rfl | hgt
  · -- The quotient is in a lower binade, and is not rounded so far.
    have hsteps := roundHalfEven_le_two_pow num hden
    have hbelow : num < 2 ^ 52 * (den * 2 ^ k) := by
      calc num < 2 ^ (spacing (num / den) + 53) * den :=
            (Nat.div_lt_iff_lt_mul hden).mp (lt_two_pow_spacing _)
        _ ≤ 2 ^ (k + 52) * den :=
          Nat.mul_le_mul_right _ (Nat.pow_le_pow_right (by decide) (by omega))
        _ = 2 ^ 52 * (den * 2 ^ k) := by rw [Nat.pow_add]; ring
    exact iff_of_false (by omega) (by omega)
  · rw [Nat.add_le_add_iff_left]
    exact (roundsTo_roundHalfEven num (hstep _)).le_iff_of_even (hstep _) (by decide) (by decide)
  · have hsteps := two_pow_le_roundHalfEven num hden (Nat.zero_lt_of_lt hgt)
    have habove : 2 ^ 53 * (den * 2 ^ k) ≤ num := by
      calc 2 ^ 53 * (den * 2 ^ k) = 2 ^ (k + 53) * den := by rw [Nat.pow_add]; ring
        _ ≤ 2 ^ (spacing (num / den) + 52) * den :=
          Nat.mul_le_mul_right _ (Nat.pow_le_pow_right (by decide) (by omega))
        _ ≤ num :=
          (Nat.le_div_iff_mul_le hden).mp (two_pow_spacing_le (Nat.zero_lt_of_lt hgt))
    exact iff_of_true (by omega) (by omega)

theorem units_largest : largest.units = (2 ^ 53 - 1) * 2 ^ 2045 := by
  have hbinade : largest.binade = 2045 := by decide
  have hsignificand : largest.significand = 2 ^ 53 - 1 := by decide
  rw [units_eq, hbinade, hsignificand]

theorem units_le_units {x y : Number} (h : x.magnitude ≤ y.magnitude) : x.units ≤ y.units := by
  rw [← rank_units x Nat.one_pos, ← rank_units y Nat.one_pos] at h
  by_contra hlt
  have hle : y.units * 1 * 1 ≤ x.units * 1 * 1 := by omega
  have hsame : x.magnitude = y.magnitude := by
    rw [← rank_units x Nat.one_pos, ← rank_units y Nat.one_pos]
    exact Nat.le_antisymm h (rank_le_rank Nat.one_pos Nat.one_pos hle)
  simp only [units, hsame] at hlt
  exact hlt (Nat.le_refl _)

theorem isFinite_largest : largest.isFinite = true := by decide

theorem value_le_largest {x : Number} (h : x.isFinite = true) : x.value ≤ largest.value := by
  have hmagnitude : x.magnitude ≤ largest.magnitude :=
    Nat.le_of_lt_succ (lt_of_lt_of_eq (of_decide_eq_true h) (by decide))
  have hunits : (x.units : ℚ) / unitsInOne ≤ largest.units / unitsInOne :=
    div_le_div_of_nonneg_right (by exact_mod_cast units_le_units hmagnitude)
      cast_unitsInOne_pos.le
  have hpos : 0 ≤ (x.units : ℚ) / unitsInOne := div_nonneg (Nat.cast_nonneg _) (Nat.cast_nonneg _)
  rw [value_eq, value_of_positive (by decide)]
  split <;> linarith

/-- Twice the middle between the largest number and the next power of two, in units. -/
theorem largest_add_two_pow :
    (largest.value + 2 ^ 1024) * unitsInOne = (2 * 2 ^ 53 - 1 : Nat) * 2 ^ 2045 := by
  have hpow : (2 : ℚ) ^ 1024 * 2 ^ 1074 = 2 ^ 53 * 2 ^ 2045 := by
    rw [← pow_add, ← pow_add]
  rw [value_of_positive (by decide), add_mul, div_mul_cancel₀ _ cast_unitsInOne_pos.ne',
    units_largest, cast_unitsInOne, hpow, Nat.cast_mul, Nat.cast_pow, Nat.cast_ofNat, ← add_mul]
  norm_num

/-- A decimal is rounded past the largest number from halfway to the next power of two. -/
theorem infiniteMagnitude_le_rank_iff (d : Decimal) :
    infiniteMagnitude ≤ rank (d.coefficient * unitsInOne) (10 ^ d.places) ↔
      (largest.value + 2 ^ 1024) / 2 ≤ d.value := by
  have hden : 0 < 10 ^ d.places := by positivity
  have hinfinite : infiniteMagnitude = 2045 * 2 ^ 52 + 2 ^ 53 := by decide
  have hlow : (((2 * 2 ^ 53 - 1) * (10 ^ d.places * 2 ^ 2045) : Nat) : ℚ) =
      (largest.value + 2 ^ 1024) * 10 ^ d.places * unitsInOne := by
    rw [mul_right_comm, largest_add_two_pow, Nat.cast_mul, Nat.cast_mul, Nat.cast_pow, Nat.cast_pow,
      Nat.cast_ofNat, Nat.cast_ofNat]
    generalize (2 : ℚ) ^ 2045 = top
    ring
  have hhigh : ((2 * (d.coefficient * unitsInOne) : Nat) : ℚ) =
      d.coefficient * 2 * unitsInOne := by
    push_cast
    ring
  rw [hinfinite, le_rank_iff 2045 _ hden, Decimal.value,
    div_le_div_iff₀ (by positivity) (by positivity), ← Nat.cast_le (α := ℚ), hlow, hhigh]
  exact mul_le_mul_iff_left₀ cast_unitsInOne_pos

/-! ## Decimals -/

theorem magnitude_eq_infiniteMagnitude_iff (d : Decimal) :
    (ofDecimal d).magnitude = infiniteMagnitude ↔ (largest.value + 2 ^ 1024) / 2 ≤ d.value := by
  rw [magnitude_ofDecimal, min_eq_right_iff, infiniteMagnitude_le_rank_iff]

theorem ofDecimal_eq_infinity_iff (d : Decimal) :
    ofDecimal d = infinity ↔ (largest.value + 2 ^ 1024) / 2 ≤ d.value := by
  have hinfinity : ofMagnitude infiniteMagnitude = infinity := by decide
  rw [← magnitude_eq_infiniteMagnitude_iff]
  constructor
  · intro heq
    rw [heq]
    decide
  · intro hmagnitude
    rw [← ofMagnitude_magnitude_ofDecimal, hmagnitude, hinfinity]

/-- A decimal is never read as a number with a sign. -/
theorem isNegative_ofDecimal (d : Decimal) : (ofDecimal d).isNegative = false := by
  have hlt := (ofDecimal d).magnitude_lt
  have hsame := isNegative_ofMagnitude hlt
  rwa [ofMagnitude_magnitude_ofDecimal] at hsame

theorem abs_units_sub (u : ℚ) (d : Decimal) :
    |u * (10 ^ d.places : Nat) - (d.coefficient * unitsInOne : Nat)| =
      |u / unitsInOne - d.value| * (10 ^ d.places * unitsInOne) := by
  have hscale : (0 : ℚ) < 10 ^ d.places * unitsInOne :=
    mul_pos (by positivity) cast_unitsInOne_pos
  have hne := cast_unitsInOne_pos.ne'
  conv_rhs => rw [← abs_of_pos hscale, ← abs_mul]
  rw [Decimal.value]
  congr 1
  push_cast
  field_simp

/-- The sign only leads away from a decimal. -/
theorem abs_units_le_abs_value (y : Number) (d : Decimal) :
    |(y.units : ℚ) / unitsInOne - d.value| ≤ |y.value - d.value| := by
  have hvalue : 0 ≤ d.value := by
    rw [Decimal.value]
    positivity
  have hunits : 0 ≤ (y.units : ℚ) / unitsInOne := by positivity
  rw [value_eq]
  split
  · rw [neg_one_mul, ← neg_add', abs_neg, abs_of_nonneg (add_nonneg hunits hvalue)]
    exact abs_le.mpr ⟨by linarith, by linarith⟩
  · rw [one_mul]

theorem units_zero : (⟨0⟩ : Number).units = 0 := by decide

/-- Of a number and its negation, both are as near only where they are zero. -/
theorem value_eq_of_units_eq {x y : Number} {d : Decimal} (hunits : y.units = x.units)
    (hx : x.isNegative = false)
    (hzero : |x.value - d.value| ≤ |((⟨0⟩ : Number).units : ℚ) / unitsInOne - d.value|)
    (heq : |y.value - d.value| = |x.value - d.value|) : y.value = x.value := by
  have hd : 0 ≤ d.value := by
    rw [Decimal.value]
    positivity
  have hpos : 0 ≤ (x.units : ℚ) / unitsInOne := by positivity
  have hvalue := value_of_positive hx
  rw [value_eq, hunits]
  split
  next hy =>
    rw [units_zero, Nat.cast_zero, zero_div, zero_sub, abs_neg, abs_of_nonneg hd] at hzero
    rw [value_eq, hunits, if_pos hy, neg_one_mul, ← neg_add', abs_neg,
      abs_of_nonneg (add_nonneg hpos hd)] at heq
    rw [hvalue, neg_one_mul]
    linarith
  next => rw [hvalue, one_mul]

/-- A decimal that is not rounded to infinity is rounded to the nearest number. -/
theorem isNearest_ofDecimal {d : Decimal} (h : d.value < (largest.value + 2 ^ 1024) / 2) :
    (ofDecimal d).IsNearest d.value := by
  have hden : 0 < 10 ^ d.places := by positivity
  have hscale : (0 : ℚ) < 10 ^ d.places * unitsInOne :=
    mul_pos (by positivity) cast_unitsInOne_pos
  have hrank : rank (d.coefficient * unitsInOne) (10 ^ d.places) < infiniteMagnitude := by
    rw [← not_le, infiniteMagnitude_le_rank_iff, not_le]
    exact h
  have hmagnitude : (ofDecimal d).magnitude =
      rank (d.coefficient * unitsInOne) (10 ^ d.places) := by
    rw [magnitude_ofDecimal, Nat.min_eq_left hrank.le]
  have hvalue := value_of_positive (isNegative_ofDecimal d)
  -- Without a sign, no number is nearer.
  have hle : ∀ y : Number,
      |(ofDecimal d).value - d.value| ≤ |(y.units : ℚ) / unitsInOne - d.value| := by
    intro y
    have hunits := abs_units_le hden hmagnitude y
    rw [abs_units_sub, abs_units_sub, ← hvalue] at hunits
    exact le_of_mul_le_mul_right hunits hscale
  refine ⟨?_, fun y _ => (hle y).trans (abs_units_le_abs_value y d), ?_⟩
  · rw [isFinite, hmagnitude]
    exact decide_eq_true hrank
  · intro y _ hne heq
    have hsame : |(y.units : ℚ) / unitsInOne - d.value| = |(ofDecimal d).value - d.value| :=
      le_antisymm ((abs_units_le_abs_value y d).trans heq.le) (hle y)
    refine even_of_abs_units_eq hden hmagnitude (y := y) (fun hunits => hne ?_) ?_
    · exact value_eq_of_units_eq hunits (isNegative_ofDecimal d) (hle ⟨0⟩) heq
    · rw [abs_units_sub, abs_units_sub, ← hvalue, hsame]

end Number

end Treewalk
