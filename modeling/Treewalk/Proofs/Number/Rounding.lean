import Mathlib
import Treewalk.Number.Shortest

/-!
# Rounding

`roundHalfEven` is what its name says (`roundsTo_roundHalfEven`), and so it is monotone
(`RoundsTo.le`) and leaves whole numbers as they are.

`rank num den` is the magnitude of the double nearest to `num / den` units, before it is cut off at
the infinite one. Here quotients from different binades are rounded on different grids. Each grid
reaches up to where the next one begins, so `rank` is monotone too (`rank_le_rank`), and it gives
back the magnitude of a number from its units (`rank_units`).
-/

namespace Treewalk

/-! ## Rounding to whole numbers -/

/-- No whole number is nearer to `num / den` than `n`, and where another is as near, `n` is even. -/
structure RoundsTo (num den n : Nat) : Prop where
  low : 2 * (n * den) ≤ 2 * num + den
  high : 2 * num ≤ 2 * (n * den) + den
  even_of_low : 2 * (n * den) = 2 * num + den → n % 2 = 0
  even_of_high : 2 * num = 2 * (n * den) + den → n % 2 = 0

theorem roundsTo_roundHalfEven (num : Nat) {den : Nat} (hden : 0 < den) :
    RoundsTo num den (roundHalfEven num den) := by
  have hnum : num / den * den + num % den = num := Nat.div_add_mod' num den
  have hrest := Nat.mod_lt num hden
  have habove : (num / den + 1) * den = num / den * den + den := Nat.succ_mul _ _
  simp only [roundHalfEven]
  split
  · exact ⟨by omega, by omega, by omega, by omega⟩
  split
  · exact ⟨by omega, by omega, by omega, by omega⟩
  · rcases Nat.mod_two_eq_zero_or_one (num / den) with heven | hodd
    · rw [heven, Nat.add_zero]
      exact ⟨by omega, by omega, by omega, by omega⟩
    · rw [hodd]
      exact ⟨by omega, by omega, by omega, by omega⟩

/-- Rounding is monotone: `a / b ≤ c / d` rounds to `m ≤ n`. -/
theorem RoundsTo.le {a b c d m n : Nat} (hm : RoundsTo a b m) (hn : RoundsTo c d n) (hb : 0 < b)
    (hd : 0 < d) (hle : a * d ≤ c * b) : m ≤ n := by
  by_contra hlt
  -- Then both lie halfway between `n` and `m = n + 1`, of which only one is even.
  have hlow : 2 * (m * (b * d)) ≤ 2 * (a * d) + b * d := by nlinarith [hm.low]
  have hhigh : 2 * (c * b) ≤ 2 * (n * (b * d)) + b * d := by nlinarith [hn.high]
  have hpos : 0 < b * d := Nat.mul_pos hb hd
  have hnext : (n + 1) * (b * d) ≤ m * (b * d) := Nat.mul_le_mul_right _ (by omega)
  rw [Nat.succ_mul] at hnext
  have hm' : m * (b * d) = (n + 1) * (b * d) := by rw [Nat.succ_mul]; omega
  have hsucc : m = n + 1 := Nat.eq_of_mul_eq_mul_right hpos hm'
  have hmid : 2 * (m * (b * d)) = 2 * (a * d) + b * d := by omega
  have hmid' : 2 * (c * b) = 2 * (n * (b * d)) + b * d := by omega
  have hevenM := hm.even_of_low (Nat.eq_of_mul_eq_mul_right hd (by linarith))
  have hevenN := hn.even_of_high (Nat.eq_of_mul_eq_mul_right hb (by linarith))
  omega

theorem roundHalfEven_le {a b c d : Nat} (hb : 0 < b) (hd : 0 < d) (hle : a * d ≤ c * b) :
    roundHalfEven a b ≤ roundHalfEven c d :=
  (roundsTo_roundHalfEven a hb).le (roundsTo_roundHalfEven c hd) hb hd hle

@[simp] theorem roundHalfEven_mul (n : Nat) {den : Nat} (hden : 0 < den) :
    roundHalfEven (n * den) den = n := by
  simp [roundHalfEven, Nat.mul_div_cancel n hden, hden]

/-! ## The value of a decimal -/

namespace Decimal

def value (d : Decimal) : ℚ :=
  d.coefficient / 10 ^ d.places

theorem value_le_value {d e : Decimal} :
    d.value ≤ e.value ↔ d.coefficient * 10 ^ e.places ≤ e.coefficient * 10 ^ d.places := by
  rw [value, value, div_le_div_iff₀ (by positivity) (by positivity)]
  exact_mod_cast Iff.rfl

end Decimal

namespace Number

/-! ## Binades -/

/-- With spacing `2 ^ s` or less, fewer than `2 ^ 53` steps lead up to a value. -/
theorem spacing_le_iff {units s : Nat} : spacing units ≤ s ↔ units < 2 ^ (s + 53) := by
  rcases Nat.eq_zero_or_pos units with rfl | hpos
  · simp [spacing]
  · rw [← Nat.log2_lt hpos.ne', spacing]
    omega

theorem spacing_le_spacing {u v : Nat} (h : u ≤ v) : spacing u ≤ spacing v :=
  spacing_le_iff.mpr (Nat.lt_of_le_of_lt h (spacing_le_iff.mp (Nat.le_refl _)))

theorem lt_two_pow_spacing (units : Nat) : units < 2 ^ (spacing units + 53) :=
  spacing_le_iff.mp (Nat.le_refl _)

theorem two_pow_spacing_le {units : Nat} (h : 0 < spacing units) :
    2 ^ (spacing units + 52) ≤ units := by
  by_contra hlt
  have hle : spacing units ≤ spacing units - 1 := by
    rw [spacing_le_iff, show spacing units - 1 + 53 = spacing units + 52 by omega]
    exact Nat.lt_of_not_le hlt
  omega

/-! ## The magnitude that a quotient is rounded to -/

/-- The number of units that make one. -/
@[irreducible] def unitsInOne : Nat := Nat.pow 2 1074

theorem unitsInOne_pos : 0 < unitsInOne := by
  have hpos : ∀ n, 0 < Nat.pow 2 n := Nat.two_pow_pos
  unfold unitsInOne
  exact hpos 1074

theorem unitsInOne_eq {k : Nat} (h : k ≤ 1074) : unitsInOne = 2 ^ k * 2 ^ (1074 - k) := by
  unfold unitsInOne
  generalize 1074 = n at h ⊢
  rw [← Nat.pow_add, Nat.add_sub_cancel' h]
  rfl

theorem unitsInOne_dvd {k : Nat} (h : 1074 ≤ k) : unitsInOne ∣ 2 ^ k := by
  unfold unitsInOne
  generalize 1074 = n at h ⊢
  exact Nat.pow_dvd_pow 2 h

/-- The magnitude nearest to `num / den` units, where the infinite one is not the greatest. -/
def rank (num den : Nat) : Nat :=
  spacing (num / den) * 2 ^ 52 + roundHalfEven num (den * 2 ^ spacing (num / den))

theorem nearest_eq (num den : Nat) :
    nearest num den = ofMagnitude (min (rank (num * unitsInOne) den) infiniteMagnitude) := by
  unfold unitsInOne
  rfl

/-- Within its binade, a quotient is rounded to at most `2 ^ 53` steps. -/
theorem roundHalfEven_le_two_pow (num : Nat) {den : Nat} (hden : 0 < den) :
    roundHalfEven num (den * 2 ^ spacing (num / den)) ≤ 2 ^ 53 := by
  have hstep : 0 < den * 2 ^ spacing (num / den) := Nat.mul_pos hden (Nat.two_pow_pos _)
  have hlt : num < 2 ^ (spacing (num / den) + 53) * den :=
    (Nat.div_lt_iff_lt_mul hden).mp (lt_two_pow_spacing _)
  calc roundHalfEven num (den * 2 ^ spacing (num / den))
      ≤ roundHalfEven (2 ^ 53 * (den * 2 ^ spacing (num / den)))
          (den * 2 ^ spacing (num / den)) := by
        refine roundHalfEven_le hstep hstep (Nat.mul_le_mul_right _ ?_)
        rw [Nat.pow_add] at hlt
        linarith
    _ = 2 ^ 53 := roundHalfEven_mul _ hstep

/-- Above the lowest binade, it is rounded to `2 ^ 52` steps or more. -/
theorem two_pow_le_roundHalfEven (num : Nat) {den : Nat} (hden : 0 < den)
    (hspacing : 0 < spacing (num / den)) :
    2 ^ 52 ≤ roundHalfEven num (den * 2 ^ spacing (num / den)) := by
  have hstep : 0 < den * 2 ^ spacing (num / den) := Nat.mul_pos hden (Nat.two_pow_pos _)
  have hle : 2 ^ (spacing (num / den) + 52) * den ≤ num :=
    (Nat.le_div_iff_mul_le hden).mp (two_pow_spacing_le hspacing)
  calc 2 ^ 52
      = roundHalfEven (2 ^ 52 * (den * 2 ^ spacing (num / den)))
          (den * 2 ^ spacing (num / den)) := (roundHalfEven_mul _ hstep).symm
    _ ≤ roundHalfEven num (den * 2 ^ spacing (num / den)) := by
        refine roundHalfEven_le hstep hstep (Nat.mul_le_mul_right _ ?_)
        rw [Nat.pow_add] at hle
        linarith

theorem rank_le_rank {a b c d : Nat} (hb : 0 < b) (hd : 0 < d) (hle : a * d ≤ c * b) :
    rank a b ≤ rank c d := by
  have hdiv : a / b ≤ c / d := by
    refine (Nat.le_div_iff_mul_le hd).mpr (Nat.le_of_mul_le_mul_right ?_ hb)
    calc a / b * d * b = a / b * b * d := by ring
      _ ≤ a * d := Nat.mul_le_mul_right _ (Nat.div_mul_le_self a b)
      _ ≤ c * b := hle
  rcases Nat.eq_or_lt_of_le (spacing_le_spacing hdiv) with heq | hlt
  · rw [rank, rank, heq]
    refine Nat.add_le_add_left (roundHalfEven_le ?_ ?_ ?_) _
    · exact Nat.mul_pos hb (Nat.two_pow_pos _)
    · exact Nat.mul_pos hd (Nat.two_pow_pos _)
    · calc a * (d * 2 ^ spacing (c / d)) = a * d * 2 ^ spacing (c / d) := by ring
        _ ≤ c * b * 2 ^ spacing (c / d) := Nat.mul_le_mul_right _ hle
        _ = c * (b * 2 ^ spacing (c / d)) := by ring
  · -- The first grid ends where the second begins.
    have hfirst := roundHalfEven_le_two_pow a hb
    have hsecond := two_pow_le_roundHalfEven c hd (by omega)
    rw [rank, rank]
    omega

/-! ## Numbers and their units -/

/-- The exponent of the spacing of the doubles around a number. -/
def binade (x : Number) : Nat :=
  x.magnitude / 2 ^ 52 - 1

/-- A number is a whole number of steps, less than `2 ^ 53`, and above the lowest binade no less
than `2 ^ 52`. -/
theorem exists_units_eq (x : Number) :
    ∃ s, x.units = s * 2 ^ x.binade ∧ x.magnitude = x.binade * 2 ^ 52 + s ∧ s < 2 ^ 53 ∧
      (0 < x.binade → 2 ^ 52 ≤ s) := by
  have hsplit : x.magnitude / 2 ^ 52 * 2 ^ 52 + x.magnitude % 2 ^ 52 = x.magnitude :=
    Nat.div_add_mod' _ _
  have hfraction : x.magnitude % 2 ^ 52 < 2 ^ 52 := Nat.mod_lt _ (Nat.two_pow_pos _)
  simp only [units, binade, Nat.pow_eq]
  by_cases hzero : x.magnitude / 2 ^ 52 = 0
  · rw [if_pos hzero, hzero]
    exact ⟨x.magnitude % 2 ^ 52, by simp, by omega, by omega, by omega⟩
  · rw [if_neg hzero]
    exact ⟨2 ^ 52 + x.magnitude % 2 ^ 52, rfl, by omega, by omega, by omega⟩

theorem spacing_units (x : Number) : spacing x.units = x.binade := by
  obtain ⟨s, hunits, -, hlt, hle⟩ := x.exists_units_eq
  refine Nat.le_antisymm (spacing_le_iff.mpr ?_) ?_
  · rw [hunits, Nat.add_comm, Nat.pow_add]
    exact Nat.mul_lt_mul_of_pos_right hlt (Nat.two_pow_pos _)
  · rcases Nat.eq_zero_or_pos x.binade with hzero | hpos
    · omega
    · by_contra hless
      have hsmall := spacing_le_iff.mp (show spacing x.units ≤ x.binade - 1 by omega)
      have hlarge : 2 ^ 52 * 2 ^ x.binade ≤ x.units := by
        rw [hunits]
        exact Nat.mul_le_mul_right _ (hle hpos)
      rw [← Nat.pow_add, show 52 + x.binade = x.binade - 1 + 53 by omega] at hlarge
      omega

/-- The units of a number are rounded to the magnitude of that number. -/
theorem rank_units (x : Number) {den : Nat} (hden : 0 < den) :
    rank (x.units * den) den = x.magnitude := by
  obtain ⟨s, hunits, hmagnitude, -, -⟩ := x.exists_units_eq
  have hexact : x.units * den = s * (den * 2 ^ x.binade) := by
    rw [hunits]
    ring
  have hstep : 0 < den * 2 ^ x.binade := Nat.mul_pos hden (Nat.two_pow_pos _)
  rw [rank, Nat.mul_div_cancel _ hden, spacing_units, hexact, roundHalfEven_mul s hstep]
  exact hmagnitude.symm

/-! ## The number that a decimal reads as -/

theorem magnitude_lt (x : Number) : x.magnitude < 2 ^ 63 :=
  Nat.mod_lt _ (Nat.two_pow_pos _)

theorem magnitude_ofMagnitude {m : Nat} (h : m < 2 ^ 63) : (ofMagnitude m).magnitude = m := by
  have hlt : m < UInt64.size := Nat.lt_trans h (by decide)
  rw [ofMagnitude, magnitude, UInt64.toNat_ofNat_of_lt' hlt]
  exact Nat.mod_eq_of_lt h

theorem isNegative_ofMagnitude {m : Nat} (h : m < 2 ^ 63) :
    (ofMagnitude m).isNegative = false := by
  have hsize : m < UInt64.size := Nat.lt_trans h (by decide)
  rw [ofMagnitude, isNegative, UInt64.toNat_ofNat_of_lt' hsize]
  exact decide_eq_false (Nat.not_le_of_lt h)

theorem magnitude_ofDecimal (d : Decimal) :
    (ofDecimal d).magnitude =
      min (rank (d.coefficient * unitsInOne) (10 ^ d.places)) infiniteMagnitude := by
  rw [ofDecimal, nearest_eq]
  refine magnitude_ofMagnitude (Nat.lt_of_le_of_lt (Nat.min_le_right _ _) ?_)
  decide

theorem ofMagnitude_magnitude_ofDecimal (d : Decimal) :
    ofMagnitude (ofDecimal d).magnitude = ofDecimal d := by
  rw [magnitude_ofDecimal, ofDecimal, nearest_eq]
  rfl

theorem magnitude_ofDecimal_le {d e : Decimal} (h : d.value ≤ e.value) :
    (ofDecimal d).magnitude ≤ (ofDecimal e).magnitude := by
  have hcross := Decimal.value_le_value.mp h
  rw [magnitude_ofDecimal, magnitude_ofDecimal]
  refine min_le_min_right _ (rank_le_rank (by positivity) (by positivity) ?_)
  calc d.coefficient * unitsInOne * 10 ^ e.places
      = d.coefficient * 10 ^ e.places * unitsInOne := by ring
    _ ≤ e.coefficient * 10 ^ d.places * unitsInOne := Nat.mul_le_mul_right _ hcross
    _ = e.coefficient * unitsInOne * 10 ^ d.places := by ring

/-- What lies between two decimals that read as the same number reads as that number too. -/
theorem ofDecimal_eq_of_between {a b c : Decimal} {x : Number} (ha : ofDecimal a = x)
    (hc : ofDecimal c = x) (hab : a.value ≤ b.value) (hbc : b.value ≤ c.value) :
    ofDecimal b = x := by
  have hlow := magnitude_ofDecimal_le hab
  have hhigh := magnitude_ofDecimal_le hbc
  rw [ha] at hlow
  rw [hc] at hhigh
  rw [← ofMagnitude_magnitude_ofDecimal b, Nat.le_antisymm hhigh hlow, ← ha]
  exact ofMagnitude_magnitude_ofDecimal a

theorem ofDecimal_congr {d e : Decimal} (h : d.value = e.value) : ofDecimal d = ofDecimal e :=
  ofDecimal_eq_of_between rfl rfl h.ge h.le

/-! ## The exact value of a number -/

theorem exact_eq (x : Number) :
    x.exact = if 1074 ≤ x.binade then ⟨x.units / unitsInOne, 0⟩
      else ⟨x.units / 2 ^ x.binade * 5 ^ (1074 - x.binade), 1074 - x.binade⟩ := by
  unfold unitsInOne
  rfl

theorem coefficient_exact_mul (x : Number) :
    x.exact.coefficient * unitsInOne = x.units * 10 ^ x.exact.places := by
  obtain ⟨s, hunits, -, -, -⟩ := x.exists_units_eq
  rw [exact_eq]
  split
  next hlarge =>
    have hdvd : unitsInOne ∣ x.units := by
      rw [hunits]
      exact Dvd.dvd.mul_left (unitsInOne_dvd hlarge) s
    rw [Nat.div_mul_cancel hdvd, Nat.pow_zero, Nat.mul_one]
  next hsmall =>
    have hs : x.units / 2 ^ x.binade = s := by
      rw [hunits, Nat.mul_div_cancel _ (Nat.two_pow_pos _)]
    have hten : 10 ^ (1074 - x.binade) = 2 ^ (1074 - x.binade) * 5 ^ (1074 - x.binade) :=
      Nat.mul_pow 2 5 _
    rw [hs, hunits, unitsInOne_eq (k := x.binade) (by omega), hten]
    ring

/-- The exact value of a finite number reads back. -/
theorem ofDecimal_exact {x : Number} (h : x.isFinite = true) :
    ofDecimal x.exact = ofMagnitude x.magnitude := by
  have hlt : x.magnitude < infiniteMagnitude := of_decide_eq_true h
  rw [ofDecimal, nearest_eq, coefficient_exact_mul, Nat.pow_eq, rank_units x (by positivity),
    Nat.min_eq_left hlt.le]

end Number

end Treewalk
