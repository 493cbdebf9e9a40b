import Mathlib
import Treewalk.Proofs.Number.Digits

/-!
# The shortest decimal

`shortest` looks for a decimal that reads back on one grid after another, the coarsest first, and on
each grid only at the two points around the exact value. Nothing is missed by that: a decimal of few
digits is a point of a coarse grid, or else too small for the exact value to lie below it
(`HasDigits.grid_or_lt`). So one of the two points is between it and the exact value, and what is
between two decimals that read as a number reads as that number too.

Hence no decimal that reads back has fewer digits than the one found (`hasDigits_coarsest`,
`hasDigits_shortest`), and this one reads back (`ofDecimal_shortest`).
-/

namespace Treewalk

/-! ## Points around a value -/

namespace Decimal

/-- The multiple of `step` that is reached from the coefficient downwards. -/
def below (d : Decimal) (step : Nat) : Decimal :=
  ⟨d.coefficient / step * step, d.places⟩

/-- The multiple of `step` behind it. -/
def above (d : Decimal) (step : Nat) : Decimal :=
  ⟨d.coefficient / step * step + step, d.places⟩

theorem value_le_of_coefficient_le {d e : Decimal} (hplaces : d.places = e.places)
    (h : d.coefficient ≤ e.coefficient) : d.value ≤ e.value := by
  rw [value_le_value, hplaces]
  exact Nat.mul_le_mul_right _ h

theorem value_below_le (d : Decimal) (step : Nat) : (d.below step).value ≤ d.value :=
  value_le_of_coefficient_le rfl (Nat.div_mul_le_self _ _)

theorem value_le_above (d : Decimal) {step : Nat} (h : 0 < step) :
    d.value ≤ (d.above step).value := by
  have hlt : d.coefficient < (d.coefficient / step + 1) * step :=
    Nat.lt_mul_of_div_lt (Nat.lt_succ_self _) h
  exact value_le_of_coefficient_le rfl (by rw [above, ← Nat.succ_mul]; exact hlt.le)

end Decimal

theorem HasDigits.mono {j k : Nat} {value : ℚ} (h : HasDigits j value) (hjk : j ≤ k) :
    HasDigits k value := by
  obtain ⟨n, up, down, hn, heq⟩ := h
  exact ⟨n, up, down, Nat.lt_of_lt_of_le hn (Nat.pow_le_pow_right (by decide) hjk), heq⟩

/-- With `k` digits, a decimal lies on the grid of `k` digits, or below all values of `n` digits. -/
theorem HasDigits.grid_or_lt {d : Decimal} {n k : Nat} (h : HasDigits k d.value) (hk : 0 < k)
    (hkn : k ≤ n) (places : Nat) :
    (∃ m, d.value = (⟨m * 10 ^ (n - k), places⟩ : Decimal).value) ∨
      d.value < (⟨10 ^ (n - 1), places⟩ : Decimal).value := by
  obtain ⟨c, up, down, hc, heq⟩ := h
  have hvalue : d.value = c * 10 ^ up / 10 ^ down := (eq_div_iff (by positivity)).mpr heq
  rcases Nat.lt_or_ge (up + places) (n - k + down) with hlt | hge
  · refine .inr ?_
    have hnat : c * 10 ^ (up + places) < 10 ^ (n - 1 + down) := by
      calc c * 10 ^ (up + places)
          < 10 ^ k * 10 ^ (up + places) := Nat.mul_lt_mul_of_pos_right hc (by positivity)
        _ = 10 ^ (k + (up + places)) := (Nat.pow_add _ _ _).symm
        _ ≤ 10 ^ (n - 1 + down) := Nat.pow_le_pow_right (by decide) (by omega)
    rw [hvalue, Decimal.value, div_lt_div_iff₀ (by positivity) (by positivity), mul_assoc,
      ← pow_add]
    rw [pow_add _ (n - 1)] at hnat
    exact_mod_cast hnat
  · refine .inl ⟨c * 10 ^ (up + places - (n - k + down)), ?_⟩
    have hnat : c * 10 ^ (up + places) =
        c * 10 ^ (up + places - (n - k + down)) * 10 ^ (n - k) * 10 ^ down := by
      rw [Nat.mul_assoc, Nat.mul_assoc, ← Nat.pow_add, ← Nat.pow_add]
      congr 2
      omega
    rw [hvalue, Decimal.value, div_eq_div_iff (by positivity) (by positivity), mul_assoc, ← pow_add]
    exact_mod_cast hnat

/-- A decimal with `k` digits does not lie between an exact value and the points around it on the
grid of `k` digits. -/
theorem HasDigits.le_below_or_above_le {e d : Decimal} {n k : Nat} (h : HasDigits k e.value)
    (hk : 0 < k) (hkn : k ≤ n) (hd : 10 ^ (n - 1) ≤ d.coefficient) :
    e.value ≤ (d.below (10 ^ (n - k))).value ∨ (d.above (10 ^ (n - k))).value ≤ e.value := by
  rcases h.grid_or_lt hk hkn d.places with ⟨m, hm⟩ | hlt
  · -- One of two multiples of the step is the other, or further from the coefficient.
    rw [hm]
    rcases Nat.lt_or_ge (d.coefficient / 10 ^ (n - k)) m with hlt | hge
    · refine .inr (Decimal.value_le_of_coefficient_le rfl ?_)
      rw [Decimal.above, ← Nat.succ_mul]
      exact Nat.mul_le_mul_right _ hlt
    · exact .inl (Decimal.value_le_of_coefficient_le rfl (Nat.mul_le_mul_right _ hge))
  · refine .inl (hlt.le.trans (Decimal.value_le_of_coefficient_le rfl ?_))
    have hsplit : 10 ^ (n - 1) = 10 ^ (k - 1) * 10 ^ (n - k) := by
      rw [← Nat.pow_add]
      congr 1
      omega
    rw [hsplit] at hd
    rw [Decimal.below, hsplit]
    exact Nat.mul_le_mul_right _ ((Nat.le_div_iff_mul_le (by positivity)).mpr hd)

/-- A multiple of a power of ten has no more digits than the multiplier. -/
theorem hasDigits_multiple {q k : Nat} (hk : 0 < k) (hq : q ≤ 10 ^ k) (j places : Nat) :
    HasDigits k (⟨q * 10 ^ j, places⟩ : Decimal).value := by
  rw [Decimal.value]
  rcases Nat.eq_or_lt_of_le hq with rfl | hlt
  · refine ⟨1, k + j, places, Nat.one_lt_pow hk.ne' (by decide), ?_⟩
    push_cast
    field_simp
    ring
  · refine ⟨q, j, places, hlt, ?_⟩
    push_cast
    field_simp

/-! ## The search -/

namespace Number

section

variable (readsBack : Decimal → Bool) (d : Decimal)

/-- What is found is one of the two points, and reads back; else neither of them does. -/
theorem neighbour?_cases (step : Nat) :
    (∃ found, neighbour? readsBack d step = some found ∧ readsBack found = true ∧
        (found = d.below step ∨ found = d.above step)) ∨
      neighbour? readsBack d step = none ∧ readsBack (d.below step) = false ∧
        readsBack (d.above step) = false := by
  unfold neighbour?
  extract_lets below above
  cases hbelow : readsBack below with
  | true =>
    cases habove : readsBack above with
    | true =>
      by_cases hnear : d.coefficient - below.coefficient < above.coefficient - d.coefficient
      · exact .inl ⟨below, if_pos hnear, hbelow, .inl rfl⟩
      · exact .inl ⟨above, if_neg hnear, habove, .inr rfl⟩
    | false => exact .inl ⟨below, rfl, hbelow, .inl rfl⟩
  | false =>
    cases habove : readsBack above with
    | true => exact .inl ⟨above, rfl, habove, .inr rfl⟩
    | false => exact .inr ⟨rfl, hbelow, habove⟩

variable {readsBack d}

theorem neighbour?_eq_some {step : Nat} {found : Decimal}
    (h : neighbour? readsBack d step = some found) :
    readsBack found = true ∧ (found = d.below step ∨ found = d.above step) := by
  rcases neighbour?_cases readsBack d step with ⟨_, hsome, hfound⟩ | ⟨hnone, -, -⟩
  · rw [h] at hsome
    cases hsome
    exact hfound
  · rw [h] at hnone
    cases hnone

theorem neighbour?_eq_none {step : Nat} (h : neighbour? readsBack d step = none) :
    readsBack (d.below step) = false ∧ readsBack (d.above step) = false := by
  rcases neighbour?_cases readsBack d step with ⟨_, hsome, -, -⟩ | ⟨-, hpoints⟩
  · rw [h] at hsome
    cases hsome
  · exact hpoints

/-- On the finest grid lies the decimal itself. -/
theorem neighbour?_one (hd : readsBack d = true) : neighbour? readsBack d 1 = some d := by
  unfold neighbour?
  extract_lets below above
  have hbelow : below = d := by
    simp [below]
  have habove : above.coefficient = d.coefficient + 1 := by
    simp [above, hbelow]
  rw [hbelow, hd, habove]
  cases readsBack above with
  | true => exact if_pos (by omega)
  | false => rfl

theorem coarsest_succ (readsBack : Decimal → Bool) (d : Decimal) (n : Nat) :
    coarsest readsBack d (n + 1) =
      (neighbour? readsBack d (10 ^ n)).getD (coarsest readsBack d n) := by
  rw [coarsest, Nat.pow_eq]
  cases neighbour? readsBack d (10 ^ n) <;> rfl

/-- The decimal found is from the coarsest grid that has one. -/
theorem exists_grid_coarsest (hd : readsBack d = true) {n : Nat} (hn : 0 < n) :
    ∃ j < n, neighbour? readsBack d (10 ^ j) = some (coarsest readsBack d n) ∧
      ∀ k < n, j < k → neighbour? readsBack d (10 ^ k) = none := by
  induction n with
  | zero => omega
  | succ n ih =>
    rw [coarsest_succ]
    rcases Option.eq_none_or_eq_some (neighbour? readsBack d (10 ^ n)) with hnone | ⟨found, hfound⟩
    · rw [hnone, Option.getD_none]
      have hpos : 0 < n := by
        refine Nat.pos_of_ne_zero fun hzero => ?_
        rw [hzero, Nat.pow_zero, neighbour?_one hd] at hnone
        cases hnone
      obtain ⟨j, hj, hsome, hcoarser⟩ := ih hpos
      refine ⟨j, by omega, hsome, fun k hk hjk => ?_⟩
      rcases Nat.lt_succ_iff_lt_or_eq.mp hk with hlt | rfl
      · exact hcoarser k hlt hjk
      · exact hnone
    · rw [hfound, Option.getD_some]
      exact ⟨n, Nat.lt_succ_self n, hfound, fun k hk hnk => by omega⟩

/-- Where all between two decimals that read back reads back as well, none of them has fewer digits
than the one found. -/
theorem hasDigits_coarsest {e : Decimal} {n k : Nat}
    (hbetween : ∀ a b c, readsBack a = true → readsBack c = true → a.value ≤ b.value →
      b.value ≤ c.value → readsBack b = true)
    (hd : readsBack d = true) (hlow : 10 ^ (n - 1) ≤ d.coefficient) (hhigh : d.coefficient < 10 ^ n)
    (he : readsBack e = true) (hk : 0 < k) (hdigits : HasDigits k e.value) :
    HasDigits k (coarsest readsBack d n).value := by
  have hn : 0 < n := Nat.pos_of_ne_zero fun hzero => by simp [hzero] at hlow hhigh; omega
  obtain ⟨j, hj, hfound, hcoarser⟩ := exists_grid_coarsest hd hn
  rcases Nat.lt_or_ge k (n - j) with hlt | hge
  · -- Then there is a coarser grid with a point that reads back.
    exfalso
    obtain ⟨hbelow, habove⟩ := neighbour?_eq_none (hcoarser (n - k) (by omega) (by omega))
    rcases hdigits.le_below_or_above_le hk (by omega) hlow with hle | hle
    · rw [hbetween _ _ _ he hd hle (d.value_below_le _)] at hbelow
      cases hbelow
    · rw [hbetween _ _ _ hd he (d.value_le_above (by positivity)) hle] at habove
      cases habove
  · have hq : d.coefficient / 10 ^ j < 10 ^ (n - j) := by
      rw [Nat.div_lt_iff_lt_mul (by positivity), ← Nat.pow_add, Nat.sub_add_cancel hj.le]
      exact hhigh
    refine HasDigits.mono ?_ hge
    rcases (neighbour?_eq_some hfound).2 with hpoint | hpoint
    · rw [hpoint]
      exact hasDigits_multiple (by omega) hq.le _ _
    · rw [hpoint, Decimal.above, ← Nat.succ_mul]
      exact hasDigits_multiple (by omega) hq _ _

end

/-! ## The shortest decimal of a number -/

variable {x : Number}

theorem shortest_eq (x : Number) :
    ∃ readsBack : Decimal → Bool,
      (∀ e, readsBack e = true ↔ ofDecimal e = ofMagnitude x.magnitude) ∧
        x.shortest =
          coarsest readsBack x.exact (Nat.toDigits 10 x.exact.coefficient).length :=
  ⟨_, fun _ => decide_eq_true_iff, rfl⟩

theorem ofDecimal_shortest (h : x.isFinite = true) :
    ofDecimal x.shortest = ofMagnitude x.magnitude := by
  obtain ⟨readsBack, hreads, hshortest⟩ := x.shortest_eq
  have hexact := (hreads _).mpr (ofDecimal_exact h)
  obtain ⟨j, -, hfound, -⟩ := exists_grid_coarsest hexact Nat.length_toDigits_pos
  rw [← hshortest] at hfound
  exact (hreads _).mp (neighbour?_eq_some hfound).1

theorem rank_zero (den : Nat) : rank 0 den = 0 := by
  simp [rank, spacing, roundHalfEven]

theorem coefficient_exact_eq_zero (x : Number) :
    x.exact.coefficient = 0 ↔ x.magnitude = 0 := by
  have hexact := x.coefficient_exact_mul
  constructor
  · intro hzero
    rw [hzero, Nat.zero_mul] at hexact
    have hunits := (Nat.mul_eq_zero.mp hexact.symm).resolve_right (by positivity)
    rw [← x.rank_units Nat.one_pos, hunits, Nat.zero_mul, rank_zero]
  · intro hzero
    have hunits : x.units = 0 := by
      rw [units, hzero]
      rfl
    rw [hunits, Nat.zero_mul] at hexact
    exact (Nat.mul_eq_zero.mp hexact).resolve_right unitsInOne_pos.ne'

/-- A number that is not zero needs a digit. -/
theorem pos_of_hasDigits {e : Decimal} {k : Nat} (he : 0 < (ofDecimal e).magnitude)
    (h : HasDigits k e.value) : 0 < k := by
  refine Nat.pos_of_ne_zero fun hzero => ?_
  obtain ⟨n, up, down, hn, heq⟩ := h
  have hnone : n = 0 := by
    rw [hzero, Nat.pow_zero] at hn
    omega
  have hvalue : e.value = (⟨0, 0⟩ : Decimal).value := by
    rw [hnone, Nat.cast_zero, zero_mul, mul_eq_zero] at heq
    rw [heq.resolve_right (by positivity), Decimal.value, Nat.cast_zero, zero_div]
  rw [ofDecimal_congr hvalue, magnitude_ofDecimal] at he
  have hrank : rank (0 * unitsInOne) (10 ^ 0) ≤ 0 := by
    rw [Nat.zero_mul unitsInOne, rank_zero]
  exact Nat.not_lt_zero _ (Nat.lt_of_lt_of_le (lt_min_iff.mp he).1 hrank)

/-- No decimal that reads back has fewer digits than the shortest. -/
theorem hasDigits_shortest (h : x.isFinite = true) {e : Decimal} {k : Nat}
    (he : ofDecimal e = ofMagnitude x.magnitude) (hdigits : HasDigits k e.value) :
    HasDigits k x.shortest.value := by
  obtain ⟨readsBack, hreads, hshortest⟩ := x.shortest_eq
  have hexact := (hreads _).mpr (ofDecimal_exact h)
  rw [hshortest]
  rcases Nat.eq_zero_or_pos x.exact.coefficient with hzero | hpos
  · have hone : (Nat.toDigits 10 x.exact.coefficient).length = 0 + 1 := by
      rw [hzero]
      rfl
    rw [hone, coarsest_succ, Nat.pow_zero, neighbour?_one hexact, Option.getD_some]
    refine ⟨0, 0, 0, by positivity, ?_⟩
    simp [Decimal.value, hzero]
  · have hmagnitude : 0 < (ofDecimal e).magnitude := by
      rw [he, magnitude_ofMagnitude (magnitude_lt x)]
      exact Nat.pos_of_ne_zero fun hzero =>
        hpos.ne' ((coefficient_exact_eq_zero x).mpr hzero)
    refine hasDigits_coarsest ?_ hexact (ten_pow_le_of_pos hpos) (lt_ten_pow_length _)
      ((hreads e).mpr he) ?_ hdigits
    · intro a b c ha hc hab hbc
      exact (hreads b).mpr
        (ofDecimal_eq_of_between ((hreads a).mp ha) ((hreads c).mp hc) hab hbc)
    · exact pos_of_hasDigits hmagnitude hdigits

end Number

end Treewalk
