import Mathlib
import Treewalk.Proofs.Number.Rounding
import Treewalk.Proofs.Token.LongestMatch

/-!
# Digits

The text of a decimal is a number piece in its shortest form: no zero is in front of its whole part
and none at the end of its fraction (`positional_digits`, `digits_eq_text`). Read as digits, this
text has the value that the decimal has (`value_ofDigits_digits`).

What is left of the digits of a numeral without the zeros around them are its significant digits. A
value can be written with `k` of them when it is a whole number below `10 ^ k` up to a power of ten
(`HasDigits`). No numeral has more of them than its value needs
(`length_significantDigits_le_iff`).
-/

namespace Treewalk

/-- The whole number that digits stand for. -/
def digitsToNat (digits : List Char) : Nat :=
  Nat.ofDigitChars 10 digits 0

section

variable {digits : List Char} {c : Char}

theorem digitsToNat_append (first second : List Char) :
    digitsToNat (first ++ second) =
      digitsToNat first * 10 ^ second.length + digitsToNat second := by
  rw [digitsToNat, Nat.ofDigitChars_append, Nat.ofDigitChars_eq_ofDigitChars_zero, Nat.mul_comm]
  rfl

theorem digitsToNat_zeros (k : Nat) : digitsToNat (List.replicate k '0') = 0 := by
  rw [digitsToNat, Nat.ofDigitChars_replicate_zero, Nat.mul_zero]

theorem digitsToNat_toDigits (n : Nat) : digitsToNat (Nat.toDigits 10 n) = n :=
  Nat.ofDigitChars_ten_toDigits

theorem lt_ten_pow_length (n : Nat) : n < 10 ^ (Nat.toDigits 10 n).length :=
  (Nat.length_toDigits_le_iff (by decide) Nat.length_toDigits_pos).mp (Nat.le_refl _)

theorem ten_pow_le_of_pos {n : Nat} (h : 0 < n) : 10 ^ ((Nat.toDigits 10 n).length - 1) ≤ n := by
  by_contra hlt
  rcases Nat.eq_zero_or_pos ((Nat.toDigits 10 n).length - 1) with hone | hmore
  · rw [hone, Nat.pow_zero] at hlt
    omega
  · have hle := (Nat.length_toDigits_le_iff (by decide) hmore).mpr (Nat.lt_of_not_le hlt)
    omega

/-- The digit that a character is. -/
theorem digitsToNat_singleton (h : c.isDigit = true) :
    digitsToNat [c] < 10 ∧ (c ≠ '0' → digitsToNat [c] ≠ 0) := by
  obtain ⟨hlow, hhigh⟩ := Char.isDigit_iff_toNat.mp h
  have hzero : '0'.toNat = 48 := rfl
  have hnine : '9'.toNat = 57 := rfl
  have hvalue : digitsToNat [c] = c.toNat - '0'.toNat := by
    simp [digitsToNat, Nat.ofDigitChars]
  refine ⟨by omega, fun hne hvanish => hne (Char.toNat_inj.mp ?_)⟩
  omega

theorem digitsToNat_lt (h : ∀ c ∈ digits, c.isDigit = true) :
    digitsToNat digits < 10 ^ digits.length := by
  induction digits with
  | nil => decide
  | cons c digits ih =>
    obtain ⟨hc, hdigits⟩ := List.forall_mem_cons.mp h
    have hhead := (digitsToNat_singleton hc).1
    rw [← List.singleton_append, digitsToNat_append, List.length_append, Nat.pow_add]
    calc digitsToNat [c] * 10 ^ digits.length + digitsToNat digits
        < digitsToNat [c] * 10 ^ digits.length + 10 ^ digits.length :=
          Nat.add_lt_add_left (ih hdigits) _
      _ = (digitsToNat [c] + 1) * 10 ^ digits.length := (Nat.succ_mul _ _).symm
      _ ≤ 10 ^ [c].length * 10 ^ digits.length := Nat.mul_le_mul_right _ hhead

/-- A first digit that is not zero counts. -/
theorem le_digitsToNat_cons (hc : c.isDigit = true) (hne : c ≠ '0') (digits : List Char) :
    10 ^ digits.length ≤ digitsToNat (c :: digits) := by
  have hhead := (digitsToNat_singleton hc).2 hne
  rw [← List.singleton_append, digitsToNat_append]
  exact Nat.le_add_right_of_le (Nat.le_mul_of_pos_left _ (Nat.pos_of_ne_zero hhead))

/-- So does a last one. -/
theorem digitsToNat_concat_mod (hc : c.isDigit = true) (hne : c ≠ '0') (digits : List Char) :
    digitsToNat (digits ++ [c]) % 10 ≠ 0 := by
  obtain ⟨hlt, hhead⟩ := digitsToNat_singleton hc
  have hhead := hhead hne
  rw [digitsToNat_append, List.length_singleton, Nat.pow_one]
  omega

end

/-! ## Zeros at the end -/

theorem eq_replicate_zero {digits : List Char} (h : ∀ c ∈ digits, (c == '0') = true) :
    List.replicate digits.length '0' = digits :=
  (List.eq_replicate_iff.mpr ⟨rfl, fun c hc => beq_iff_eq.mp (h c hc)⟩).symm

theorem exists_append_zeros (digits : List Char) :
    ∃ k, Decimal.dropTrailingZeros digits ++ List.replicate k '0' = digits := by
  refine ⟨(digits.rtakeWhile (· == '0')).length, ?_⟩
  rw [eq_replicate_zero fun c => List.mem_rtakeWhile_imp]
  exact List.rdropWhile_append_rtakeWhile

theorem getLast?_dropTrailingZeros (digits : List Char) :
    (Decimal.dropTrailingZeros digits).getLast? ≠ some '0' := by
  intro h
  obtain ⟨hne, hlast⟩ := List.mem_getLast?_eq_getLast h
  refine List.rdropWhile_last_not (· == '0') digits hne ?_
  exact beq_iff_eq.mpr hlast.symm

theorem dropTrailingZeros_subset {digits : List Char} {c : Char}
    (h : c ∈ Decimal.dropTrailingZeros digits) : c ∈ digits :=
  (List.rdropWhile_prefix (· == '0') digits).subset h

/-! ## The text of a decimal -/

/-- Digits, and more digits behind a point where there is a fraction, without a zero that could be
left out. -/
structure Positional (whole fraction : List Char) : Prop where
  whole_ne_nil : whole ≠ []
  isDigit_of_mem_whole : ∀ c ∈ whole, c.isDigit = true
  whole_eq_zero : whole.head? = some '0' → whole = ['0']
  isDigit_of_mem_fraction : ∀ c ∈ fraction, c.isDigit = true
  getLast?_fraction : fraction.getLast? ≠ some '0'

theorem head?_toDigits {n : Nat} (h : (Nat.toDigits 10 n).head? = some '0') : n = 0 := by
  obtain ⟨digits, hdigits⟩ := List.head?_eq_some_iff.mp h
  have hvalue : n = digitsToNat digits := by
    conv_lhs => rw [← digitsToNat_toDigits n, hdigits, ← List.singleton_append, digitsToNat_append]
    simp [digitsToNat, Nat.ofDigitChars]
  cases digits with
  | nil => exact hvalue
  | cons c digits =>
    -- A digit less would do for `n`.
    have hmem : ∀ c' ∈ c :: digits, c'.isDigit = true := by
      intro c' hc'
      refine Nat.isDigit_of_mem_toDigits (b := 10) (n := n) (by decide) (by decide) ?_
      rw [hdigits]
      exact List.mem_cons_of_mem _ hc'
    have hlt : n < 10 ^ (c :: digits).length := hvalue ▸ digitsToNat_lt hmem
    have hlength := (Nat.length_toDigits_le_iff (by decide) (by simp)).mpr hlt
    rw [hdigits, List.length_cons] at hlength
    omega

namespace Decimal

theorem positional_digits (d : Decimal) : Positional d.wholeDigits d.fractionDigits where
  whole_ne_nil := Nat.toDigits_ne_nil
  isDigit_of_mem_whole := fun c => Nat.isDigit_of_mem_toDigits (by decide) (by decide)
  whole_eq_zero := by
    intro h
    rw [wholeDigits, head?_toDigits h]
    rfl
  isDigit_of_mem_fraction := by
    intro c hc
    rcases List.mem_append.mp (dropTrailingZeros_subset hc) with hzero | hdigit
    · rw [List.eq_of_mem_replicate hzero]
      rfl
    · exact Nat.isDigit_of_mem_toDigits (by decide) (by decide) hdigit
  getLast?_fraction := getLast?_dropTrailingZeros _

theorem digits_eq_text (d : Decimal) :
    d.digits = (Piece.number d.wholeDigits d.fractionDigits).text := by
  rw [digits]
  cases d.fractionDigits <;> rfl

theorem value_ofDigits (whole fraction : List Char) :
    (ofDigits whole fraction).value =
      digitsToNat whole + digitsToNat fraction / 10 ^ fraction.length := by
  have hcoefficient : Nat.ofDigitChars 10 (whole ++ fraction) 0 =
      digitsToNat whole * 10 ^ fraction.length + digitsToNat fraction :=
    digitsToNat_append whole fraction
  rw [value, ofDigits, hcoefficient]
  field_simp
  push_cast
  ring

/-- The fraction of the text is that of the value. -/
theorem digitsToNat_fractionDigits (d : Decimal) :
    (digitsToNat d.fractionDigits : ℚ) / 10 ^ d.fractionDigits.length =
      ((d.coefficient % 10 ^ d.places : Nat) : ℚ) / 10 ^ d.places := by
  have hdef : d.fractionDigits = dropTrailingZeros
      (List.replicate (d.places - (Nat.toDigits 10 (d.coefficient % 10 ^ d.places)).length) '0' ++
        Nat.toDigits 10 (d.coefficient % 10 ^ d.places)) := rfl
  have hlt : d.coefficient % 10 ^ d.places < 10 ^ d.places := Nat.mod_lt _ (by positivity)
  generalize d.coefficient % 10 ^ d.places = rest at hdef hlt
  obtain ⟨k, hk⟩ := exists_append_zeros
    (List.replicate (d.places - (Nat.toDigits 10 rest).length) '0' ++ Nat.toDigits 10 rest)
  rw [← hdef] at hk
  have hvalue : digitsToNat d.fractionDigits * 10 ^ k = rest := by
    have hsame := congrArg digitsToNat hk
    simpa [digitsToNat_append, digitsToNat_zeros, digitsToNat_toDigits] using hsame
  rcases Nat.eq_zero_or_pos d.places with hzero | hpos
  · rw [hzero, Nat.pow_zero] at hlt
    have hrest : rest = 0 := by omega
    have hnone : digitsToNat d.fractionDigits = 0 := by
      rw [hrest] at hvalue
      exact (Nat.mul_eq_zero.mp hvalue).resolve_right (by positivity)
    simp [hrest, hnone]
  · have hfits := (Nat.length_toDigits_le_iff (by decide) hpos).mpr hlt
    have hlength : d.fractionDigits.length + k = d.places := by
      have hsame := congrArg List.length hk
      simp only [List.length_append, List.length_replicate] at hsame
      omega
    rw [← hvalue, ← hlength, pow_add]
    push_cast
    field_simp

theorem value_ofDigits_digits (d : Decimal) :
    (ofDigits d.wholeDigits d.fractionDigits).value = d.value := by
  have hsplit : d.coefficient / 10 ^ d.places * 10 ^ d.places + d.coefficient % 10 ^ d.places =
      d.coefficient := Nat.div_add_mod' _ _
  rw [value_ofDigits, digitsToNat_fractionDigits, wholeDigits, digitsToNat_toDigits, value,
    Nat.pow_eq]
  conv_rhs => rw [← hsplit]
  push_cast
  field_simp

end Decimal

/-! ## Significant digits -/

/-- The digits in a text without the zeros around them. -/
def significantDigits (text : List Char) : List Char :=
  Decimal.dropTrailingZeros ((text.filter Char.isDigit).dropWhile (· == '0'))

/-- The value is a whole number below `10 ^ k` up to a power of ten. -/
def HasDigits (k : Nat) (value : ℚ) : Prop :=
  ∃ n up down : Nat, n < 10 ^ k ∧ value * 10 ^ down = n * 10 ^ up

section

variable {text : List Char}

theorem filter_isDigit_text {whole fraction : List Char}
    (hwhole : ∀ c ∈ whole, c.isDigit = true) (hfraction : ∀ c ∈ fraction, c.isDigit = true) :
    (Piece.number whole fraction).text.filter Char.isDigit = whole ++ fraction := by
  have hpoint : '.'.isDigit = false := rfl
  cases fraction with
  | nil => simpa [Piece.text] using hwhole
  | cons d fraction =>
    rw [Piece.text, List.filter_append, List.filter_eq_self.mpr hwhole,
      List.filter_cons_of_neg (by simp [hpoint]), List.filter_eq_self.mpr hfraction]

theorem isDigit_of_mem_significantDigits (text : List Char) :
    ∀ c ∈ significantDigits text, c.isDigit = true := by
  intro c h
  have hmem := (List.dropWhile_suffix _).subset (dropTrailingZeros_subset h)
  exact (List.mem_filter.mp hmem).2

theorem head?_significantDigits (text : List Char) :
    (significantDigits text).head? ≠ some '0' := by
  intro h
  have hfirst := List.head?_dropWhile_not (· == '0') (text.filter Char.isDigit)
  obtain ⟨rest, hrest⟩ := List.rdropWhile_prefix (· == '0')
    ((text.filter Char.isDigit).dropWhile (· == '0'))
  rw [← hrest, List.head?_append] at hfirst
  rw [significantDigits, Decimal.dropTrailingZeros, ← List.rdropWhile] at h
  simp [h] at hfirst

theorem getLast?_significantDigits (text : List Char) :
    (significantDigits text).getLast? ≠ some '0' :=
  getLast?_dropTrailingZeros _

theorem exists_zeros_around (text : List Char) :
    ∃ i k, List.replicate i '0' ++ (significantDigits text ++ List.replicate k '0') =
      text.filter Char.isDigit := by
  obtain ⟨k, hk⟩ := exists_append_zeros ((text.filter Char.isDigit).dropWhile (· == '0'))
  refine ⟨((text.filter Char.isDigit).takeWhile (· == '0')).length, k, ?_⟩
  rw [significantDigits, hk,
    eq_replicate_zero fun c hc => List.mem_takeWhile_imp (p := (· == '0')) hc]
  exact List.takeWhile_append_dropWhile

/-- Without zeros around them, digits are needed all. -/
theorem length_le_of_mul_eq {digits : List Char} (hdigits : ∀ c ∈ digits, c.isDigit = true)
    (hfirst : digits.head? ≠ some '0') (hlast : digits.getLast? ≠ some '0')
    {n up down k : Nat} (hn : n < 10 ^ k) (h : digitsToNat digits * 10 ^ down = n * 10 ^ up) :
    digits.length ≤ k := by
  have hten : ∀ e, 0 < 10 ^ e := fun e => Nat.pow_pos (by decide)
  rcases List.eq_nil_or_concat' digits with rfl | ⟨first, last, hconcat⟩
  · exact Nat.zero_le k
  rcases Nat.lt_or_ge down up with hlt | hle
  · -- A number that ends in a zero is not what digits stand for that do not.
    have hmultiple : digitsToNat digits = n * 10 ^ (up - down - 1) * 10 := by
      refine Nat.eq_of_mul_eq_mul_right (hten down) ?_
      rw [h, Nat.mul_assoc, Nat.mul_assoc, ← Nat.pow_succ', ← Nat.pow_add]
      congr 2
      omega
    rw [hconcat] at hlast hdigits hmultiple
    have hdigit := hdigits last (by simp)
    have hmod := digitsToNat_concat_mod hdigit (by simpa using hlast) first
    rw [hmultiple, Nat.mul_mod_left] at hmod
    exact absurd rfl hmod
  · have hmultiple : digitsToNat digits * 10 ^ (down - up) = n := by
      refine Nat.eq_of_mul_eq_mul_right (hten up) ?_
      rw [Nat.mul_assoc, ← Nat.pow_add, Nat.sub_add_cancel hle]
      exact h
    cases digits with
    | nil => exact Nat.zero_le k
    | cons c rest =>
      refine (Nat.pow_lt_pow_iff_right (by decide : 1 < 10)).mp ?_
      calc 10 ^ rest.length
          ≤ digitsToNat (c :: rest) :=
            le_digitsToNat_cons (hdigits c List.mem_cons_self) (by simpa using hfirst) rest
        _ ≤ digitsToNat (c :: rest) * 10 ^ (down - up) := Nat.le_mul_of_pos_right _ (hten _)
        _ = n := hmultiple
        _ < 10 ^ k := hn

/-- A numeral has as many significant digits as its value needs. -/
theorem length_significantDigits_le_iff {whole fraction : List Char}
    (hwhole : ∀ c ∈ whole, c.isDigit = true) (hfraction : ∀ c ∈ fraction, c.isDigit = true)
    {k : Nat} :
    (significantDigits (Piece.number whole fraction).text).length ≤ k ↔
      HasDigits k (Decimal.ofDigits whole fraction).value := by
  obtain ⟨i, trailing, hsplit⟩ := exists_zeros_around (Piece.number whole fraction).text
  rw [filter_isDigit_text hwhole hfraction] at hsplit
  have hdigits := isDigit_of_mem_significantDigits (Piece.number whole fraction).text
  have hfirst := head?_significantDigits (Piece.number whole fraction).text
  have hlast := getLast?_significantDigits (Piece.number whole fraction).text
  generalize significantDigits (Piece.number whole fraction).text = digits at *
  have hcoefficient : digitsToNat digits * 10 ^ trailing = digitsToNat (whole ++ fraction) := by
    have hsame := congrArg digitsToNat hsplit
    rw [digitsToNat_append, digitsToNat_append, digitsToNat_zeros, digitsToNat_zeros,
      Nat.zero_mul, Nat.zero_add, Nat.add_zero, List.length_replicate] at hsame
    exact hsame
  have hvalue : (Decimal.ofDigits whole fraction).value =
      digitsToNat digits * 10 ^ trailing / 10 ^ fraction.length := by
    have hnumerator : (Decimal.ofDigits whole fraction).coefficient =
        digitsToNat digits * 10 ^ trailing := hcoefficient.symm
    rw [Decimal.value, hnumerator]
    push_cast
    rfl
  rw [hvalue]
  constructor
  · intro hle
    refine ⟨digitsToNat digits, trailing, fraction.length, ?_, ?_⟩
    · exact Nat.lt_of_lt_of_le (digitsToNat_lt hdigits) (Nat.pow_le_pow_right (by decide) hle)
    · exact div_mul_cancel₀ _ (by positivity)
  · rintro ⟨n, up, down, hn, heq⟩
    refine length_le_of_mul_eq hdigits hfirst hlast hn
      (show _ * 10 ^ (trailing + down) = _ * 10 ^ (fraction.length + up) from ?_)
    field_simp at heq
    rw [pow_add, pow_add, ← Nat.mul_assoc, ← Nat.mul_assoc, Nat.mul_comm n]
    exact_mod_cast heq

end

end Treewalk
