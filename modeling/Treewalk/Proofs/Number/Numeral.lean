import Mathlib
import Treewalk.Proofs.Number.Nearest
import Treewalk.Proofs.Number.Text

/-!
# Numerals

`numeral?` reads a text as an exact rational, digit by digit, and says which texts can be read so.
The lexeme of a number token always can (`exists_numeral_of_mem`), and the number in the token is
that rational, correctly rounded (`numerals_correctly_rounded`). The digits may be any number, so
the rational is exact where no double is.
-/

namespace Treewalk

/-! ## Exact values -/

/-- The value of digits behind a point, each worth a tenth of the one before it. -/
def fractionValue : List Char → ℚ
  | [] => 0
  | c :: digits => (digitsToNat [c] + fractionValue digits) / 10

/-- The value of digits, or of digits, a point and more digits. No other text is a numeral. -/
def numeral? (text : List Char) : Option ℚ :=
  let whole := text.takeWhile Char.isDigit
  match text.dropWhile Char.isDigit with
  | [] => if whole = [] then none else some (digitsToNat whole)
  | '.' :: fraction =>
    if whole = [] ∨ fraction = [] ∨ fraction.any (!·.isDigit) then none
    else some (digitsToNat whole + fractionValue fraction)
  | _ => none

theorem fractionValue_eq (digits : List Char) :
    fractionValue digits = digitsToNat digits / 10 ^ digits.length := by
  induction digits with
  | nil => simp [fractionValue, digitsToNat, Nat.ofDigitChars]
  | cons c digits ih =>
    have hsplit : digitsToNat (c :: digits) =
        digitsToNat [c] * 10 ^ digits.length + digitsToNat digits :=
      digitsToNat_append [c] digits
    rw [fractionValue, ih, hsplit, List.length_cons, pow_succ]
    push_cast
    field_simp

section

variable {whole fraction : List Char}

theorem numeral?_text (h : (Piece.number whole fraction).WellFormed) :
    numeral? (Piece.number whole fraction).text =
      some (Decimal.ofDigits whole fraction).value := by
  obtain ⟨hne, hwhole, hfraction⟩ := h
  rw [Decimal.value_ofDigits]
  cases fraction with
  | nil =>
    have hnone : ∀ c ∈ ([] : List Char).head?, c.isDigit = false := by simp
    have htake := takeWhile_of_stop hwhole hnone
    have hdrop := dropWhile_of_stop hwhole hnone
    rw [List.append_nil] at htake hdrop
    simp [numeral?, Piece.text, htake, hdrop, hne, digitsToNat, Nat.ofDigitChars]
  | cons d digits =>
    have hpoint : ∀ c ∈ ('.' :: d :: digits).head?, c.isDigit = false := by
      rintro c ⟨⟩
      rfl
    have hany : (d :: digits).any (!·.isDigit) = false := by
      simpa using hfraction
    simp only [numeral?, Piece.text, takeWhile_of_stop hwhole hpoint,
      dropWhile_of_stop hwhole hpoint]
    rw [if_neg (by simp [hne, hany]), fractionValue_eq]

end

/-! ## Number tokens -/

/-- A number token is a numeral, and its number is what the numeral reads as. -/
theorem exists_numeral_of_mem {source : String} {t : Token} (ht : t ∈ (scan source).tokens)
    {x : Number} (hx : t.kind = .number x) :
    ∃ d : Decimal, numeral? t.lexeme.toList = some d.value ∧ x = Number.ofDecimal d := by
  have hinner : t ∈ innerTokens source := by
    rw [tokens_scan] at ht
    refine (List.mem_append.mp ht).resolve_right fun hstop => ?_
    rw [List.mem_singleton.mp hstop] at hx
    cases hx
  obtain ⟨p, hp, hkind, hlexeme⟩ := isWhole_of_mem hinner
  rw [hx] at hkind
  obtain ⟨whole, fraction, rfl, hreads⟩ := Number.exists_eq_number_of_kind? hkind
  refine ⟨Decimal.ofDigits whole fraction, ?_, hreads.symm⟩
  rw [hlexeme, String.toList_ofList]
  exact numeral?_text hp

namespace Number

/-- The lexeme of a number token is a numeral, of whatever length. The number is infinite where the
exact value lies halfway between the largest number and the next power of two, or beyond. Any other
value is rounded to the nearest number, to the one with an even significand where two are as near,
and a zero has no sign. -/
theorem numerals_correctly_rounded {source : String} {t : Token} (ht : t ∈ (scan source).tokens)
    {x : Number} (hx : t.kind = .number x) :
    ∃ q : ℚ, numeral? t.lexeme.toList = some q ∧
      (x = infinity ↔ (largest.value + 2 ^ 1024) / 2 ≤ q) ∧
      (q < (largest.value + 2 ^ 1024) / 2 → x.isNegative = false ∧ x.IsNearest q) := by
  obtain ⟨d, hnumeral, rfl⟩ := exists_numeral_of_mem ht hx
  exact ⟨d.value, hnumeral, ofDecimal_eq_infinity_iff d,
    fun h => ⟨isNegative_ofDecimal d, isNearest_ofDecimal h⟩⟩

/-- Halfway between two numbers, the one with the even significand is taken. -/
theorem tie_rounded_to_even :
    ⟨.number ⟨0x4340000000000000⟩, "9007199254740993", 1⟩ ∈ (scan "9007199254740993").tokens ∧
      numeral? "9007199254740993".toList = some 9007199254740993 ∧
      (⟨0x4340000000000000⟩ : Number).IsNearest 9007199254740993 := by
  have htokens : (scan "9007199254740993").tokens =
      [⟨.number ⟨0x4340000000000000⟩, "9007199254740993", 1⟩, Token.eof 1] := by decide +kernel
  have ht : (⟨.number ⟨0x4340000000000000⟩, "9007199254740993", 1⟩ : Token) ∈
      (scan "9007199254740993").tokens := by
    rw [htokens]
    exact List.mem_cons_self
  obtain ⟨q, hnumeral, -, hnearest⟩ := numerals_correctly_rounded ht rfl
  have hq : numeral? "9007199254740993".toList = some 9007199254740993 := by decide +kernel
  obtain rfl : q = 9007199254740993 := Option.some.inj (hnumeral.symm.trans hq)
  have hbound : (9007199254740993 : ℚ) < (largest.value + 2 ^ 1024) / 2 := by
    have hlargest : 0 ≤ largest.value := by
      rw [value_of_positive (by decide)]
      positivity
    have hpow : (2 * 9007199254740993 : ℚ) < 2 ^ 1024 :=
      lt_of_lt_of_le (by norm_num) (pow_le_pow_right₀ one_le_two (show 55 ≤ 1024 by decide))
    generalize (2 : ℚ) ^ 1024 = top at hpow
    linarith
  exact ⟨ht, hq, (hnearest hbound).2⟩

end Number

end Treewalk
