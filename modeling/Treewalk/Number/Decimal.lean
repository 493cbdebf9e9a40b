/-!
# Decimals and their positional text

A decimal is a coefficient over a power of ten. Its text is positional: the whole part
without leading zeros, then, unless the fraction is zero, a point and the fraction without
trailing zeros. There is no notation with an exponent.
-/

namespace Treewalk

/-- The value `coefficient / 10 ^ places`. -/
structure Decimal where
  coefficient : Nat
  places : Nat
  deriving DecidableEq, Inhabited

namespace Decimal

/-- The decimal whose digits are `whole`, a point and `fraction`. -/
def ofDigits (whole fraction : List Char) : Decimal :=
  ⟨Nat.ofDigitChars 10 (whole ++ fraction) 0, fraction.length⟩

/-- The whole part in decimal digits; a zero is one digit. -/
def wholeDigits (d : Decimal) : List Char :=
  Nat.toDigits 10 (d.coefficient / Nat.pow 10 d.places)

/-- Digits with the zeros at their end left out. -/
def dropTrailingZeros (digits : List Char) : List Char :=
  (digits.reverse.dropWhile (· == '0')).reverse

/-- The digits after the point, none where the fraction is zero. -/
def fractionDigits (d : Decimal) : List Char :=
  let digits := Nat.toDigits 10 (d.coefficient % Nat.pow 10 d.places)
  dropTrailingZeros (List.replicate (d.places - digits.length) '0' ++ digits)

/-- Positional notation. -/
def digits (d : Decimal) : List Char :=
  match d.fractionDigits with
  | [] => d.wholeDigits
  | fraction => d.wholeDigits ++ '.' :: fraction

end Decimal

end Treewalk
