import Treewalk.Number
import Treewalk.Number.Decimal

/-!
# The number nearest to a quotient

A quotient of natural numbers is rounded to the nearest double, ties to the even
significand. In units of `2 ^ -1074` the spacing of doubles around a value is a power of
two, `2 ^ shift`, which leaves at most 53 bits of significand; rounding the value to a
multiple of it and adding `shift * 2 ^ 52` gives the bits, also where rounding carries into
the next binade. What is rounded past the largest finite value is infinite.
-/

namespace Treewalk

/-- The whole number nearest to `num / den`, a half going to the even neighbour. -/
def roundHalfEven (num den : Nat) : Nat :=
  let below := num / den
  let rest := 2 * (num % den)
  if rest < den then below
  else if den < rest then below + 1
  else below + below % 2

namespace Number

/-- The exponent of the spacing, in units, of the doubles around a value of `units` units. -/
def spacing (units : Nat) : Nat :=
  units.log2 - 52

/-- The double nearest to `num / den`, for a positive `den`. -/
def nearest (num den : Nat) : Number :=
  let scaled := num * Nat.pow 2 1074
  let shift := spacing (scaled / den)
  ofMagnitude
    (min (shift * Nat.pow 2 52 + roundHalfEven scaled (den * Nat.pow 2 shift)) infiniteMagnitude)

/-- The double nearest to a decimal. -/
def ofDecimal (d : Decimal) : Number :=
  nearest d.coefficient (Nat.pow 10 d.places)

end Number

end Treewalk
