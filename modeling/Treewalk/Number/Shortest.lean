import Treewalk.Number.Nearest

/-!
# The shortest decimal of a number

A finite number has an exact decimal expansion. Among the decimals that read back as the
number, those with the fewest significant digits are sought, and of them the one nearest to
the exact value, the greater at a tie. For each count of digits in turn only the two
neighbours of the exact value on the grid of that many digits are tried: reading is
monotone, so if any point of the grid reads back, one of the neighbours does.
-/

namespace Treewalk

namespace Number

/-- The exact value of a finite number without its sign. -/
def exact (x : Number) : Decimal :=
  let exponent := x.magnitude / Nat.pow 2 52 - 1
  let significand := x.units / Nat.pow 2 exponent
  if 1074 ≤ exponent then ⟨x.units / Nat.pow 2 1074, 0⟩
  else ⟨significand * Nat.pow 5 (1074 - exponent), 1074 - exponent⟩

/-- Of the two multiples of `step` around `d`, the nearer that reads back; the greater at a
tie. -/
def neighbour? (readsBack : Decimal → Bool) (d : Decimal) (step : Nat) : Option Decimal :=
  let below : Decimal := ⟨d.coefficient / step * step, d.places⟩
  let above : Decimal := ⟨below.coefficient + step, d.places⟩
  match readsBack below, readsBack above with
  | true, true =>
    if d.coefficient - below.coefficient < above.coefficient - d.coefficient
    then some below else some above
  | true, false => some below
  | false, true => some above
  | false, false => none

/-- Tries coarse grids first: the steps `10 ^ (n - 1)`, …, `10`, `1`. The finest has the
exact value itself. -/
def coarsest (readsBack : Decimal → Bool) (d : Decimal) : Nat → Decimal
  | 0 => d
  | n + 1 =>
    match neighbour? readsBack d (Nat.pow 10 n) with
    | some found => found
    | none => coarsest readsBack d n

/-- The shortest decimal that reads back as the absolute value of a finite number, and of
those the nearest to it. -/
def shortest (x : Number) : Decimal :=
  let d := x.exact
  let unsigned := ofMagnitude x.magnitude
  coarsest (fun e => decide (ofDecimal e = unsigned)) d (Nat.toDigits 10 d.coefficient).length

/-! ## Text -/

/-- A number as text: positional and shortest, with a sign also at a negative zero. -/
def text (x : Number) : String :=
  if x.isNaN then "NaN"
  else
    let unsigned :=
      if x.isInfinite then ['i', 'n', 'f'] else x.shortest.digits
    String.ofList (if x.isNegative then '-' :: unsigned else unsigned)

end Number

end Treewalk
