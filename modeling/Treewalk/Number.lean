/-!
# Numbers

A number is a double-precision floating-point value, kept as its 64 bits: a sign, eleven
bits of exponent and fifty-two of fraction. Equality of `Number`s is equality of bits;
`Number.equals` compares as numbers, so that the two zeros are equal and a NaN differs
from everything.

Every finite magnitude is a whole multiple of `2 ^ -1074`, and `Number.units` says which.
-/

namespace Treewalk

/-- A double-precision value, given by its bits. -/
structure Number where
  bits : UInt64
  deriving DecidableEq, Inhabited

namespace Number

/-- The bits without the sign, as a natural number. Magnitudes are ordered as these are. -/
def magnitude (x : Number) : Nat :=
  -- `Nat.pow` is the same function in every context; what `^` stands for depends on the imports.
  x.bits.toNat % Nat.pow 2 63

/-- The magnitude of the infinities; finite values lie below it and NaNs above. -/
def infiniteMagnitude : Nat := 0x7ff * Nat.pow 2 52

def isNegative (x : Number) : Bool :=
  Nat.pow 2 63 ≤ x.bits.toNat

def isNaN (x : Number) : Bool :=
  infiniteMagnitude < x.magnitude

def isInfinite (x : Number) : Bool :=
  x.magnitude = infiniteMagnitude

def isFinite (x : Number) : Bool :=
  x.magnitude < infiniteMagnitude

/-- The number without a sign whose magnitude is the given one. -/
def ofMagnitude (m : Nat) : Number :=
  ⟨UInt64.ofNat m⟩

/-- The absolute value of a finite number in units of `2 ^ -1074`. A zero exponent field
has no hidden bit. -/
def units (x : Number) : Nat :=
  let exponent := x.magnitude / Nat.pow 2 52
  let fraction := x.magnitude % Nat.pow 2 52
  if exponent = 0 then fraction else (Nat.pow 2 52 + fraction) * Nat.pow 2 (exponent - 1)

/-! ## Arithmetic and order -/

def toFloat (x : Number) : Float :=
  Float.ofBits x.bits

def ofFloat (x : Float) : Number :=
  ⟨x.toBits⟩

def add (x y : Number) : Number := ofFloat (x.toFloat + y.toFloat)

def sub (x y : Number) : Number := ofFloat (x.toFloat - y.toFloat)

def mul (x y : Number) : Number := ofFloat (x.toFloat * y.toFloat)

def div (x y : Number) : Number := ofFloat (x.toFloat / y.toFloat)

/-- Negation turns the sign bit over and changes nothing else. -/
def neg (x : Number) : Number := ⟨x.bits ^^^ 0x8000000000000000⟩

instance : Add Number := ⟨add⟩
instance : Sub Number := ⟨sub⟩
instance : Mul Number := ⟨mul⟩
instance : Div Number := ⟨div⟩
instance : Neg Number := ⟨neg⟩

/-- Equality as numbers: false at a NaN, true of the two zeros. -/
def equals (x y : Number) : Bool := x.toFloat == y.toFloat

/-- Strict order, false where either side is a NaN. -/
def less (x y : Number) : Bool := x.toFloat < y.toFloat

/-- Order or equality, false where either side is a NaN. -/
def atMost (x y : Number) : Bool := x.toFloat ≤ y.toFloat

end Number

end Treewalk
