import FlateTrace.Bytes

/-! # Floating-point numbers as exact fractions

A finite, non-negative double is an integer times a power of two. The reals that are
rounded to it lie between the midpoints to its two neighbours; the midpoints belong
to them when the integer is even.
-/

namespace FlateTrace.Text

/-- A fraction whose denominator is positive. -/
structure Fraction where
  numerator : Nat
  denominator : Nat
  deriving Repr

namespace Fraction

/-- The fraction times a power of ten. -/
def scale (value : Fraction) (exponent : Int) : Fraction :=
  { numerator := value.numerator * 10 ^ exponent.toNat
    denominator := value.denominator * 10 ^ (-exponent).toNat }

/-- The largest integer that is not above the fraction. -/
def floor (value : Fraction) : Nat :=
  value.numerator / value.denominator

/-- Whether one fraction is less than another. -/
def below (first second : Fraction) : Bool :=
  first.numerator * second.denominator < second.numerator * first.denominator

/-- The nearest integer; of two equally near ones the even one. -/
def roundEven (value : Fraction) : Nat :=
  let floor := value.floor
  let twice : Nat := 2 * (value.numerator % value.denominator)
  if twice < value.denominator then floor
  else if value.denominator < twice then floor + 1
  else floor + floor % 2

end Fraction

/-- A finite, non-negative double `mantissa * 2 ^ exponent`. -/
structure Dyadic where
  mantissa : Nat
  exponent : Int
  /-- Whether the neighbour below is half as far away as the one above. -/
  narrowBelow : Bool
  deriving Repr

namespace Dyadic

/-- The number that the bits of a finite, non-negative double stand for. -/
def ofBits (bits : UInt64) : Dyadic :=
  let field : Nat := bits.toNat / 2 ^ 52 % 2 ^ 11
  let fraction : Nat := bits.toNat % 2 ^ 52
  if field = 0 then { mantissa := fraction, exponent := -1074, narrowBelow := false }
  else
    { mantissa := 2 ^ 52 + fraction
      exponent := (field : Int) - 1075
      narrowBelow := fraction = 0 ∧ 1 < field }

/-- The number plus some quarters of the distance to its neighbour above. -/
def plusQuarters (number : Dyadic) (quarters : Int) : Fraction :=
  let exponent := number.exponent - 2
  { numerator := (4 * (number.mantissa : Int) + quarters).toNat * 2 ^ exponent.toNat
    denominator := 2 ^ (-exponent).toNat }

/-- The number itself. -/
def value (number : Dyadic) : Fraction :=
  number.plusQuarters 0

/-- Whether a fraction is rounded to the number. -/
def isNearest (number : Dyadic) (fraction : Fraction) : Bool :=
  let low := number.plusQuarters (if number.narrowBelow then -1 else -2)
  let high := number.plusQuarters 2
  if number.mantissa % 2 = 0 then !fraction.below low && !high.below fraction
  else low.below fraction && fraction.below high

end Dyadic

end FlateTrace.Text
