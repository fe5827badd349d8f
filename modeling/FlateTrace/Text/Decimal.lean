import FlateTrace.Text.Dyadic

/-! # Decimal text of floating-point numbers

A number is written in two ways: with two decimal places, rounded exactly, or with
the fewest digits that read back as the same number. For the latter the grids of
decimals with one digit, two digits and so on are tried in turn. On each grid only
the two neighbours of the number can read back; the first grid on which one of them
does gives the digits, and the nearer one of two wins.

The fewest digits are laid out in positional notation for numbers from `10 ^ -5` up
to `10 ^ 16`, always with a decimal point, and in scientific notation otherwise.
-/

namespace FlateTrace.Text

/-- The number `digits * 10 ^ exponent`. -/
structure Decimal where
  digits : Nat
  exponent : Int
  deriving DecidableEq, Repr

namespace Decimal

/-- The fraction that a decimal is. -/
def toFraction (decimal : Decimal) : Fraction :=
  Fraction.scale { numerator := decimal.digits, denominator := 1 } decimal.exponent

/-- Number of digits of a positive integer. -/
def digitCount (number : Nat) : Nat :=
  (Nat.toDigits 10 number).length

/-- The exponent of the least power of ten above a positive fraction. -/
def magnitude (value : Fraction) : Int :=
  if value.denominator ≤ value.numerator then digitCount value.floor
  else
    let inverse := (value.denominator - 1) / value.numerator
    1 - (digitCount inverse : Int)

/-- The neighbour of a number on the grid of multiples of `10 ^ exponent` that reads
back as the number; the nearer one of two, and the even one of two equally near. -/
def onGrid? (number : Dyadic) (exponent : Int) : Option Decimal :=
  let scaled := number.value.scale (-exponent)
  let below : Decimal := { digits := scaled.floor, exponent }
  let above : Decimal := { digits := scaled.floor + 1, exponent }
  match number.isNearest below.toFraction, number.isNearest above.toFraction with
  | true, true => some { digits := scaled.roundEven, exponent }
  | true, false => some below
  | false, true => some above
  | false, false => none

/-- Try grids with more and more digits, `tries` of them, the first one with
multiples of `10 ^ exponent`. -/
def search? (number : Dyadic) : (tries : Nat) → (exponent : Int) → Option Decimal
  | 0, _ => none
  | tries + 1, exponent =>
      (onGrid? number exponent).or (search? number tries (exponent - 1))

/-- Move the zeros at the end of the digits into the exponent; at most `count` of
them. -/
def trimZeros : (count : Nat) → Decimal → Decimal
  | 0, decimal => decimal
  | count + 1, decimal =>
      if decimal.digits % 10 = 0 then
        trimZeros count { digits := decimal.digits / 10, exponent := decimal.exponent + 1 }
      else decimal

/-- The decimal that a number is. -/
def exact (number : Dyadic) : Decimal :=
  { digits := number.mantissa * 2 ^ number.exponent.toNat * 5 ^ (-number.exponent).toNat
    exponent := min number.exponent 0 }

/-- The decimal with the fewest digits that reads back as a positive number. Seventeen
digits always do. -/
def shortest (number : Dyadic) : Decimal :=
  match search? number 17 (magnitude number.value - 1) with
  | some decimal => trimZeros 17 decimal
  | none => exact number

/-- Digits with a decimal point before the last `places` of them, of which there are
as many zeros as needed. -/
def withPoint (places : Nat) (digits : List Char) : String :=
  let padded := List.replicate (places + 1 - digits.length) '0' ++ digits
  String.ofList
    (padded.take (padded.length - places) ++ '.' :: padded.drop (padded.length - places))

/-- The layout of a decimal whose digits do not end in zero. -/
def layout (decimal : Decimal) : String :=
  let digits := Nat.toDigits 10 decimal.digits
  let point := digits.length + decimal.exponent
  if 0 ≤ decimal.exponent ∧ point ≤ 16 then
    String.ofList (digits ++ List.replicate decimal.exponent.toNat '0') ++ ".0"
  else if decimal.exponent < 0 ∧ -5 < point ∧ point ≤ 16 then
    withPoint (-decimal.exponent).toNat digits
  else
    let mantissa :=
      if digits.length = 1 then String.ofList digits else withPoint (digits.length - 1) digits
    mantissa ++ "e" ++ toString (point - 1)

end Decimal

/-- The text of a finite, non-negative number with the fewest digits. -/
def shortestText (number : Float) : String :=
  let number := Dyadic.ofBits number.toBits
  if number.mantissa = 0 then "0.0" else (Decimal.shortest number).layout

/-- The text of a finite, non-negative number with two decimal places. The exact
value is rounded, and a value in the middle goes to the even neighbour. -/
def twoPlaces (number : Float) : String :=
  let hundredths := ((Dyadic.ofBits number.toBits).value.scale 2).roundEven
  Decimal.withPoint 2 (Nat.toDigits 10 hundredths)

end FlateTrace.Text
