import PackedRecord.BinaryFormat.Basic

/-!
# Shortest decimal digits

The text of a floating-point number: the fewest decimal digits that round back to the number, of
those the nearest to it, and of two equally near ones the greater in size. The digits are written
positionally, never with an exponent.
-/

namespace PackedRecord

-- Powers are those of the core library, whichever others are in scope.
attribute [local instance (high)] instPowNat

/-- A decimal number: an integer times a power of ten. -/
structure Decimal where
  digits : Nat
  exponent : Int
  deriving DecidableEq, Repr

/-- The decimal number in positional notation, without zeros at the end of the fraction. -/
def Decimal.toText (decimal : Decimal) : String :=
  let digits := Nat.toDigits 10 decimal.digits
  if 0 ≤ decimal.exponent then
    String.ofList (digits ++ List.replicate decimal.exponent.toNat '0')
  else
    let places := (-decimal.exponent).toNat
    let padded := List.replicate (places + 1 - digits.length) '0' ++ digits
    let whole := padded.take (padded.length - places)
    let fraction := ((padded.drop (padded.length - places)).reverse.dropWhile (· == '0')).reverse
    String.ofList (if fraction.isEmpty then whole else whole ++ '.' :: fraction)

namespace BinaryFormat

variable (format : BinaryFormat)

/-- The numbers that round to a given finite number lie between two bounds, which count half units
and belong to the interval if the pattern is even. -/
structure RoundingInterval where
  low : Nat
  middle : Nat
  high : Nat
  closed : Bool

/-- The interval of numbers that round to a finite number other than zero. The gap to the number
below is half as wide where the exponent changes. -/
def roundingInterval (bits : Nat) : RoundingInterval :=
  let exponent := format.magnitude bits / 2 ^ format.fractionBits
  let fraction := format.magnitude bits % 2 ^ format.fractionBits
  let gap := 2 ^ (exponent - 1)
  let gapBelow := if fraction = 0 ∧ 1 < exponent then gap / 2 else gap
  let middle := 2 * format.units bits
  ⟨middle - gapBelow, middle, middle + gap, format.magnitude bits % 2 = 0⟩

/-- Whether `point / scale` half units lie in the interval. -/
def RoundingInterval.contains (interval : RoundingInterval) (scale point : Nat) : Bool :=
  if interval.closed then interval.low * scale ≤ point && point ≤ interval.high * scale
  else interval.low * scale < point && point < interval.high * scale

/-- How many decimal digits a natural number has. -/
def digitCount (n : Nat) : Nat := (Nat.toDigits 10 n).length

/-- The least power of ten that is greater than `n / divisor`, for `n` other than zero. -/
def magnitudeOfTen (n divisor : Nat) : Int :=
  if divisor ≤ n then digitCount (n / divisor)
  else 1 - (digitCount ((divisor - 1) / n) : Int)

/-- The multiple of ten to the power of `exponent` that lies in the interval next to its middle,
below or above; of two the nearer one, and the one above if they are equally near. -/
def multipleIn? (interval : RoundingInterval) (exponent : Int) : Option Decimal :=
  let scale := 10 ^ (-exponent).toNat
  let step := 10 ^ exponent.toNat * 2 ^ (format.unitExponent + 1)
  let below := interval.middle * scale / step
  let above := below + 1
  match interval.contains scale (below * step), interval.contains scale (above * step) with
  | true, true =>
      if interval.middle * scale - below * step < above * step - interval.middle * scale then
        some ⟨below, exponent⟩
      else some ⟨above, exponent⟩
  | true, false => some ⟨below, exponent⟩
  | false, true => some ⟨above, exponent⟩
  | false, false => none

/-- The shortest decimal number that rounds to a finite number other than zero. Seventeen digits
are enough for both formats. -/
def shortest (bits : Nat) : Decimal :=
  let interval := format.roundingInterval bits
  let top := magnitudeOfTen interval.middle (2 ^ (format.unitExponent + 1))
  let found := (List.range 17).findSome? fun count =>
    format.multipleIn? interval (top - (count + 1 : Nat))
  found.getD ⟨0, 0⟩

/-- The text of a floating-point number. -/
def toText (bits : Nat) : String :=
  if format.isNan bits then "NaN"
  else
    let sign := if format.isNegative bits then "-" else ""
    if format.magnitude bits = 0 then sign ++ "0"
    else if format.isFinite bits then sign ++ (format.shortest bits).toText
    else sign ++ "inf"

end BinaryFormat

end PackedRecord
