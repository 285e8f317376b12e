/-!
# Binary floating-point formats

IEEE 754 binary formats on bit patterns, computed exactly. A finite number is a sign and a natural
number of units, where the unit is the least positive number of the format. Conversions round to
the nearest number, a tie to the even pattern, and keep the sign and the payload of a NaN.
-/

namespace PackedRecord

-- Powers are those of the core library, whichever others are in scope.
attribute [local instance (high)] instPowNat

/-- A binary format: the widths of its fraction and exponent fields. -/
structure BinaryFormat where
  fractionBits : Nat
  exponentBits : Nat
  deriving DecidableEq, Repr

namespace BinaryFormat

/-- The 32-bit format. -/
def binary32 : BinaryFormat := ⟨23, 8⟩

/-- The 64-bit format. -/
def binary64 : BinaryFormat := ⟨52, 11⟩

variable (format : BinaryFormat)

/-- The pattern of the sign alone. -/
def signBit : Nat := 2 ^ (format.fractionBits + format.exponentBits)

/-- The pattern of positive infinity. Greater patterns without sign are NaNs. -/
def infinity : Nat := (2 ^ format.exponentBits - 1) * 2 ^ format.fractionBits

/-- The unit is two to the power of minus this number. -/
def unitExponent : Nat := 2 ^ (format.exponentBits - 1) - 2 + format.fractionBits

/-- The pattern without its sign. -/
def magnitude (bits : Nat) : Nat := bits % format.signBit

/-- Whether the sign of the pattern is set. -/
def isNegative (bits : Nat) : Bool := bits / format.signBit % 2 == 1

/-- Whether the pattern is neither an infinity nor a NaN. -/
def isFinite (bits : Nat) : Bool := format.magnitude bits < format.infinity

/-- Whether the pattern is a NaN. -/
def isNan (bits : Nat) : Bool := format.infinity < format.magnitude bits

/-- The size of a finite number in units. -/
def units (bits : Nat) : Nat :=
  let exponent := format.magnitude bits / 2 ^ format.fractionBits
  let fraction := format.magnitude bits % 2 ^ format.fractionBits
  if exponent = 0 then fraction else (2 ^ format.fractionBits + fraction) * 2 ^ (exponent - 1)

/-- The quotient rounded to the nearest natural number, a tie to the even one. -/
def divRoundEven (n divisor : Nat) : Nat :=
  let quotient := n / divisor
  let remainder := n % divisor
  if 2 * remainder > divisor ∨ (2 * remainder = divisor ∧ quotient % 2 = 1) then quotient + 1
  else quotient

/-- The pattern without sign that is nearest to `n / 2 ^ shift` units. As many low bits are rounded
off as the fraction cannot hold, and the `shift` bits below the unit in any case. A carry out of
the fraction falls into the exponent, and what is too great is infinite. -/
def nearest (n shift : Nat) : Nat :=
  let dropped := max (n.log2 - format.fractionBits) shift
  min format.infinity
    ((dropped - shift) * 2 ^ format.fractionBits + divRoundEven n (2 ^ dropped))

/-- The pattern with the given sign. -/
def withSign (negative : Bool) (magnitude : Nat) : Nat :=
  if negative then format.signBit + magnitude else magnitude

/-- The number nearest to an integer. -/
def ofInt (value : Int) : Nat :=
  format.withSign (decide (value < 0)) (format.nearest (value.natAbs * 2 ^ format.unitExponent) 0)

/-- The number in the format `target` that is nearest to a number in this format. A NaN becomes
quiet and keeps the high bits of its payload. -/
def convert (target : BinaryFormat) (bits : Nat) : Nat :=
  target.withSign (format.isNegative bits) <|
    if format.isNan bits then
      let fraction := format.magnitude bits % 2 ^ format.fractionBits
      let payload := fraction * 2 ^ target.fractionBits / 2 ^ format.fractionBits
      let quiet := 2 ^ (target.fractionBits - 1)
      target.infinity + (if payload < quiet then payload + quiet else payload)
    else if format.isFinite bits then
      target.nearest (format.units bits * 2 ^ target.unitExponent) format.unitExponent
    else target.infinity

/-- The integer part of a finite number. -/
def truncate? (bits : Nat) : Option Int :=
  if format.isFinite bits then
    let whole : Int := Int.ofNat (format.units bits / 2 ^ format.unitExponent)
    some (if format.isNegative bits then -whole else whole)
  else none

end BinaryFormat

end PackedRecord
