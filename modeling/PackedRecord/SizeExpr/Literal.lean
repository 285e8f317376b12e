/-!
# Integer literals

A literal is a sequence of digits, which underscores may separate. `0x`, `0o` and `0b` in front
select the radix 16, 8 or 2, and so does a lone `0` in front of more characters for the radix 8.
Letters count the same in both cases. The value has to be less than `2 ^ 63`.
-/

namespace PackedRecord.Literal

-- Powers are those of the core library, whichever others are in scope.
attribute [local instance (high)] instPowNat

/-- The radix of a literal in lower case, and what follows the marks of the radix. -/
def splitRadix : List Char → Nat × List Char
  | '0' :: 'x' :: digits => (16, digits)
  | '0' :: 'o' :: digits => (8, digits)
  | '0' :: 'b' :: digits => (2, digits)
  | '0' :: digit :: digits => (8, digit :: digits)
  | digits => (10, digits)

/-- The value of a digit or lower-case letter, if it is less than the radix. -/
def digitValue? (radix : Nat) (c : Char) : Option Nat :=
  let value? :=
    if '0' ≤ c ∧ c ≤ '9' then some (c.toNat - '0'.toNat)
    else if 'a' ≤ c ∧ c ≤ 'z' then some (c.toNat - 'a'.toNat + 10)
    else none
  value?.filter (· < radix)

/-- The number that `digits` continue after the digits of `leading`. -/
def readDigits (radix : Nat) : (leading : Nat) → List Char → Option Nat
  | leading, [] => some leading
  | leading, c :: digits =>
      (digitValue? radix c).bind fun digit => readDigits radix (radix * leading + digit) digits

/-- The value of a literal. -/
def value? (token : List Char) : Option Nat :=
  let (radix, rest) := splitRadix (token.map Char.toLower)
  match rest.filter (· != '_') with
  | [] => none
  | digits => (readDigits radix 0 digits).filter (· < 2 ^ (63 : Nat))

end PackedRecord.Literal
