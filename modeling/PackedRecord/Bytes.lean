/-!
# Bytes

Byte strings and the digits of a natural number to base 256. `length_ofNat`, `toNat_ofNat` and
`ofNat_toNat` say that writing `width` digits and reading them back keeps a number modulo
`256 ^ width`, and that every byte string is the digits of its number.
-/

namespace PackedRecord

-- Powers are those of the core library, whichever others are in scope.
attribute [local instance (high)] instPowNat

/-- A byte string. -/
abbrev Bytes := List UInt8

namespace Bytes

/-- The `width` low digits of `n` to base 256, least significant first. -/
def ofNat : (width : Nat) → Nat → Bytes
  | 0, _ => []
  | width + 1, n => UInt8.ofNat (n % 256) :: ofNat width (n / 256)

/-- The number whose digits to base 256 are given, least significant first. -/
def toNat : Bytes → Nat
  | [] => 0
  | digit :: rest => digit.toNat + 256 * toNat rest

/-- The bytes of a number are as many as its width. -/
@[simp] theorem length_ofNat (width n : Nat) : (ofNat width n).length = width := by
  induction width generalizing n with
  | zero => rfl
  | succ width ih => simp [ofNat, ih]

/-- The bytes of a number stand for it modulo what the width can hold. -/
theorem toNat_ofNat (width n : Nat) : toNat (ofNat width n) = n % 256 ^ width := by
  induction width generalizing n with
  | zero => simp [ofNat, toNat, Nat.mod_one]
  | succ width ih =>
      have hdigit : (UInt8.ofNat (n % 256)).toNat = n % 256 := by simp
      rw [ofNat, toNat, ih, hdigit, Nat.pow_succ', Nat.mod_mul]

/-- Bytes stand for a number below the power of their count. -/
theorem toNat_lt (data : Bytes) : toNat data < 256 ^ data.length := by
  induction data with
  | nil => simp [toNat]
  | cons digit rest ih =>
      have hdigit : digit.toNat < 256 := digit.toNat_lt
      rw [toNat, List.length_cons, Nat.pow_succ]
      omega

/-- The bytes of the number that bytes stand for are those bytes again. -/
theorem ofNat_toNat (data : Bytes) : ofNat data.length (toNat data) = data := by
  induction data with
  | nil => rfl
  | cons digit rest ih =>
      have hdigit : digit.toNat < 256 := digit.toNat_lt
      have hlow : (digit.toNat + 256 * toNat rest) % 256 = digit.toNat := by omega
      have hhigh : (digit.toNat + 256 * toNat rest) / 256 = toNat rest := by omega
      rw [List.length_cons, ofNat, toNat, hlow, hhigh, ih, UInt8.ofNat_toNat]

/-- `data` without the zero bytes at its end. -/
def dropTrailingZeros (data : Bytes) : Bytes :=
  (data.reverse.dropWhile (· == 0)).reverse

end Bytes

end PackedRecord
