import PackedRecord.Bytes
import PackedRecord.Defect

/-!
# Byte order

A scalar travels as a 64-bit image, of which the low bytes are written in one of two orders.
`ByteOrder.toNat_bytes` says that reading what was written gives the image modulo the width.
-/

namespace PackedRecord

-- Powers are those of the core library, whichever others are in scope.
attribute [local instance (high)] instPowNat

/-- The order in which the bytes of a scalar stand on the wire. -/
inductive ByteOrder where
  | bigEndian
  | littleEndian
  deriving DecidableEq, Repr

/-- Whether scalars of this many bytes exist. -/
def isScalarWidth (width : Nat) : Bool :=
  width == 1 || width == 2 || width == 4 || width == 8

namespace ByteOrder

/-- The `width` low bytes of `n` in this order. -/
def bytes (order : ByteOrder) (width n : Nat) : Bytes :=
  match order with
  | littleEndian => Bytes.ofNat width n
  | bigEndian => (Bytes.ofNat width n).reverse

/-- The number that `data` stands for in this order. -/
def toNat (order : ByteOrder) (data : Bytes) : Nat :=
  match order with
  | littleEndian => Bytes.toNat data
  | bigEndian => Bytes.toNat data.reverse

/-- The low `width` bytes of a scalar image; only the widths of scalars are allowed. -/
def put (order : ByteOrder) (width : Nat) (image : UInt64) : Except Defect Bytes :=
  if isScalarWidth width then .ok (order.bytes width image.toNat)
  else .error (.scalarWidth width)

/-- The scalar image that `data` stands for, extended with zeros. -/
def get (order : ByteOrder) (data : Bytes) : Except Defect UInt64 :=
  if isScalarWidth data.length then .ok (UInt64.ofNat (order.toNat data))
  else .error (.scalarWidth data.length)

/-- A number takes as many bytes as its width says, in either order. -/
@[simp] theorem length_bytes (order : ByteOrder) (width n : Nat) :
    (order.bytes width n).length = width := by
  cases order <;> simp [bytes]

/-- What is read back in the same order is the number modulo what the width can hold. -/
theorem toNat_bytes (order : ByteOrder) (width n : Nat) :
    order.toNat (order.bytes width n) = n % 256 ^ width := by
  cases order <;> simp [bytes, toNat, Bytes.toNat_ofNat]

/-- The bytes of the number that bytes stand for are those bytes again. -/
theorem bytes_toNat (order : ByteOrder) (data : Bytes) :
    order.bytes data.length (order.toNat data) = data := by
  cases order with
  | littleEndian => exact Bytes.ofNat_toNat data
  | bigEndian =>
      have hdigits := Bytes.ofNat_toNat data.reverse
      rw [List.length_reverse] at hdigits
      simp [bytes, toNat, hdigits]

end ByteOrder

end PackedRecord
