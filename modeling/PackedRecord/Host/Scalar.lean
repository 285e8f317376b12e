import PackedRecord.BinaryFormat.Shortest
import PackedRecord.WireType

/-!
# Host scalars

The numbers and truth values that a program holds: integers of ten types, each value within the
range of its type, truth values, and floating-point numbers as bit patterns.
-/

namespace PackedRecord

-- Powers are those of the core library, whichever others are in scope.
attribute [local instance (high)] instPowNat

/-- An integer type of the host. The pointer-sized types are 64 bits wide. -/
inductive IntType where
  | i8 | i16 | i32 | i64 | isize
  | u8 | u16 | u32 | u64 | usize
  deriving DecidableEq, Repr

namespace IntType

/-- The name of the type. -/
def name : IntType → String
  | i8 => "i8" | i16 => "i16" | i32 => "i32" | i64 => "i64" | isize => "isize"
  | u8 => "u8" | u16 => "u16" | u32 => "u32" | u64 => "u64" | usize => "usize"

/-- The size of a value in bytes. -/
def width : IntType → Nat
  | i8 | u8 => 1
  | i16 | u16 => 2
  | i32 | u32 => 4
  | i64 | isize | u64 | usize => 8

/-- Whether the type has negative values. -/
def isSigned : IntType → Bool
  | i8 | i16 | i32 | i64 | isize => true
  | _ => false

/-- The least value. -/
def least (type : IntType) : Int :=
  if type.isSigned then -2 ^ (8 * type.width - 1) else 0

/-- The greatest value. -/
def greatest (type : IntType) : Int :=
  if type.isSigned then 2 ^ (8 * type.width - 1) - 1 else 2 ^ (8 * type.width) - 1

/-- `value` lies in the range of the type. -/
def Holds (type : IntType) (value : Int) : Prop :=
  type.least ≤ value ∧ value ≤ type.greatest

instance (type : IntType) (value : Int) : Decidable (type.Holds value) :=
  inferInstanceAs (Decidable (_ ∧ _))

/-- Zero is in the range of every integer type. -/
theorem holds_zero (type : IntType) : type.Holds 0 := by
  cases type <;> decide

end IntType

/-- An integer of a host type. -/
structure HostInt where
  type : IntType
  value : Int
  holds : type.Holds value
  deriving DecidableEq, Repr

/-- `value` as an integer of the type, if it lies in its range. -/
def HostInt.ofInt? (type : IntType) (value : Int) : Option HostInt :=
  if h : type.Holds value then some ⟨type, value, h⟩ else none

/-- The type of a scalar. -/
inductive ScalarType where
  | bool
  | int (type : IntType)
  | f32
  | f64
  deriving DecidableEq, Repr

namespace ScalarType

/-- The name of the type. -/
def name : ScalarType → String
  | bool => "bool"
  | int type => type.name
  | f32 => "f32"
  | f64 => "f64"

/-- The size of a value in bytes. -/
def width : ScalarType → Nat
  | bool => 1
  | int type => type.width
  | f32 => 4
  | f64 => 8

/-- Whether the type is a signed integer type. -/
def isSigned : ScalarType → Bool
  | int type => type.isSigned
  | _ => false

/-- The wire type of the same width and kind. -/
def natural : ScalarType → WireType
  | bool => .uint8
  | int .i8 => .int8 | int .i16 => .int16 | int .i32 => .int32
  | int .i64 => .int64 | int .isize => .int64
  | int .u8 => .uint8 | int .u16 => .uint16 | int .u32 => .uint32
  | int .u64 => .uint64 | int .usize => .uint64
  | f32 => .float32
  | f64 => .float64

end ScalarType

/-- A scalar. Floating-point numbers are their bit patterns. -/
inductive Scalar where
  | bool (value : Bool)
  | int (value : HostInt)
  | f32 (bits : UInt32)
  | f64 (bits : UInt64)
  deriving DecidableEq, Repr

namespace Scalar

/-- The type of the scalar. -/
def type : Scalar → ScalarType
  | bool _ => .bool
  | int value => .int value.type
  | f32 _ => .f32
  | f64 _ => .f64

/-- False or zero. -/
def zero : ScalarType → Scalar
  | .bool => bool false
  | .int type => int ⟨type, 0, type.holds_zero⟩
  | .f32 => f32 0
  | .f64 => f64 0

/-- A byte as a scalar. -/
def ofByte (byte : UInt8) : Scalar :=
  int ⟨.u8, byte.toNat, by
    have hbyte := byte.toNat_lt
    change (0 : Int) ≤ byte.toNat ∧ (byte.toNat : Int) ≤ 255
    omega⟩

/-- The byte that the scalar is, if its type is that of bytes. -/
def byte? : Scalar → Option UInt8
  | int ⟨.u8, value, _⟩ => some (UInt8.ofNat value.toNat)
  | _ => none

/-- The value of an integer or a truth value as an integer; nothing for a floating-point
number. -/
def integer? : Scalar → Option Int
  | bool value => some (if value then 1 else 0)
  | int value => some value.value
  | f32 _ | f64 _ => none

/-- The text of the scalar. -/
def toText : Scalar → String
  | bool value => if value then "true" else "false"
  | int value => toString value.value
  | f32 bits => BinaryFormat.binary32.toText bits.toNat
  | f64 bits => BinaryFormat.binary64.toText bits.toNat

/-- The zero of a type has that type. -/
@[simp] theorem type_zero (type : ScalarType) : (zero type).type = type := by
  cases type <;> rfl

/-- The scalar that holds a byte gives that byte back. -/
@[simp] theorem byte?_ofByte (byte : UInt8) : (ofByte byte).byte? = some byte := by
  simp [ofByte, byte?]

end Scalar

end PackedRecord
