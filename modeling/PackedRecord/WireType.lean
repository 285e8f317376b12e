import PackedRecord.Bytes

/-!
# Wire types

The catalogue of binary representations that a field tag can name. Every type has a name, a kind
and, where it is of fixed width, a size in bytes and a range of representable integers. The
framed text types add a length field or a terminator.
-/

namespace PackedRecord

-- Powers are those of the core library, whichever others are in scope.
attribute [local instance (high)] instPowNat

/-- A binary representation that a tag can select. -/
inductive WireType where
  | int8 | int16 | int32 | int64
  | uint8 | uint16 | uint32 | uint64
  | byte | word | dword | qword
  | float32 | float64
  | string | bstring | wstring | dwstring | zstring | z16string
  | struct | pad | ignore | any
  deriving DecidableEq, Repr

/-- What the values of a wire type are. A bitmap is sign agnostic: it carries raw bits. -/
inductive WireKind where
  | signed | unsigned | bitmap | float | text | record | pad | ignore | any
  deriving DecidableEq, Repr

namespace WireType

/-- Every wire type, in catalogue order. -/
def all : List WireType :=
  [int8, int16, int32, int64, uint8, uint16, uint32, uint64, byte, word, dword, qword,
    float32, float64, string, bstring, wstring, dwstring, zstring, z16string,
    struct, pad, ignore, any]

/-- The name that selects the type in a tag, in lower case. -/
def name : WireType → String
  | int8 => "int8" | int16 => "int16" | int32 => "int32" | int64 => "int64"
  | uint8 => "uint8" | uint16 => "uint16" | uint32 => "uint32" | uint64 => "uint64"
  | byte => "byte" | word => "word" | dword => "dword" | qword => "qword"
  | float32 => "float32" | float64 => "float64"
  | string => "string" | bstring => "bstring" | wstring => "wstring" | dwstring => "dwstring"
  | zstring => "zstring" | z16string => "z16string"
  | struct => "struct" | pad => "pad" | ignore => "ignore" | any => "any"

/-- The type called `name`; the case of ASCII letters does not matter. -/
def ofName? (name : String) : Option WireType :=
  all.find? fun wire => wire.name == name.toLower

/-- The kind of values that the type carries. -/
def kind : WireType → WireKind
  | int8 | int16 | int32 | int64 => .signed
  | uint8 | uint16 | uint32 | uint64 => .unsigned
  | byte | word | dword | qword => .bitmap
  | float32 | float64 => .float
  | string | bstring | wstring | dwstring | zstring | z16string => .text
  | struct => .record
  | pad => .pad
  | ignore => .ignore
  | any => .any

/-- The encoded size of a type of fixed width, and 0 for every other type. -/
def byteSize : WireType → Nat
  | int8 | uint8 | byte => 1
  | int16 | uint16 | word => 2
  | int32 | uint32 | dword | float32 => 4
  | int64 | uint64 | qword | float64 => 8
  | _ => 0

/-- The least and the greatest integer of an integer or bitmap type. A bitmap reports the union of
the signed and the unsigned range of its width. -/
def range? (wire : WireType) : Option (Int × Int) :=
  let bits := 8 * wire.byteSize
  match wire.kind with
  | .signed => some (-2 ^ (bits - 1), 2 ^ (bits - 1) - 1)
  | .unsigned => some (0, 2 ^ bits - 1)
  | .bitmap => some (-2 ^ (bits - 1), 2 ^ bits - 1)
  | _ => none

/-- Whether values of the type are scalars. -/
def isNumeric (wire : WireType) : Bool :=
  match wire.kind with
  | .signed | .unsigned | .bitmap | .float => true
  | _ => false

/-- Whether values of the type are strings. -/
def isText (wire : WireType) : Bool :=
  wire.kind = .text

/-- No wire type is one of scalars and of strings. -/
theorem isText_of_isNumeric {wire : WireType} (h : wire.isNumeric = true) :
    wire.isText = false := by
  revert h
  cases wire <;> decide

/-- The size in bytes of the length field in front of a length-prefixed string. -/
def lengthSize? : WireType → Option Nat
  | bstring => some 1
  | wstring => some 2
  | dwstring => some 4
  | _ => none

/-- The greatest length that a length field of `size` bytes can hold. -/
def maxLength (size : Nat) : Nat :=
  256 ^ size - 1

/-- The offset of the first zero word that starts at an even offset. -/
def zeroWordIn : Bytes → Option Nat
  | first :: second :: rest =>
      if first = 0 ∧ second = 0 then some 0 else (zeroWordIn rest).map (· + 2)
  | _ => none

/-- The offset of the first terminator in `data` for a type that ends its strings with one: a zero
byte for `zstring`, a zero word at an even offset for `z16string`. -/
def terminatorIn (wire : WireType) (data : Bytes) : Option Nat :=
  match wire with
  | zstring => data.findIdx? (· == 0)
  | z16string => zeroWordIn data
  | _ => none

end WireType

end PackedRecord
