import PackedRecord.Host.Scalar

/-!
# Scalar images

The conversion between a host scalar and the 64-bit image of a numeric wire type, whose low bytes
are what is written. Integer wire types check their range in both directions. Bitmaps carry raw
bits: writing takes the low bytes of the two's complement, and reading extends them with the sign
if the destination is a signed integer no wider than the bitmap, and with zeros otherwise.
-/

namespace PackedRecord

-- Powers are those of the core library, whichever others are in scope.
attribute [local instance (high)] instPowNat

/-- A number on its way between a host scalar and an image. A floating-point number is the pattern
of a 64-bit one. -/
inductive Number where
  | int (value : Int)
  | float (bits : UInt64)
  deriving DecidableEq, Repr

/-- Why a scalar does not convert. -/
inductive ConversionFault where
  /-- The value lies outside the range of the wire type. -/
  | outsideWire (value : Scalar) (wire : WireType)
  /-- The value lies outside the range of the host type. -/
  | outsideHost (value : Number) (host : ScalarType)
  /-- The host type and the wire type have nothing in common. -/
  | mismatch (host : ScalarType) (wire : WireType)
  deriving DecidableEq, Repr

/-- A pattern of the 32-bit format as the same number in the 64-bit format. -/
def widen (bits : UInt32) : UInt64 :=
  UInt64.ofNat (BinaryFormat.binary32.convert .binary64 bits.toNat)

/-- The 32-bit pattern nearest to a 64-bit one. -/
def narrow (bits : UInt64) : UInt32 :=
  UInt32.ofNat (BinaryFormat.binary64.convert .binary32 bits.toNat)

/-- The nearest integer that fits into 128 bits. -/
def clamp128 (value : Int) : Int :=
  max (-2 ^ (127 : Nat)) (min value (2 ^ (127 : Nat) - 1))

namespace Number

/-- The number cut off at the point, unless it is not finite. -/
def integer? : Number → Option Int
  | int value => some value
  | float bits => (BinaryFormat.binary64.truncate? bits.toNat).map clamp128

/-- The pattern of the nearest 64-bit floating-point number. -/
def toFloat : Number → UInt64
  | int value => UInt64.ofNat (BinaryFormat.binary64.ofInt value)
  | float bits => bits

/-- The text of the number. -/
def toText : Number → String
  | int value => toString value
  | float bits => BinaryFormat.binary64.toText bits.toNat

end Number

/-- The number that a scalar is; truth values are zero and one. -/
def Scalar.toNumber : Scalar → Number
  | .bool value => .int (if value then 1 else 0)
  | .int value => .int value.value
  | .f32 bits => .float (widen bits)
  | .f64 bits => .float bits

/-- The image of an integer: its low 64 bits in two's complement. -/
def imageOfInt (value : Int) : UInt64 :=
  UInt64.ofNat (value % 2 ^ (64 : Nat)).toNat

/-- The integer that `n` stands for as `size` bytes in two's complement. -/
def signExtend (size n : Nat) : Int :=
  if 2 * n < 256 ^ size then n else (n : Int) - 256 ^ size

/-- The image of a scalar as a bitmap of the wire type. -/
def Scalar.toBitmap? (value : Scalar) (wire : WireType) : Option UInt64 :=
  match value, wire with
  | .f32 bits, .dword => some (UInt64.ofNat bits.toNat)
  | .f64 bits, .dword => some (UInt64.ofNat (narrow bits).toNat)
  | .f32 bits, .qword => some (widen bits)
  | .f64 bits, .qword => some bits
  | .bool bit, _ => some (if bit then 1 else 0)
  | value, wire =>
      if value.type.width < wire.byteSize then none
      else value.toNumber.integer?.map fun n => imageOfInt (n % 256 ^ wire.byteSize)

/-- The image of a scalar as the wire type. -/
def Scalar.toImage (value : Scalar) (wire : WireType) : Except ConversionFault UInt64 :=
  match wire.kind with
  | .float =>
      let bits := value.toNumber.toFloat
      .ok (if wire = .float32 then UInt64.ofNat (narrow bits).toNat else bits)
  | .signed | .unsigned =>
      match value.toNumber.integer?, wire.range? with
      | some n, some (least, greatest) =>
          if least ≤ n ∧ n ≤ greatest then .ok (imageOfInt n) else .error (.outsideWire value wire)
      | _, _ => .error (.outsideWire value wire)
  | .bitmap =>
      match value.toBitmap? wire with
      | some image => .ok image
      | none => .error (.outsideWire value wire)
  | _ => .error (.mismatch value.type wire)

/-- What a bitmap of the wire type with the bits `n` means to a host type. -/
def ScalarType.ofBitmap? (host : ScalarType) (wire : WireType) (n : Nat) : Option Number :=
  match host, wire with
  | .f32, .dword | .f64, .dword => some (.float (widen (UInt32.ofNat n)))
  | .f32, .qword | .f64, .qword => some (.float (UInt64.ofNat n))
  | .f32, _ | .f64, _ => none
  | host, wire =>
      if host.isSigned ∧ host.width ≤ wire.byteSize then
        some (.int (signExtend wire.byteSize n))
      else some (.int n)

/-- The number in an image of the wire type, as a host type sees it. Bits above the width of the
wire type do not count. -/
def ScalarType.numberIn (host : ScalarType) (wire : WireType) (image : UInt64) :
    Except ConversionFault Number :=
  let n := image.toNat % 256 ^ wire.byteSize
  match wire.kind with
  | .signed => .ok (.int (signExtend wire.byteSize n))
  | .unsigned => .ok (.int n)
  | .float =>
      .ok (.float (if wire = .float32 then widen (UInt32.ofNat n) else UInt64.ofNat n))
  | .bitmap =>
      match host.ofBitmap? wire n with
      | some number => .ok number
      | none => .error (.mismatch host wire)
  | _ => .error (.mismatch host wire)

/-- Whether a finite 64-bit number is beyond the greatest finite 32-bit one. -/
def exceedsBinary32 (bits : UInt64) : Bool :=
  BinaryFormat.binary64.isFinite bits.toNat &&
    BinaryFormat.binary64.magnitude (widen 0x7F7FFFFF).toNat <
      BinaryFormat.binary64.magnitude bits.toNat

/-- A number as a scalar of a host type. Truth values are false for zero only, integers are cut off
at the point, and 32-bit floating-point numbers round. -/
def ScalarType.ofNumber (host : ScalarType) (number : Number) : Except ConversionFault Scalar :=
  match host with
  | .bool =>
      match number with
      | .int value => .ok (.bool (value != 0))
      | .float bits => .ok (.bool (BinaryFormat.binary64.magnitude bits.toNat != 0))
  | .f32 =>
      if exceedsBinary32 number.toFloat then .error (.outsideHost number .f32)
      else .ok (.f32 (narrow number.toFloat))
  | .f64 => .ok (.f64 number.toFloat)
  | .int type =>
      match number.integer?.bind (HostInt.ofInt? type) with
      | some value => .ok (.int value)
      | none => .error (.outsideHost number (.int type))

/-- The scalar of a host type in an image of the wire type. -/
def ScalarType.ofImage (host : ScalarType) (wire : WireType) (image : UInt64) :
    Except ConversionFault Scalar :=
  match host.numberIn wire image with
  | .ok number => host.ofNumber number
  | .error fault => .error fault

end PackedRecord
