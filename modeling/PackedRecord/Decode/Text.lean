import PackedRecord.Decode.Intake
import PackedRecord.Plan
import PackedRecord.Settings

/-!
# Decoding strings

A string is read in its frame: up to its terminator, behind its length field, in its buffer, or
with the length that the destination has. Trailing zeros are padding and do not belong to it.
-/

namespace PackedRecord

/-- Reads an image of `width` bytes. -/
def readImage (settings : Settings) (path : Path) (width : Nat) : Intake Unit UInt64 := do
  let bytes ← Intake.bytes path width
  match settings.order.get bytes with
  | .ok image => pure image
  | .error defect => .fail (.broken defect) ()

/-- Reads `length` bytes of a string. -/
def readBlob (settings : Settings) (path : Path) (length : Nat) : Intake Unit Bytes := do
  .ofExcept () (settings.limits.checkBlob path length)
  Intake.bytes path length

/-- The size of the terminator of a wire type. -/
def WireType.terminatorSize (wire : WireType) : Nat :=
  if wire = .z16string then 2 else 1

/-- A terminator has at least one byte. -/
theorem WireType.terminatorSize_pos (wire : WireType) : 0 < wire.terminatorSize := by
  unfold terminatorSize
  split <;> decide

/-- Reads a string in units as long as the terminator of the wire type, up to one of zeros. The
bytes before it are `got`, in reverse, and there may be `room` more. -/
def readTerminated (wire : WireType) (path : Path) (room : Nat) (got : Bytes) :
    Intake Unit Bytes :=
  .read path wire.terminatorSize (fun _ => ()) fun part =>
    if part.all (· = 0) then .done got.reverse
    else if _h : room < wire.terminatorSize then
      .fail (.located path (.blobLimit (got.length + wire.terminatorSize))) ()
    else readTerminated wire path (room - wire.terminatorSize) (part.reverseAux got)
termination_by room
decreasing_by
  have hsize := wire.terminatorSize_pos
  omega

/-- The bytes in front of the terminator, if there is one. -/
def WireType.untilTerminator (wire : WireType) (data : Bytes) : Bytes :=
  match wire.terminatorIn data with
  | some offset => data.take offset
  | none => data

/-- Reads the length of a string that has no terminator. A destination of `current` bytes says how
long a string without a frame is, but not how long it is in another encoding. -/
def readLength (settings : Settings) (path : Path) (plan : Plan) (current : Nat) :
    Intake Unit Nat :=
  match plan.wire.lengthSize?, plan.bufferLength, plan.encoding with
  | some size, _, _ => do
      let image ← readImage settings path size
      pure image.toNat
  | none, some size, _ => pure size
  | none, none, none => pure current
  | none, none, some encoding =>
      .fail (.located path (.notEncodable (.unknownLength plan.wire encoding))) ()

/-- Reads the bytes of a string with its frame and gives them without it. -/
def readFramed (settings : Settings) (path : Path) (plan : Plan) (current : Nat) :
    Intake Unit Bytes :=
  match plan.wire, plan.bufferLength with
  | .zstring, some size | .z16string, some size => do
      let data ← readBlob settings path size
      pure (plan.wire.untilTerminator data)
  | .zstring, none | .z16string, none => readTerminated plan.wire path settings.limits.blob []
  | _, bufferLength => do
      let length ← readLength settings path plan current
      let data ← readBlob settings path (max length (bufferLength.getD 0))
      pure (data.take length)

/-- The text that the bytes of a string stand for, without trailing zeros. -/
def textOfBytes (path : Path) (data : Bytes) : Except Error String :=
  match Text.Utf8.decode (Bytes.dropTrailingZeros data) with
  | .ok text => .ok text
  | .error fault => .error (.located path (.invalidUtf8 fault))

/-- Decodes a string into a destination of `current` bytes. -/
def decodeText (settings : Settings) (path : Path) (plan : Plan) (current : Nat) :
    Intake Unit String := do
  let framed ← readFramed settings path plan current
  let data ← .ofExcept () (settings.transcode Text.Codec.decode path plan.encoding framed)
  .ofExcept () (textOfBytes path data)

end PackedRecord
