import PackedRecord.Encode.Emission
import PackedRecord.Plan
import PackedRecord.Settings

/-!
# Encoding strings

A string is framed by a length field, a terminator or nothing, and padded with zeros up to its
buffer length. Whether it fits is decided before the first byte is written.
-/

namespace PackedRecord

/-- How a string is framed: the size of its length field, if it has one, and the size of its
buffer. -/
structure TextFrame where
  lengthSize : Option Nat
  bufferSize : Nat
  deriving DecidableEq, Repr

/-- The number of bytes of a string of `length` bytes with its terminator. A word terminator starts
at an even offset. -/
def terminatedSize (wire : WireType) (length : Nat) : Nat :=
  if wire = .z16string then length + length % 2 + 2 else length + 1

/-- The frame of a string with the bytes `data`, or why it has none. -/
def TextFrame.of (wire : WireType) (bufferLength : Option Nat) (data : Bytes) :
    Except Fault TextFrame :=
  let length := data.length
  match wire with
  | .zstring | .z16string =>
      if (wire.terminatorIn data).isSome then .error (.notEncodable (.ownTerminator wire))
      else
        let terminated := terminatedSize wire length
        let bufferSize := bufferLength.getD terminated
        if bufferSize < terminated then .error (.stringTooLong length bufferSize)
        else .ok ⟨none, bufferSize⟩
  | wire =>
      let bufferSize := bufferLength.getD length
      if bufferSize < length then .error (.stringTooLong length bufferSize)
      else
        match wire.lengthSize? with
        | none => .ok ⟨none, bufferSize⟩
        | some size =>
            if WireType.maxLength size < bufferSize then
              .error (.stringTooLong length (WireType.maxLength size))
            else .ok ⟨some size, bufferSize⟩

/-- Writes the low `width` bytes of an image. -/
def emitImage (settings : Settings) (path : Path) (width : Nat) (image : UInt64) : Emission Unit :=
  match settings.order.put width image with
  | .ok bytes => .write path (.data bytes)
  | .error defect => .fail (.broken defect)

/-- Writes a string in its frame. -/
def TextFrame.emit (settings : Settings) (path : Path) (frame : TextFrame) (data : Bytes) :
    Emission Unit := do
  match frame.lengthSize with
  | none => pure ()
  | some size => emitImage settings path size (UInt64.ofNat data.length)
  Emission.write path (.data data)
  Emission.write path (.zeros (frame.bufferSize - data.length))

/-- Encodes a string. -/
def encodeText (settings : Settings) (path : Path) (plan : Plan) (text : String) :
    Emission Unit := do
  let data ← .ofExcept (settings.transcode Text.Codec.encode path plan.encoding
    (Text.Utf8.encode text))
  match TextFrame.of plan.wire plan.bufferLength data with
  | .error fault => .fail (.located path fault)
  | .ok frame => frame.emit settings path data

end PackedRecord
