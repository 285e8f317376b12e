/-!
# Transfer faults

Why a sink, a source or a text codec failed.
-/

namespace PackedRecord

/-- A failure of a sink, a source or a text codec. -/
inductive TransferFault where
  /-- Text given to a codec is not UTF-8. -/
  | notUtf8
  /-- UTF-16 data ends within a code unit. -/
  | oddLength
  /-- UTF-16 data holds a surrogate without its partner. -/
  | unpairedSurrogate
  /-- A sink accepted no byte of a write. -/
  | nothingWritten
  /-- The device or codec failed for a reason of its own. -/
  | device (reason : String)
  deriving DecidableEq, Repr

/-- The text that describes the fault. -/
def TransferFault.message : TransferFault → String
  | .notUtf8 => "string is not UTF-8"
  | .oddLength => "odd number of bytes in UTF-16 text"
  | .unpairedSurrogate => "unpaired surrogate"
  | .nothingWritten => "failed to write whole buffer"
  | .device reason => reason

end PackedRecord
