import PackedRecord.ByteOrder
import PackedRecord.Limits

/-!
# Settings

What a run of the encoder or the decoder is given besides the value: the byte order, the limits
and the text encodings.
-/

namespace PackedRecord

/-- The settings of a run. -/
structure Settings where
  order : ByteOrder
  limits : Limits
  encodings : Text.Encodings

/-- The codec that a string at `path` names, if it names one. -/
def Settings.codec? (settings : Settings) (path : Path) (encoding : Option String) :
    Except Error (Option Text.Codec) :=
  match encoding with
  | none => .ok none
  | some name =>
      match settings.encodings.find? name with
      | none => .error (.located path (.unknownEncoding name))
      | some codec => .ok (some codec)

/-- The bytes of a string at `path` after a conversion by its codec, if it names one. -/
def Settings.transcode (settings : Settings)
    (convert : Text.Codec → Bytes → Except TransferFault Bytes) (path : Path)
    (encoding : Option String) (data : Bytes) : Except Error Bytes :=
  match settings.codec? path encoding with
  | .error error => .error error
  | .ok none => .ok data
  | .ok (some codec) =>
      match convert codec data with
      | .ok converted => .ok converted
      | .error fault => .error (.located path (.textEncoding fault))

end PackedRecord
