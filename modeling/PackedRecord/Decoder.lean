import PackedRecord.Decode.Value

/-!
# Decoders

A decoder reads any number of values from one source, each after the other. Between two values the
source may end cleanly.
-/

namespace PackedRecord

/-- The decoding into a value with a tag that stands outside of any record. -/
def decodeTagged (schema : Schema) (settings : Settings) (tag : Tag) (value : Value) :
    Intake Value Value :=
  match Plan.resolve .top value tag none with
  | .error error => .fail error value
  | .ok plan => decodeValue schema settings .top value plan

/-- What decoding leaves: the destination, and the number of bytes that were read or the error. -/
structure Decoded where
  value : Value
  outcome : Except Error Nat

/-- A decoder and its source. The source ends cleanly only if it ends at `boundary`. -/
structure Decoder where
  schema : Schema
  settings : Settings
  source : Source
  boundary : Nat := 0

namespace Decoder

/-- The number of bytes read so far. -/
def position (decoder : Decoder) : Nat := decoder.source.position

/-- Decodes into a value as its tag says. The boundary stays where it is. -/
def decodeAs (decoder : Decoder) (tag : Tag) (value : Value) : Decoded × Decoder :=
  let intake := decodeTagged decoder.schema decoder.settings tag value
  match decoder.source.supply decoder.boundary intake with
  | (.ok value, source) =>
      (⟨value, .ok (source.position - decoder.position)⟩, { decoder with source })
  | (.error (error, value), source) => (⟨value, .error error⟩, { decoder with source })

/-- Decodes into a value in its natural representation. The value begins at a boundary. -/
def decode (decoder : Decoder) (value : Value) : Decoded × Decoder :=
  { decoder with boundary := decoder.position }.decodeAs .empty value

end Decoder

end PackedRecord
