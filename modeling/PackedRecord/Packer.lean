import PackedRecord.Decoder
import PackedRecord.Encoder

/-!
# Packers

A packer bundles limits and text encodings and packs single values: into bytes and from bytes, or
to a sink and from a source. `pack_eq` says that packing gives the bytes of the emission and nothing
else.
-/

namespace PackedRecord

/-- The limits and the text encodings of a program. -/
structure Packer where
  limits : Limits := {}
  encodings : Text.Encodings := .empty

namespace Packer

/-- The settings of a run in a byte order. -/
def settings (packer : Packer) (order : ByteOrder) : Settings :=
  ⟨order, packer.limits, packer.encodings⟩

/-- An encoder to `sink`. -/
def encoder (packer : Packer) (order : ByteOrder) (sink : Sink) : Encoder :=
  ⟨packer.settings order, sink⟩

/-- A decoder from `source`. -/
def decoder (packer : Packer) (schema : Schema) (order : ByteOrder) (source : Source) : Decoder :=
  { schema, settings := packer.settings order, source }

/-- The encoded value. -/
def pack (packer : Packer) (order : ByteOrder) (value : Value) : Except Error Bytes :=
  match (packer.encoder order .unbounded).encode value with
  | (.ok _, encoder) => .ok encoder.sink.held.toList
  | (.error error, _) => .error error

/-- Packing gives the bytes of the emission, or its error and no bytes. -/
theorem pack_eq (packer : Packer) (order : ByteOrder) (value : Value) :
    packer.pack order value =
      (encodeTagged (packer.settings order) .empty value).outcome.map fun _ =>
        (encodeTagged (packer.settings order) .empty value).bytes := by
  simp only [pack, encoder, Encoder.encode, Encoder.encodeAs, Encoder.run, Sink.unbounded,
    Sink.absorb_willing, Emission.sized]
  cases (encodeTagged (packer.settings order) .empty value).outcome with
  | error => rfl
  | ok => simp [Except.map, Sink.willing, Emission.bytes]

/-- Decodes `data` into a value. Bytes behind the value do not matter. -/
def unpack (packer : Packer) (schema : Schema) (order : ByteOrder) (data : Bytes)
    (value : Value) : Decoded :=
  ((packer.decoder schema order (.ofData data)).decode value).1

/-- Encodes a value to a sink and flushes that; gives the number of bytes. -/
def packTo (packer : Packer) (order : ByteOrder) (sink : Sink) (value : Value) :
    Except Error Nat × Sink :=
  match (packer.encoder order sink).encode value with
  | (.error error, encoder) => (.error error, encoder.sink)
  | (.ok count, encoder) =>
      match encoder.flush with
      | .ok () => (.ok count, encoder.sink)
      | .error error => (.error error, encoder.sink)

/-- Decodes from a source into a value. -/
def unpackFrom (packer : Packer) (schema : Schema) (order : ByteOrder) (source : Source)
    (value : Value) : Decoded × Source :=
  let (decoded, decoder) := (packer.decoder schema order source).decode value
  (decoded, decoder.source)

end Packer

end PackedRecord
