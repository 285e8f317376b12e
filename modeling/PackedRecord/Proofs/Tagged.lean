import PackedRecord.Proofs.Locality
import PackedRecord.Proofs.Yields

/-!
# Packing single values by a tag

A tag can stand outside of any record and say how a single value is packed. `packAs` and `unpackAs`
do so with the encoder and the decoder of a packer, as `pack` and `unpack` do without a tag. The
lemmas of this module say what they do in terms of emissions and intakes.
-/

namespace PackedRecord.Packer

variable {packer : Packer} {schema : Schema} {order : ByteOrder} {tag : Tag} {value left : Value}
  {bytes : Bytes}

/-- The value, encoded as the tag says. -/
def packAs (packer : Packer) (order : ByteOrder) (tag : Tag) (value : Value) :
    Except Error Bytes :=
  match (packer.encoder order .unbounded).encodeAs tag value with
  | (.ok _, encoder) => .ok encoder.sink.held.toList
  | (.error error, _) => .error error

/-- Decodes `data` into a value as the tag says. Bytes behind the value do not matter. -/
def unpackAs (packer : Packer) (schema : Schema) (order : ByteOrder) (tag : Tag) (data : Bytes)
    (value : Value) : Decoded :=
  ((packer.decoder schema order (.ofData data)).decodeAs tag value).1

/-- Packing gives the bytes of the emission and nothing else. -/
theorem yields_of_packAs (h : packer.packAs order tag value = .ok bytes) :
    (encodeTagged (packer.settings order) tag value).Yields bytes () := by
  simp only [packAs, encoder, Encoder.encodeAs, Encoder.run, Sink.unbounded,
    Sink.absorb_willing, Emission.sized] at h
  cases houtcome : (encodeTagged (packer.settings order) tag value).outcome with
  | error error =>
      rw [houtcome] at h
      cases h
  | ok result =>
      rw [houtcome] at h
      cases h
      exact ⟨houtcome, by simp [Sink.willing, Emission.bytes]⟩

/-- Accepted bytes are unpacked, whatever follows them. -/
theorem unpackAs_append_of_accepts (rest : Bytes)
    (h : (decodeTagged schema (packer.settings order) tag value).Accepts bytes left) :
    packer.unpackAs schema order tag (bytes ++ rest) value = ⟨left, .ok bytes.length⟩ :=
  congrArg Prod.fst (Decoder.decodeAs_of_accepts 0 0 rest h)

/-- Accepted bytes are unpacked. -/
theorem unpackAs_of_accepts
    (h : (decodeTagged schema (packer.settings order) tag value).Accepts bytes left) :
    packer.unpackAs schema order tag bytes value = ⟨left, .ok bytes.length⟩ := by
  have hunpack := unpackAs_append_of_accepts [] h
  rw [List.append_nil] at hunpack
  exact hunpack

/-- Accepted bytes that are cut short are too few. -/
theorem unpackAs_take_of_accepts {count : Nat}
    (h : (decodeTagged schema (packer.settings order) tag value).Accepts bytes left)
    (hcount : count < bytes.length) :
    ∃ path value', packer.unpackAs schema order tag (bytes.take count) value =
      ⟨value', .error (if count = 0 then .endOfStream else .located path .unexpectedEnd)⟩ := by
  obtain ⟨path, value', hdecode⟩ := Decoder.decodeAs_take_of_accepts 0 0 h hcount
  rw [Nat.zero_add] at hdecode
  exact ⟨path, value', congrArg Prod.fst hdecode⟩

end PackedRecord.Packer
