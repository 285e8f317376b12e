import Mathlib
import PackedRecord.Packer
import PackedRecord.Proofs.Acceptance

/-!
# Locality of decoding

Decoding depends on the bytes that it consumes and on nothing behind them, and every cut through
these bytes is reported as the end of the input, at the place of the cut. `decode_local` says so
for a value at any position of a stream.
-/

namespace PackedRecord

namespace Decoder

variable {schema : Schema} {settings : Settings} {tag : Tag} {data bytes : Bytes}
  {value left : Value} {boundary start count : Nat}

/-- Decoding from a source without hindrance supplies the intake of the value. -/
theorem decodeAs_steady (schema : Schema) (settings : Settings) (boundary start : Nat)
    (data : Bytes) (tag : Tag) (value : Value) :
    (Decoder.mk schema settings (.steady data start) boundary).decodeAs tag value =
      match (Source.steady data start).supply boundary
          (decodeTagged schema settings tag value) with
      | (.ok value, source) =>
          (⟨value, .ok (source.position - start)⟩, ⟨schema, settings, source, boundary⟩)
      | (.error (error, value), source) =>
          (⟨value, .error error⟩, ⟨schema, settings, source, boundary⟩) := rfl

/-- A value that was decoded accepts the bytes that it consumed. -/
theorem accepts_of_decodeAs
    (h : ((Decoder.mk schema settings (.steady data start) boundary).decodeAs tag value).1 =
      ⟨left, .ok count⟩) :
    ∃ bytes rest, data = bytes ++ rest ∧ bytes.length = count ∧
      (decodeTagged schema settings tag value).Accepts bytes left := by
  rw [decodeAs_steady] at h
  split at h
  next result source hsupply =>
    obtain ⟨bytes, rest, hdata, haccepts, rfl⟩ := Source.accepts_of_supply hsupply
    cases h
    refine ⟨bytes, rest, hdata, ?_, haccepts⟩
    show bytes.length = start + bytes.length - start
    omega
  next => cases h

/-- Accepted bytes decode, whatever follows them. -/
theorem decodeAs_of_accepts (boundary start : Nat) (rest : Bytes)
    (h : (decodeTagged schema settings tag value).Accepts bytes left) :
    (Decoder.mk schema settings (.steady (bytes ++ rest) start) boundary).decodeAs tag value =
      (⟨left, .ok bytes.length⟩,
        ⟨schema, settings, .steady rest (start + bytes.length), boundary⟩) := by
  rw [decodeAs_steady, Source.supply_of_accepts boundary start rest h]
  show (Decoded.mk left (.ok (start + bytes.length - start)), _) = _
  rw [Nat.add_sub_cancel_left]

/-- Accepted bytes that are cut short end the input, cleanly only at the boundary. -/
theorem decodeAs_take_of_accepts (boundary start : Nat)
    (h : (decodeTagged schema settings tag value).Accepts bytes left)
    (hcount : count < bytes.length) :
    ∃ path value', (Decoder.mk schema settings (.steady (bytes.take count) start) boundary).decodeAs
        tag value = (⟨value', .error (if start + count = boundary then .endOfStream
          else .located path .unexpectedEnd)⟩,
          ⟨schema, settings, .steady [] (start + count), boundary⟩) := by
  obtain ⟨path, value', hsupply⟩ := Source.supply_take_of_accepts boundary start h hcount
  refine ⟨path, value', ?_⟩
  rw [decodeAs_steady, hsupply]
  rfl

end Decoder

/-- A value that was decoded from `count` bytes is decoded from these bytes whatever follows them.
If the data ends within them, decoding fails for lack of bytes, and has taken all that there
were. -/
theorem decode_local {packer : Packer} {schema : Schema} {order : ByteOrder} {data : Bytes}
    {start count : Nat} {value left : Value}
    (h : ((packer.decoder schema order (.steady data start)).decode value).1 =
      ⟨left, .ok count⟩) :
    count ≤ data.length ∧
    (∀ more : Bytes,
      ((packer.decoder schema order (.steady (data.take count ++ more) start)).decode value).1 =
        ⟨left, .ok count⟩) ∧
    ∀ kept < count,
      ∃ path value' decoder,
        (packer.decoder schema order (.steady (data.take kept) start)).decode value =
          (⟨value', .error (if kept = 0 then .endOfStream else .located path .unexpectedEnd)⟩,
            decoder) ∧
        decoder.position = start + kept := by
  obtain ⟨bytes, rest, rfl, rfl, haccepts⟩ := Decoder.accepts_of_decodeAs h
  refine ⟨?_, ?_, ?_⟩
  · rw [List.length_append]
    exact Nat.le_add_right _ _
  · intro more
    rw [List.take_left]
    exact congrArg Prod.fst (Decoder.decodeAs_of_accepts _ _ more haccepts)
  · intro kept hkept
    obtain ⟨path, value', hdecode⟩ := Decoder.decodeAs_take_of_accepts start start haccepts hkept
    -- The value starts at the boundary, so that the end is clean only if no byte was kept.
    have hboundary : start + kept = start ↔ kept = 0 := by omega
    simp only [hboundary] at hdecode
    rw [List.take_append_of_le_length (Nat.le_of_lt hkept)]
    exact ⟨path, value', _, hdecode, rfl⟩

/-- A record with a count, as many words and a terminated string. -/
def countedRecord (count : UInt8) (items : List Value) (name : String) : Value :=
  .record (.build "Counted" [⟨"count", "", true⟩, ⟨"items", "[count]uint16", true⟩,
    ⟨"name", "zstring", true⟩]) [.ofByte count, .sequence .growable .byte items, .text name]

/-- A record of eight bytes at position 3 of a stream, with one more byte behind it. -/
theorem decode_counted_local :
    (((Packer.mk {} .empty).decoder [] .littleEndian
        (.steady [2, 7, 0, 9, 0, 104, 105, 0, 55] 3)).decode (countedRecord 0 [] "")).1 =
      ⟨countedRecord 2 [.ofByte 7, .ofByte 9] "hi", .ok 8⟩ ∧
    ∀ kept < 8, ∃ path value decoder,
      ((Packer.mk {} .empty).decoder [] .littleEndian (.steady
          (List.take kept [2, 7, 0, 9, 0, 104, 105, 0, 55]) 3)).decode (countedRecord 0 [] "") =
        (⟨value, .error (if kept = 0 then .endOfStream else .located path .unexpectedEnd)⟩,
          decoder) ∧
      decoder.position = 3 + kept := by
  have hdecoded : (((Packer.mk {} .empty).decoder [] .littleEndian
      (.steady [2, 7, 0, 9, 0, 104, 105, 0, 55] 3)).decode (countedRecord 0 [] "")).1 =
      ⟨countedRecord 2 [.ofByte 7, .ofByte 9] "hi", .ok 8⟩ := by cbv
  exact ⟨hdecoded, (decode_local hdecoded).2.2⟩

end PackedRecord
