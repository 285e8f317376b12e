import PackedRecord.Decoder
import PackedRecord.Encoder
import PackedRecord.Proofs.Acceptance

/-!
# Single calls

One call of an encoder or a decoder, for a value at any place within a record or outside of any.
`Decoder.conclude` is what a call makes of its intake once that was supplied, so that two calls are
compared by comparing what they were supplied with. On a source without hindrance, a call ends well
exactly if its intake accepts the first bytes.
-/

namespace PackedRecord

/-- The encoding of the value at `path` as its tag says, whose sizes refer to `record`. -/
def encodeAt (settings : Settings) (path : Path) (record : Option Record) (tag : Tag)
    (value : Value) : Emission Unit := do
  let plan ← .ofExcept (Plan.resolve path value tag record)
  encodeValue settings path value plan

/-- The decoding into the value at `path` as its tag says, whose sizes refer to `record`. -/
def decodeAt (schema : Schema) (settings : Settings) (path : Path) (record : Option Record)
    (tag : Tag) (value : Value) : Intake Value Value :=
  match Plan.resolve path value tag record with
  | .error error => .fail error value
  | .ok plan => decodeValue schema settings path value plan

/-- Encodes the value at `path` as its tag says and gives the number of bytes. -/
def Encoder.encodeAt (encoder : Encoder) (path : Path) (record : Option Record) (tag : Tag)
    (value : Value) : Except Error Nat × Encoder :=
  encoder.run (PackedRecord.encodeAt encoder.settings path record tag value).sized

/-- A call for a whole value is one at the top, outside of any record. -/
theorem Encoder.encodeAs_eq_encodeAt (encoder : Encoder) (tag : Tag) (value : Value) :
    encoder.encodeAs tag value = encoder.encodeAt .top none tag value := rfl

namespace Decoder

/-- The end of a call that was supplied like this. -/
def conclude (decoder : Decoder) (boundary : Nat) :
    Except (Error × Value) Value × Source → Decoded × Decoder
  | (.ok value, source) =>
      (⟨value, .ok (source.position - decoder.position)⟩, { decoder with source, boundary })
  | (.error (error, value), source) => (⟨value, .error error⟩, { decoder with source, boundary })

/-- Decodes into the value at `path` as its tag says. The boundary stays where it is. -/
def decodeAt (decoder : Decoder) (path : Path) (record : Option Record) (tag : Tag)
    (value : Value) : Decoded × Decoder :=
  decoder.conclude decoder.boundary (decoder.source.supply decoder.boundary
    (PackedRecord.decodeAt decoder.schema decoder.settings path record tag value))

/-- A call of a decoder supplies its intake and concludes it. -/
theorem decodeAs_eq (decoder : Decoder) (tag : Tag) (value : Value) :
    decoder.decodeAs tag value =
      decoder.conclude decoder.boundary (decoder.source.supply decoder.boundary
        (decodeTagged decoder.schema decoder.settings tag value)) := by
  unfold decodeAs
  show (match decoder.source.supply decoder.boundary
      (decodeTagged decoder.schema decoder.settings tag value) with
    | (.ok value, source) => _
    | (.error (error, value), source) => _) = _
  split
  next h => rw [h]; rfl
  next h => rw [h]; rfl

section conclude

variable (decoder : Decoder) (boundary : Nat) (run : Except (Error × Value) Value × Source)

/-- The source after a call is the one that supplied it. -/
@[simp] theorem source_conclude : (decoder.conclude boundary run).2.source = run.2 := by
  obtain ⟨_ | _, _⟩ := run <;> rfl

/-- A call leaves the schema as it is. -/
@[simp] theorem schema_conclude : (decoder.conclude boundary run).2.schema = decoder.schema := by
  obtain ⟨_ | _, _⟩ := run <;> rfl

/-- A call leaves the settings as they are. -/
@[simp] theorem settings_conclude :
    (decoder.conclude boundary run).2.settings = decoder.settings := by
  obtain ⟨_ | _, _⟩ := run <;> rfl

/-- The end of a call puts the boundary where it is told to. -/
@[simp] theorem boundary_conclude : (decoder.conclude boundary run).2.boundary = boundary := by
  obtain ⟨_ | _, _⟩ := run <;> rfl

/-- What a call gives depends on the places of its source only. -/
theorem conclude_congr {decoder free : Decoder} {result : Except (Error × Value) Value}
    {after freeAfter : Source} (boundary : Nat) (hstart : decoder.position = free.position)
    (hend : after.position = freeAfter.position) :
    (decoder.conclude boundary (result, after)).1 =
      (free.conclude boundary (result, freeAfter)).1 := by
  cases result with
  | error => rfl
  | ok value =>
      show Decoded.mk value (.ok (after.position - decoder.position)) = _
      rw [hstart, hend]
      rfl

end conclude

section steady

variable {schema : Schema} {settings : Settings} {path : Path} {record : Option Record} {tag : Tag}
  {data bytes : Bytes} {value left : Value} {boundary start count : Nat}

/-- Accepted bytes are decoded, whatever follows them. -/
theorem decodeAt_of_accepts (boundary start : Nat) (rest : Bytes)
    (h : (PackedRecord.decodeAt schema settings path record tag value).Accepts bytes left) :
    (Decoder.mk schema settings (.steady (bytes ++ rest) start) boundary).decodeAt path record tag
        value =
      (⟨left, .ok bytes.length⟩,
        ⟨schema, settings, .steady rest (start + bytes.length), boundary⟩) := by
  rw [decodeAt, Source.supply_of_accepts boundary start rest h]
  show (Decoded.mk left (.ok (start + bytes.length - start)), _) = _
  rw [Nat.add_sub_cancel_left]

/-- A value that was decoded accepts the bytes that it consumed. -/
theorem accepts_of_decodeAt
    (h : ((Decoder.mk schema settings (.steady data start) boundary).decodeAt path record tag
      value).1 = ⟨left, .ok count⟩) :
    ∃ bytes rest, data = bytes ++ rest ∧ bytes.length = count ∧
      (PackedRecord.decodeAt schema settings path record tag value).Accepts bytes left := by
  unfold decodeAt at h
  cases hsupply : (Source.steady data start).supply boundary
      (PackedRecord.decodeAt schema settings path record tag value) with
  | mk result source =>
      rw [hsupply] at h
      cases result with
      | error stop => cases h
      | ok result =>
          obtain ⟨bytes, rest, hdata, haccepts, rfl⟩ := Source.accepts_of_supply hsupply
          cases h
          refine ⟨bytes, rest, hdata, ?_, haccepts⟩
          show bytes.length = start + bytes.length - start
          omega

end steady

end Decoder

end PackedRecord
