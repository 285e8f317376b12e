import PackedRecord.Proofs.DecodedText
import PackedRecord.Proofs.FramedStrings

/-!
# Terminated strings in buffers and in open streams

What a string is decoded to depends on the content of its frame, as `Decoder.decodeAt_of_framed`
says, and the content of a terminated one is what stands in front of its first terminator. So
`decodeAt_terminated` concludes that a string is decoded alike with a buffer and without one, but
for the bytes that it consumes.
-/

namespace PackedRecord

/-- The text that the content of a frame stands for, in a text encoding if one is named. -/
def Settings.textOf (settings : Settings) (path : Path) (encoding : Option String)
    (content : Bytes) : Except Error String :=
  settings.transcode Text.Codec.decode path encoding content >>= textOfBytes path

/-- What the decoding of a string into `current` gives that has consumed `count` bytes. -/
def Decoded.ofText (current : String) (count : Nat) : Except Error String → Decoded
  | .ok text => ⟨.text text, .ok count⟩
  | .error error => ⟨.text current, .error error⟩

/-- What a string is decoded to depends on the content of its frame. -/
theorem decodeText_eq (settings : Settings) (path : Path) (plan : Plan) (current : Nat) :
    decodeText settings path plan current =
      readFramed settings path plan current >>= fun content =>
        .ofExcept () (settings.textOf path plan.encoding content) := by
  unfold decodeText Settings.textOf
  congr 1
  funext content
  cases settings.transcode Text.Codec.decode path plan.encoding content <;> rfl

/-- What is decoded into a string takes its place. -/
theorem putText_text (path : Path) (current : String) (intake : Intake Unit String) :
    putText path (.text current) intake = intake.bimap (fun _ => .text current) .text := by
  induction intake with
  | done text => rfl
  | fail error left => rfl
  | read place count torn next ih =>
      show Intake.read _ _ _ _ = Intake.read _ _ _ _
      congr 1
      funext bytes
      exact ih bytes

/-- A bare result takes nothing from a source. -/
theorem Source.supply_ofExcept {α β : Type} (boundary : Nat) (left : β) (result : Except Error α)
    (source : Source) :
    source.supply boundary (.ofExcept left result) = (result.mapError (·, left), source) := by
  cases result <;> rfl

/-- A string whose frame was read is decoded to the text of its content, or is left as it was. The
bytes of the frame are consumed either way. -/
theorem Decoder.decodeAt_of_framed {settings : Settings} {path : Path} {record : Option Record}
    {tagged : Option WireType} {size : Option SizeExpr} {bufferLength : Option Nat}
    {encoding : Option String} {current : String} {bytes content : Bytes} (schema : Schema)
    (hwire : (tagged.getD .string).isText = true)
    (hsize : Plan.resolveBuffer path size record = .ok bufferLength)
    (hread : (readFramed settings path (.encoded (tagged.getD .string) bufferLength encoding)
      current.utf8ByteSize).Accepts bytes content) (rest : Bytes) (start boundary : Nat) :
    (⟨schema, settings, .steady (bytes ++ rest) start, boundary⟩ : Decoder).decodeAt path record
        ⟨tagged, .absent, size, encoding⟩ (.text current) =
      (.ofText current bytes.length (settings.textOf path encoding content),
        ⟨schema, settings, .steady rest (start + bytes.length), boundary⟩) := by
  have hsupply : (Source.steady (bytes ++ rest) start).supply boundary
      (decodeText settings path (.encoded (tagged.getD .string) bufferLength encoding)
        current.utf8ByteSize) =
      ((settings.textOf path encoding content).mapError (·, ()),
        .steady rest (start + bytes.length)) := by
    rw [decodeText_eq, Source.supply_bind, Source.supply_of_accepts boundary start rest hread]
    exact Source.supply_ofExcept boundary () _ _
  unfold decodeAt
  rw [decodeAt_text_encoded schema hwire hsize, putText_text, Source.supply_bimap, hsupply]
  cases settings.textOf path encoding content with
  | error error => rfl
  | ok text =>
      show (Decoded.mk (.text text) (.ok (start + bytes.length - start)), _) = _
      rw [Nat.add_sub_cancel_left]
      rfl

/-- A size other than zero is a buffer length. -/
theorem Plan.resolveBuffer_some {path : Path} {record : Option Record} {expr : SizeExpr}
    {size : Nat} (hsize : evalSize path expr record = .ok size) (hpos : 0 < size) :
    resolveBuffer path (some expr) record = .ok (some size) := by
  obtain ⟨size, rfl⟩ := Nat.exists_eq_succ_of_ne_zero hpos.ne'
  simp only [resolveBuffer, hsize]

/-- A zero byte among the bytes of a text is a NUL in the text. -/
theorem zero_mem_encode {text : String} (h : Char.ofNat 0 ∈ text.toList) :
    0 ∈ Text.Utf8.encode text :=
  List.mem_flatMap.2 ⟨_, h, List.mem_singleton_self 0⟩

/-- Bytes without a zero are no text with a NUL. -/
theorem not_mem_of_textOfBytes {path : Path} {data : Bytes} {text : String} (hdata : 0 ∉ data)
    (h : textOfBytes path data = .ok text) : Char.ofNat 0 ∉ text.toList := by
  unfold textOfBytes at h
  split at h
  next hdecode =>
    cases h
    intro hnul
    have hzero := zero_mem_encode hnul
    rw [Text.Utf8.encode_of_decode hdecode, Bytes.dropTrailingZeros, List.mem_reverse] at hzero
    exact hdata (List.mem_reverse.1 ((List.dropWhile_sublist _).subset hzero))
  next => cases h

/-- If a terminator lies within the first `size` bytes, a string in a buffer of so many bytes and
one that is read up to its terminator are decoded alike, to the same text or with the same error:
both are what stands in front of the first terminator. The buffer is consumed as a whole, and the
stream up to the end of the first terminator. A `zstring` without a text encoding has no NUL. -/
theorem decodeAt_terminated {settings : Settings} {path : Path} {record : Option Record}
    {wire : WireType} (hwire : wire = .zstring ∨ wire = .z16string) {expr : SizeExpr} {size : Nat}
    (hsize : Plan.evalSize path expr record = .ok size) (hblob : size ≤ settings.limits.blob)
    {data : Bytes} {offset : Nat} (hend : wire.TerminatorAt data offset)
    (hwithin : offset + wire.terminatorSize ≤ size) (hdata : size ≤ data.length)
    (encoding : Option String) (schema : Schema) (current : String) (start boundary : Nat) :
    let decoder : Decoder := ⟨schema, settings, .steady data start, boundary⟩
    let behind (count : Nat) : Decoder :=
      ⟨schema, settings, .steady (data.drop count) (start + count), boundary⟩
    ∃ first, wire.FirstTerminator data first ∧
      let text := settings.textOf path encoding (data.take first)
      decoder.decodeAt path record ⟨some wire, .absent, some expr, encoding⟩ (.text current) =
        (.ofText current size text, behind size) ∧
      decoder.decodeAt path record ⟨some wire, .absent, none, encoding⟩ (.text current) =
        (.ofText current (first + wire.terminatorSize) text,
          behind (first + wire.terminatorSize)) ∧
      (wire = .zstring → encoding = none → ∀ content, text = .ok content →
        Char.ofNat 0 ∉ content.toList) := by
  intro decoder behind
  obtain ⟨first, hle, hfirst⟩ := hend.exists_first
  have hpos := wire.terminatorSize_pos
  have htext : ((some wire).getD .string).isText = true := by rcases hwire with rfl | rfl <;> rfl
  refine ⟨first, hfirst, ?_, ?_, ?_⟩
  · -- The buffer is the first `size` bytes, among which the search finds the same terminator.
    have hlength : (data.take size).length = size := by
      rw [List.length_take]
      omega
    have hbuffer : wire.FirstTerminator (data.take size) first := by
      rw [← List.take_append_drop size data] at hfirst
      exact (WireType.firstTerminator_append (by omega)).1 hfirst
    have hread := accepts_readFramed_first path (.encoded wire (some size) encoding)
      current.utf8ByteSize hwire rfl hbuffer hlength hblob
    have hdecode := Decoder.decodeAt_of_framed schema htext
      (Plan.resolveBuffer_some hsize (by omega)) hread (data.drop size) start boundary
    rw [List.take_append_drop, List.take_take, Nat.min_eq_left (by omega), hlength] at hdecode
    exact hdecode
  · have hroom : first ≤ settings.limits.blob := by omega
    have hread : (readFramed settings path (.encoded wire none encoding)
        current.utf8ByteSize).Accepts (data.take (first + wire.terminatorSize)) (data.take first) :=
      accepts_readFramed_open path _ current.utf8ByteSize hwire rfl hfirst hroom
    have hnone : Plan.resolveBuffer path none record = .ok none := rfl
    have hdecode := Decoder.decodeAt_of_framed schema htext hnone hread
      (data.drop (first + wire.terminatorSize)) start boundary
    rw [List.take_append_drop, List.length_take, Nat.min_eq_left (by omega)] at hdecode
    exact hdecode
  · rintro rfl rfl content hcontent
    exact not_mem_of_textOfBytes
      (WireType.terminatorIn_zstring_eq_none.1 (hfirst.terminatorIn_take hwire)) hcontent

/-- A buffer of five bytes holds one letter and a zero word, in which the zeros at the odd offset do
not end the string. -/
theorem decodeAt_terminated_odd :
    let settings : Settings :=
      ⟨.bigEndian, {}, .register .empty "utf16" (Text.Utf16.toCodec ⟨.littleEndian, false⟩)⟩
    let decoder : Decoder := ⟨[], settings, .steady [97, 0, 0, 0, 5, 9] 0, 0⟩
    decoder.decodeAt .top none ⟨some .z16string, .absent, some (.ofNat 5), some "utf16"⟩
        (.text "old") = (⟨.text "a", .ok 5⟩, ⟨[], settings, .steady [9] 5, 0⟩) ∧
      decoder.decodeAt .top none ⟨some .z16string, .absent, none, some "utf16"⟩ (.text "old") =
        (⟨.text "a", .ok 4⟩, ⟨[], settings, .steady [5, 9] 4, 0⟩) := by
  intro settings decoder
  have hsize : Plan.evalSize .top (.ofNat 5) none = .ok 5 := by cbv
  have hblob : 5 ≤ settings.limits.blob := by decide
  have hend : WireType.z16string.TerminatorAt [97, 0, 0, 0, 5, 9] 2 := ⟨by decide, by decide⟩
  have htext : settings.textOf .top (some "utf16") [97, 0] = .ok "a" := by cbv
  obtain ⟨first, hfirst, hbuffer, hopen, -⟩ := decodeAt_terminated (.inr rfl) hsize hblob hend
    (by decide) (by decide) (some "utf16") [] "old" 0 0
  have hfound := (WireType.terminatorIn_eq_some_iff (.inr rfl)).2 hfirst
  obtain rfl : 2 = first := Option.some.inj hfound
  change _ = (Decoded.ofText _ _ (settings.textOf .top (some "utf16") [97, 0]), _) at hbuffer hopen
  rw [htext] at hbuffer hopen
  exact ⟨hbuffer, hopen⟩

end PackedRecord
