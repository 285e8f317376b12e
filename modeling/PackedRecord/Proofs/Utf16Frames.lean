import PackedRecord.Proofs.ShortWrites
import PackedRecord.Proofs.TerminatedStrings
import PackedRecord.Proofs.Utf16Text

/-!
# UTF-16 strings in their frames

The bytes of a UTF-16 text are whole units, and a unit of zeros is a NUL. So a text without a NUL is
read back up to the zero word behind it, in a buffer and in a stream: `encodeAt_utf16_z16string`.
In a buffer without a terminator the codec gets the padding too. `decodeAt_utf16_string` says that
the padding is text, namely NULs, if the buffer has whole units, and that otherwise nothing that was
encoded is ever decoded.
-/

namespace PackedRecord

namespace Text.Utf16

variable {order : ByteOrder} {us : List Nat} {cs : List Char} {codec : Utf16} {data : Bytes}

/-- Joined characters have joined units. -/
theorem units_append (front back : List Char) : units (front ++ back) = units front ++ units back :=
  List.flatMap_append

/-- Joined units have joined bytes. -/
theorem unitBytes_append (order : ByteOrder) (front back : List Nat) :
    unitBytes order (front ++ back) = unitBytes order front ++ unitBytes order back :=
  List.flatMap_append

/-- Only the NUL has a unit of zeros. -/
theorem zero_mem_unitsOfChar {c : Char} : 0 ∈ unitsOfChar c ↔ c = Char.ofNat 0 := by
  have hzero : 0 = c.toNat ↔ c = Char.ofNat 0 := by
    constructor
    · intro h
      rw [h, Char.ofNat_toNat]
    · rintro rfl
      rfl
  rw [← hzero, unitsOfChar]
  generalize c.toNat = n
  split
  · rw [List.mem_singleton]
  · rw [List.mem_pair]
    omega

/-- A text has a unit of zeros if it has a NUL. -/
theorem zero_mem_units : 0 ∈ units cs ↔ Char.ofNat 0 ∈ cs := by
  rw [units, List.mem_flatMap]
  constructor
  · rintro ⟨c, hc, hzero⟩
    rwa [← zero_mem_unitsOfChar.1 hzero]
  · intro hc
    exact ⟨_, hc, zero_mem_unitsOfChar.2 rfl⟩

/-- A unit has zero bytes only if it is zero. -/
theorem bytes_eq_zeros {unit : Nat} (hunit : unit < 0x10000) :
    order.bytes 2 unit = Bytes.zeros 2 ↔ unit = 0 := by
  constructor
  · intro h
    have hback := order.toNat_bytes 2 unit
    rw [h, ByteOrder.toNat_zeros, Nat.mod_eq_of_lt hunit] at hback
    exact hback.symm
  · rintro rfl
    cases order <;> rfl

/-- Among the bytes of units, a zero word is a unit of zeros. -/
theorem terminatorIn_unitBytes (hsize : ∀ unit ∈ us, unit < 0x10000) :
    WireType.z16string.terminatorIn (unitBytes order us) = none ↔ 0 ∉ us := by
  induction us with
  | nil => exact iff_of_true rfl List.not_mem_nil
  | cons unit us ih =>
      obtain ⟨hunit, hrest⟩ := List.forall_mem_cons.1 hsize
      rw [unitBytes, List.flatMap_cons,
        WireType.terminatorIn_unit (.inr rfl) (order.length_bytes 2 unit), List.mem_cons, not_or]
      change (if order.bytes 2 unit = Bytes.zeros 2 then _ else _) = none ↔ _
      by_cases hzero : unit = 0
      · rw [if_pos ((bytes_eq_zeros hunit).2 hzero)]
        exact iff_of_false (Option.some_ne_none 0) fun h => h.1 hzero.symm
      · rw [if_neg (mt (bytes_eq_zeros hunit).1 hzero), Option.map_eq_none_iff]
        exact (ih hrest).trans (and_iff_right (Ne.symm hzero)).symm

/-- The bytes of a text have a zero word if the text has a NUL. -/
theorem terminatorIn_encodeChars :
    WireType.z16string.terminatorIn (codec.encodeChars cs) = none ↔ Char.ofNat 0 ∉ cs := by
  have hsize := (wellFormed_units cs).lt
  rw [encodeChars, ← zero_mem_units]
  cases codec.mark with
  | false => exact terminatorIn_unitBytes hsize
  | true =>
      have hmarked : ∀ unit ∈ markUnit :: units cs, unit < 0x10000 :=
        List.forall_mem_cons.2 ⟨by decide, hsize⟩
      refine (terminatorIn_unitBytes hmarked).trans (not_congr ?_)
      rw [List.mem_cons]
      exact or_iff_right (by decide)

/-- A codec writes whole units. -/
theorem two_dvd_length_encodeChars (codec : Utf16) (cs : List Char) :
    2 ∣ (codec.encodeChars cs).length := by
  rw [encodeChars, length_unitBytes]
  exact dvd_mul_right 2 _

/-- NULs are units of zero bytes, whatever the byte order. -/
theorem unitBytes_nuls (order : ByteOrder) (count : Nat) :
    unitBytes order (units (List.replicate count (Char.ofNat 0))) = Bytes.zeros (2 * count) := by
  induction count with
  | zero => rfl
  | succ count ih =>
      rw [List.replicate_succ', units_append, unitBytes_append, ih, Nat.mul_succ, Bytes.zeros_add]
      cases order <;> rfl

/-- NULs at the end of a text are encoded to zeros at the end of its bytes. -/
theorem encodeChars_append_nuls (codec : Utf16) (cs : List Char) (count : Nat) :
    codec.encodeChars (cs ++ List.replicate count (Char.ofNat 0)) =
      codec.encodeChars cs ++ Bytes.zeros (2 * count) := by
  rw [encodeChars, encodeChars, units_append, ← List.append_assoc, unitBytes_append,
    unitBytes_nuls]

/-- What was written is read. -/
theorem decode_encodeChars (codec : Utf16) (cs : List Char) :
    codec.decode (codec.encodeChars cs) = .ok (Utf8.encodeChars cs) :=
  decode_eq_ok_iff.2 ⟨cs, decodeChars_eq_ok_iff.2 ⟨_, body_encodeChars codec cs⟩, rfl⟩

/-- Bytes that end within a unit are refused before any unit is looked at. -/
theorem decode_of_odd (h : data.length % 2 = 1) : codec.decode data = .error .oddLength := by
  have hbody : ofUnitBytes (codec.splitMark data).1 (codec.splitMark data).2 = none := by
    rw [Option.eq_none_iff_forall_ne_some]
    intro us hus
    have hsplit : Body codec data (codec.splitMark data).1 (codec.splitMark data).2 :=
      body_iff_splitMark.2 rfl
    rw [← (unitBytes_ofUnitBytes hus).1] at hsplit
    have heven := hsplit.length_mod
    omega
  unfold decode decodeChars
  simp only [hbody]
  rfl

/-- The text has no NUL, and the buffer, if there is one, has room for a zero word behind it. -/
structure Fits (codec : Utf16) (bufferLength : Option Nat) (text : String) : Prop where
  no_nul : Char.ofNat 0 ∉ text.toList
  length_add_le : ∀ size ∈ bufferLength, (codec.encodeChars text.toList).length + 2 ≤ size

end Text.Utf16

/-- A string whose bytes are `data` in its text encoding is written in the frame of `data`. -/
theorem encodeText_of_transcode {settings : Settings} {path : Path} {plan : Plan} {text : String}
    {data : Bytes} (h : settings.transcode Text.Codec.encode path plan.encoding
      (Text.Utf8.encode text) = .ok data) :
    encodeText settings path plan text =
      .ofExcept ((TextFrame.of plan.wire plan.bufferLength data).mapError (.located path)) >>=
        fun frame => frame.emit settings path data := by
  unfold encodeText
  rw [h, Emission.ofExcept_ok_bind]
  cases TextFrame.of plan.wire plan.bufferLength data <;> rfl

/-- The codec that is registered under the name does the conversion. -/
theorem transcode_of_find? {settings : Settings} {name : String} {codec : Text.Codec}
    (hcodec : settings.encodings.find? name = some codec)
    (convert : Text.Codec → Bytes → Except TransferFault Bytes) (path : Path) (data : Bytes) :
    settings.transcode convert path (some name) data =
      (convert codec data).mapError fun fault => .located path (.textEncoding fault) := by
  unfold Settings.transcode Settings.codec?
  simp only [hcodec]
  cases convert codec data <;> rfl

/-- The value of a size is the buffer length, unless it is zero. -/
theorem Plan.resolveBuffer_of_mapM {path : Path} {record : Option Record} {size : Option SizeExpr}
    {bufferLength : Option Nat}
    (hsize : size.mapM (Plan.evalSize path · record) = .ok bufferLength) :
    resolveBuffer path size record =
      if bufferLength = some 0 then .error (.located path .zeroBufferLength)
      else .ok bufferLength := by
  cases size with
  | none =>
      cases hsize
      rfl
  | some expr =>
      cases heval : evalSize path expr record with
      | error error =>
          simp only [Option.mapM, heval] at hsize
          cases hsize
      | ok length =>
          simp only [Option.mapM, heval] at hsize
          cases hsize
          cases length with
          | zero => simp only [resolveBuffer, heval, if_true]
          | succ length => simp only [resolveBuffer, heval]; rfl

/-- A string whose buffer length is refused is not encoded. -/
theorem encodeAt_text_of_resolveBuffer {settings : Settings} {path : Path} {record : Option Record}
    {tagged : Option WireType} {size : Option SizeExpr} {encoding : Option String} {text : String}
    {error : Error} (hbuffer : Plan.resolveBuffer path size record = .error error) :
    encodeAt settings path record ⟨tagged, .absent, size, encoding⟩ (.text text) =
      .fail error := by
  rw [encodeAt, Plan.resolve, Plan.resolveWire_text]
  simp only [Plan.resolveArray, hbuffer]
  rfl

section utf16

variable {settings : Settings} {path : Path} {record : Option Record} {name : String}
  {codec : Text.Utf16} {text : String} {size : Option SizeExpr} {bufferLength : Option Nat}

/-- A string is written in its frame as the bytes that the codec makes of it, if there is such a
frame. -/
theorem encodeText_utf16 (hcodec : settings.encodings.find? name = some codec.toCodec)
    (wire : WireType) (bufferLength : Option Nat) :
    encodeText settings path (.encoded wire bufferLength (some name)) text =
      .ofExcept ((TextFrame.of wire bufferLength (codec.encodeChars text.toList)).mapError
        (.located path)) >>=
          fun frame => frame.emit settings path (codec.encodeChars text.toList) := by
  refine encodeText_of_transcode ?_
  show settings.transcode Text.Codec.encode path (some name) _ = _
  rw [transcode_of_find? hcodec]
  show (codec.encode (Text.Utf8.encodeChars text.toList)).mapError _ = _
  rw [Text.Utf16.encode_encodeChars]
  rfl

/-- The content of a frame with a text and some NULs stands for the text. -/
theorem textOf_utf16 (hcodec : settings.encodings.find? name = some codec.toCodec)
    (path : Path) (hnul : ¬ EndsWithNul text) (count : Nat) :
    settings.textOf path (some name)
      (codec.encodeChars text.toList ++ Bytes.zeros (2 * count)) = .ok text := by
  unfold Settings.textOf
  rw [transcode_of_find? hcodec, ← Text.Utf16.encodeChars_append_nuls]
  show (codec.decode _).mapError _ >>= _ = _
  rw [Text.Utf16.decode_encodeChars, Text.Utf8.encodeChars_append,
    Text.Utf8.encodeChars_replicate]
  exact textOfBytes_append_zeros hnul count

/-- The bytes of a text without a NUL are read as that text. -/
theorem textOf_utf16_of_not_mem (hcodec : settings.encodings.find? name = some codec.toCodec)
    (path : Path) (hnul : Char.ofNat 0 ∉ text.toList) :
    settings.textOf path (some name) (codec.encodeChars text.toList) = .ok text := by
  have htext := textOf_utf16 hcodec path (fun hlast => hnul (List.mem_of_getLast? hlast)) 0
  rwa [Nat.mul_zero, Bytes.zeros_zero, List.append_nil] at htext

/-- The content of a frame that ends within a unit stands for nothing. -/
theorem textOf_utf16_odd (hcodec : settings.encodings.find? name = some codec.toCodec)
    (path : Path) {content : Bytes} (hodd : content.length % 2 = 1) :
    settings.textOf path (some name) content =
      .error (.located path (.textEncoding .oddLength)) := by
  unfold Settings.textOf
  rw [transcode_of_find? hcodec]
  show (codec.decode _).mapError _ >>= _ = _
  rw [Text.Utf16.decode_of_odd hodd]
  rfl

/-- The texts that fit are those with a frame, which ends with the buffer or with a zero word. -/
theorem frame_z16string_iff {frame : TextFrame} :
    TextFrame.of .z16string bufferLength (codec.encodeChars text.toList) = .ok frame ↔
      codec.Fits bufferLength text ∧
        frame = ⟨none, bufferLength.getD ((codec.encodeChars text.toList).length + 2)⟩ := by
  have hterminated : terminatedSize .z16string (codec.encodeChars text.toList).length =
      (codec.encodeChars text.toList).length + 2 := by
    rw [terminatedSize, if_pos rfl, Nat.mod_eq_zero_of_dvd (codec.two_dvd_length_encodeChars _),
      Nat.add_zero]
  have hexists : (∃ frame, TextFrame.of .z16string bufferLength (codec.encodeChars text.toList) =
      .ok frame) ↔ codec.Fits bufferLength text := by
    rw [TextFrame.exists_of_terminated_iff (.inr rfl), Text.Utf16.terminatorIn_encodeChars,
      hterminated]
    constructor
    · rintro ⟨hnul, hfits⟩
      refine ⟨hnul, ?_⟩
      rintro size rfl
      exact hfits
    · rintro ⟨hnul, hfits⟩
      refine ⟨hnul, ?_⟩
      cases bufferLength with
      | none => exact le_rfl
      | some size => exact hfits size rfl
  constructor
  · intro hframe
    obtain ⟨-, -, hsize⟩ := TextFrame.of_terminated (.inr rfl) hframe
    exact ⟨hexists.1 ⟨frame, hframe⟩, hterminated ▸ hsize⟩
  · rintro ⟨hfits, rfl⟩
    obtain ⟨frame, hframe⟩ := hexists.2 hfits
    obtain ⟨-, -, hsize⟩ := TextFrame.of_terminated (.inr rfl) hframe
    rw [hframe, hsize, hterminated]

/-- A text that fits is written with zeros behind it. -/
theorem yields_encodeText_utf16 (hcodec : settings.encodings.find? name = some codec.toCodec)
    (path : Path) (hfits : codec.Fits bufferLength text) :
    let data := codec.encodeChars text.toList
    (encodeText settings path (.encoded .z16string bufferLength (some name)) text).Yields
      (data ++ Bytes.zeros (bufferLength.getD (data.length + 2) - data.length)) () := by
  intro data
  rw [encodeText_utf16 hcodec, frame_z16string_iff.2 ⟨hfits, rfl⟩, Except.mapError,
    Emission.ofExcept_ok_bind]
  exact TextFrame.yields_emit_plain.2 rfl

/-- Of a text that does not fit, nothing is written. -/
theorem encodeText_utf16_of_not_fits (hcodec : settings.encodings.find? name = some codec.toCodec)
    (path : Path) (hfits : ¬ codec.Fits bufferLength text) :
    ∃ fault, encodeText settings path (.encoded .z16string bufferLength (some name)) text =
      .fail (.located path fault) := by
  rw [encodeText_utf16 hcodec]
  cases hframe : TextFrame.of .z16string bufferLength (codec.encodeChars text.toList) with
  | error fault => exact ⟨fault, rfl⟩
  | ok frame => exact absurd (frame_z16string_iff.1 hframe).1 hfits

/-- A text without a NUL is read up to the zero word behind it, which is in the buffer or is what
ends the stream. -/
theorem accepts_readFramed_utf16 (path : Path) (encoding : Option String) (current : Nat)
    (hfits : codec.Fits bufferLength text)
    (hblob : bufferLength.getD (codec.encodeChars text.toList).length ≤ settings.limits.blob) :
    let data := codec.encodeChars text.toList
    (readFramed settings path (.encoded .z16string bufferLength encoding) current).Accepts
      (data ++ Bytes.zeros (bufferLength.getD (data.length + 2) - data.length)) data := by
  intro data
  have hfirst {count : Nat} (hcount : 2 ≤ count) :
      WireType.z16string.FirstTerminator (data ++ Bytes.zeros count) data.length :=
    WireType.firstTerminator_append_zeros (.inr rfl) (codec.two_dvd_length_encodeChars _)
      (Text.Utf16.terminatorIn_encodeChars.2 hfits.no_nul) hcount
  cases bufferLength with
  | some size =>
      have hsize : data.length + 2 ≤ size := hfits.length_add_le size rfl
      have hlength : (data ++ Bytes.zeros (size - data.length)).length = size := by
        rw [List.length_append, Bytes.length_zeros]
        omega
      have hread := accepts_readFramed_first path (.encoded .z16string (some size) encoding) current
        (.inr rfl) rfl (hfirst (show 2 ≤ size - data.length by omega)) hlength hblob
      rwa [List.take_left] at hread
  | none =>
      have hread : (readFramed settings path (.encoded .z16string none encoding) current).Accepts
          ((data ++ Bytes.zeros 2).take (data.length + 2))
          ((data ++ Bytes.zeros 2).take data.length) :=
        accepts_readFramed_open path _ current (.inr rfl) rfl (hfirst le_rfl) hblob
      have hlength : (data ++ Bytes.zeros 2).length = data.length + 2 := by
        rw [List.length_append, Bytes.length_zeros]
      rw [List.take_left, List.take_of_length_le hlength.le] at hread
      rwa [Option.getD_none, Nat.add_sub_cancel_left]

/-- A text is encoded in UTF-16 with a zero word behind it exactly if it has no NUL and a buffer, if
there is one, has room for the zero word too; a buffer may be of odd length. What it was encoded to
is decoded to the text, whatever follows it and whatever the destination held. Of any other text no
byte is written. -/
theorem encodeAt_utf16_z16string (hcodec : settings.encodings.find? name = some codec.toCodec)
    (hsize : size.mapM (Plan.evalSize path · record) = .ok bufferLength) (text : String) :
    let tag : Tag := ⟨some .z16string, .absent, size, some name⟩
    let data : Bytes := codec.encodeChars text.toList
    (codec.Fits bufferLength text →
      ∃ bytes : Bytes,
        (∀ sink : Sink, sink.NeverFails → ∃ after,
          (⟨settings, sink⟩ : Encoder).encodeAt path record tag (.text text) =
            (.ok bytes.length, ⟨settings, after⟩) ∧
          after.held.toList = sink.held.toList ++ bytes) ∧
        ∀ (schema : Schema) (current : String) (rest : Bytes) (start boundary : Nat),
          bufferLength.getD data.length ≤ settings.limits.blob →
          (⟨schema, settings, .steady (bytes ++ rest) start, boundary⟩ : Decoder).decodeAt path
              record tag (.text current) =
            (⟨.text text, .ok bytes.length⟩,
              ⟨schema, settings, .steady rest (start + bytes.length), boundary⟩)) ∧
    (¬ codec.Fits bufferLength text →
      ∀ sink : Sink, ∃ fault,
        (⟨settings, sink⟩ : Encoder).encodeAt path record tag (.text text) =
          (.error (.located path fault), ⟨settings, sink⟩)) := by
  intro tag data
  have hwire : ((some WireType.z16string).getD .string).isText = true := rfl
  have hbuffer := Plan.resolveBuffer_of_mapM hsize
  constructor
  · intro hfits
    have hpos : bufferLength ≠ some 0 := fun hzero =>
      absurd (hfits.length_add_le 0 hzero) (Nat.not_succ_le_zero _)
    rw [if_neg hpos] at hbuffer
    refine ⟨data ++ Bytes.zeros (bufferLength.getD (data.length + 2) - data.length), ?_, ?_⟩
    · intro sink hsink
      refine Encoder.run_of_yields ⟨settings, sink⟩ hsink (Emission.yields_sized.2 ⟨(), ?_, rfl⟩)
      rw [encodeAt_text_encoded hwire hbuffer]
      exact yields_encodeText_utf16 hcodec path hfits
    · intro schema current rest start boundary hblob
      have hread := accepts_readFramed_utf16 path (some name) current.utf8ByteSize hfits hblob
      have hdecode := Decoder.decodeAt_of_framed schema hwire hbuffer hread rest start boundary
      rwa [textOf_utf16_of_not_mem hcodec path hfits.no_nul] at hdecode
  · intro hfits sink
    -- A buffer of no bytes is refused before the text is looked at.
    by_cases hzero : bufferLength = some 0
    · rw [if_pos hzero] at hbuffer
      refine ⟨.zeroBufferLength, ?_⟩
      rw [Encoder.encodeAt, encodeAt_text_of_resolveBuffer hbuffer]
      rfl
    · rw [if_neg hzero] at hbuffer
      obtain ⟨fault, hfault⟩ := encodeText_utf16_of_not_fits hcodec path hfits
      refine ⟨fault, ?_⟩
      rw [Encoder.encodeAt, encodeAt_text_encoded hwire hbuffer]
      exact hfault ▸ rfl

/-- A text in a buffer of nine bytes, among which two zeros stand at an odd offset in front of the
zero word. A text with a NUL does not fit. -/
theorem encodeAt_utf16_z16string_marked :
    let settings : Settings :=
      ⟨.bigEndian, {}, .register .empty "utf16" (Text.Utf16.toCodec ⟨.littleEndian, true⟩)⟩
    let tag : Tag := ⟨some .z16string, .absent, some (.ofNat 9), some "utf16"⟩
    (∃ bytes : Bytes,
      (∃ after, (⟨settings, .willing #[9]⟩ : Encoder).encodeAt .top none tag (.text "aĀ") =
          (.ok bytes.length, ⟨settings, after⟩) ∧
        after.held.toList = 9 :: bytes) ∧
      (⟨[], settings, .steady (bytes ++ [7]) 1, 0⟩ : Decoder).decodeAt .top none tag
          (.text "old") =
        (⟨.text "aĀ", .ok bytes.length⟩, ⟨[], settings, .steady [7] (1 + bytes.length), 0⟩)) ∧
    ∃ fault, (⟨settings, .willing #[9]⟩ : Encoder).encodeAt .top none tag (.text "a\x00") =
      (.error (.located .top fault), ⟨settings, .willing #[9]⟩) := by
  intro settings tag
  have hcodec : settings.encodings.find? "utf16" =
      some (Text.Utf16.toCodec ⟨.littleEndian, true⟩) := Text.Encodings.find?_register_self _ _ _
  have hsize : (some (SizeExpr.ofNat 9)).mapM (Plan.evalSize .top · none) = .ok (some 9) := by cbv
  have hfits : Text.Utf16.Fits ⟨.littleEndian, true⟩ (some 9) "aĀ" := by
    refine ⟨by decide, ?_⟩
    rintro size ⟨⟩
    decide
  obtain ⟨bytes, hencode, hdecode⟩ := (encodeAt_utf16_z16string hcodec hsize "aĀ").1 hfits
  refine ⟨⟨bytes, hencode _ (Sink.neverFails_willing #[9]), ?_⟩, ?_⟩
  · exact hdecode [] "old" [7] 1 0 (by decide)
  · exact (encodeAt_utf16_z16string hcodec hsize "a\x00").2
      (fun hfits => absurd hfits.no_nul (by decide)) _

/-- The bytes of a text that was encoded in a buffer are padded with zeros up to its end. -/
theorem exists_padding_of_yields (hcodec : settings.encodings.find? name = some codec.toCodec)
    {size : Nat} {bytes : Bytes}
    (h : (encodeText settings path (.encoded .string (some size) (some name)) text).Yields
      bytes ()) :
    ∃ padding, bytes = codec.encodeChars text.toList ++ Bytes.zeros padding ∧
      bytes.length = size := by
  rw [encodeText_utf16 hcodec] at h
  cases hframe : TextFrame.of .string (some size) (codec.encodeChars text.toList) with
  | error fault =>
      rw [hframe] at h
      exact (Emission.not_yields_fail h).elim
  | ok frame =>
      obtain ⟨hfits, -, rfl⟩ := TextFrame.of_counted ⟨by decide, by decide⟩ hframe
      rw [Option.getD_some] at hfits
      rw [hframe, Except.mapError, Emission.ofExcept_ok_bind] at h
      have hbytes := TextFrame.yields_emit_plain.1 h
      refine ⟨_, hbytes, ?_⟩
      rw [hbytes, List.length_append, Bytes.length_zeros]
      exact Nat.add_sub_cancel' hfits

/-- A buffer is read as a whole. -/
theorem accepts_readFramed_string {bytes : Bytes} (path : Path) (encoding : Option String)
    (current : Nat) (hblob : bytes.length ≤ settings.limits.blob) :
    (readFramed settings path (.encoded .string (some bytes.length) encoding) current).Accepts
      bytes bytes := by
  have hwire : (Plan.encoded .string (some bytes.length) encoding).wire ≠ .zstring ∧
      (Plan.encoded .string (some bytes.length) encoding).wire ≠ .z16string :=
    show WireType.string ≠ .zstring ∧ WireType.string ≠ .z16string by decide
  have hread : (readBlob settings path bytes.length).Accepts bytes bytes := accepts_readBlob hblob
  rw [readFramed_counted settings path current hwire]
  show (Intake.done bytes.length >>= fun length =>
    readBlob settings path (max length bytes.length) >>= fun data =>
      pure (data.take length)).Accepts bytes bytes
  rw [Intake.done_bind, Nat.max_self]
  exact hread.bind_done ⟨rfl, List.take_length⟩

/-- A text without a NUL at its end that was encoded in UTF-16 in a buffer fills the buffer. If the
buffer has an even number of bytes, it is decoded to the text. If it has an odd number, its last
byte, which is padding, is refused by the codec, whatever the text was. The buffer is consumed
either way. -/
theorem decodeAt_utf16_string (hcodec : settings.encodings.find? name = some codec.toCodec)
    {expr : SizeExpr} {size : Nat} (hsize : Plan.evalSize path expr record = .ok size)
    (hblob : size ≤ settings.limits.blob) (hnul : ¬ EndsWithNul text) {count : Nat}
    {after : Encoder} (hencode : (⟨settings, .unbounded⟩ : Encoder).encodeAt path record
      ⟨some .string, .absent, some expr, some name⟩ (.text text) = (.ok count, after))
    (schema : Schema) (current : String) (rest : Bytes) (start boundary : Nat) :
    count = size ∧
      (⟨schema, settings, .steady (after.output ++ rest) start, boundary⟩ : Decoder).decodeAt path
          record ⟨some .string, .absent, some expr, some name⟩ (.text current) =
        (if size % 2 = 0 then ⟨.text text, .ok size⟩
          else ⟨.text current, .error (.located path (.textEncoding .oddLength))⟩,
        ⟨schema, settings, .steady rest (start + size), boundary⟩) := by
  have hwire : ((some WireType.string).getD .string).isText = true := rfl
  obtain ⟨hyields, rfl⟩ := Encoder.yields_of_encodeAt hencode
  generalize after.output = bytes at hyields
  have hpos : size ≠ 0 := by
    rintro rfl
    have hrefused : Plan.resolveBuffer path (some expr) record =
        .error (.located path .zeroBufferLength) := by simp only [Plan.resolveBuffer, hsize]
    rw [encodeAt_text_of_resolveBuffer hrefused] at hyields
    exact Emission.not_yields_fail hyields
  have hbuffer := Plan.resolveBuffer_some hsize (Nat.pos_of_ne_zero hpos)
  rw [encodeAt_text_encoded hwire hbuffer] at hyields
  obtain ⟨padding, hbytes, rfl⟩ := exists_padding_of_yields hcodec hyields
  refine ⟨rfl, ?_⟩
  rw [Decoder.decodeAt_of_framed schema hwire hbuffer
    (accepts_readFramed_string path (some name) _ hblob) rest start boundary]
  have hdata := codec.two_dvd_length_encodeChars text.toList
  by_cases heven : bytes.length % 2 = 0
  · obtain ⟨units, rfl⟩ : 2 ∣ padding := by
      rw [hbytes, List.length_append, Bytes.length_zeros] at heven
      omega
    rw [if_pos heven]
    nth_rewrite 2 [hbytes]
    rw [textOf_utf16 hcodec path hnul]
    rfl
  · rw [if_neg heven, textOf_utf16_odd hcodec path (by omega)]
    rfl

/-- A text behind a mark in a buffer with a unit of padding. -/
theorem decodeAt_utf16_string_marked :
    let settings : Settings :=
      ⟨.bigEndian, {}, .register .empty "utf16" (Text.Utf16.toCodec ⟨.littleEndian, true⟩)⟩
    let tag : Tag := ⟨some .string, .absent, some (.ofNat 6), some "utf16"⟩
    (¬ EndsWithNul "a" ∧ ∃ after : Encoder,
      (⟨settings, .unbounded⟩ : Encoder).encodeAt .top none tag (.text "a") = (.ok 6, after) ∧
        after.output = [255, 254, 97, 0, 0, 0]) ∧
    (⟨[], settings, .steady ([255, 254, 97, 0, 0, 0] ++ [7]) 0, 0⟩ : Decoder).decodeAt .top none tag
        (.text "") = (⟨.text "a", .ok 6⟩, ⟨[], settings, .steady [7] 6, 0⟩) := by
  intro settings tag
  have hcodec : settings.encodings.find? "utf16" =
      some (Text.Utf16.toCodec ⟨.littleEndian, true⟩) := Text.Encodings.find?_register_self _ _ _
  have hnul : ¬ EndsWithNul "a" := by decide
  have hsize : Plan.evalSize .top (.ofNat 6) none = .ok 6 := by cbv
  have hencode : (⟨settings, .unbounded⟩ : Encoder).encodeAt .top none tag (.text "a") =
      (.ok 6, ⟨settings, .willing #[255, 254, 97, 0, 0, 0]⟩) := by cbv
  refine ⟨⟨hnul, _, hencode, rfl⟩, ?_⟩
  exact (decodeAt_utf16_string hcodec hsize (by decide) hnul hencode [] "" [7] 0 0).2

/-- In a buffer of three bytes the same text is encoded, but what it was encoded to is refused. -/
theorem encodeAt_utf16_string_odd :
    let settings : Settings :=
      ⟨.bigEndian, {}, .register .empty "utf16" (Text.Utf16.toCodec ⟨.littleEndian, false⟩)⟩
    let tag : Tag := ⟨some .string, .absent, some (.ofNat 3), some "utf16"⟩
    (⟨settings, .unbounded⟩ : Encoder).encodeAt .top none tag (.text "a") =
        (.ok 3, ⟨settings, .willing #[97, 0, 0]⟩) ∧
      (⟨[], settings, .steady [97, 0, 0] 0, 0⟩ : Decoder).decodeAt .top none tag (.text "") =
        (⟨.text "", .error (.located .top (.textEncoding .oddLength))⟩,
          ⟨[], settings, .steady [] 3, 0⟩) := by
  intro settings tag
  constructor <;> cbv

end utf16

end PackedRecord
