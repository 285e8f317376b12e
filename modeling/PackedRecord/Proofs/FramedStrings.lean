import PackedRecord.Proofs.Calls
import PackedRecord.Proofs.Failures
import PackedRecord.Proofs.WordTerminators

/-!
# Strings and the frames that they fit

`WireType.Fits` says which strings the frames of the wire types take: a counted one is no longer
than its buffer, which is no longer than its length field can say, and a terminated one leaves room
for the zero byte that does not occur in it. `encodeAt_string` says that the strings which fit are
those that are encoded, that they come back without the NULs at their end from exactly the bytes
that they were encoded to, and that of any other string no byte is written.
-/

namespace PackedRecord

namespace WireType

/-- The wire type has a frame for the string of bytes `data`, in a buffer of the given length. -/
def Fits (wire : WireType) (bufferLength : Option Nat) (data : Bytes) : Prop :=
  let bufferSize := bufferLength.getD data.length
  match wire with
  | .bstring => data.length ≤ bufferSize ∧ bufferSize ≤ 255
  | .wstring => data.length ≤ bufferSize ∧ bufferSize ≤ 65535
  | .dwstring => data.length ≤ bufferSize ∧ bufferSize ≤ 4294967295
  | .zstring => 0 ∉ data ∧ data.length + 1 ≤ bufferLength.getD (data.length + 1)
  | _ => data.length ≤ bufferSize

variable {wire : WireType} {bufferLength : Option Nat} {data : Bytes}

/-- A string has no terminator in it exactly if it has no zero byte. -/
theorem terminatorIn_zstring_eq_none : zstring.terminatorIn data = none ↔ 0 ∉ data := by
  show data.findIdx? (· == 0) = none ↔ _
  rw [List.findIdx?_eq_none_iff]
  constructor
  · intro h hzero
    exact absurd (h 0 hzero) (by decide)
  · rintro h byte hbyte
    rw [beq_eq_false_iff_ne]
    rintro rfl
    exact h hbyte

/-- A terminated string fits if it has no terminator in it and the buffer has room for one
behind it. -/
theorem fits_zstring_iff :
    zstring.Fits bufferLength data ↔
      zstring.terminatorIn data = none ∧
        terminatedSize .zstring data.length ≤
          bufferLength.getD (terminatedSize .zstring data.length) := by
  rw [terminatorIn_zstring_eq_none]
  rfl

/-- A string without a terminator fits if its length field can hold the length of its buffer. -/
theorem fits_counted_iff (hwire : wire ≠ .zstring) :
    wire.Fits bufferLength data ↔
      data.length ≤ bufferLength.getD data.length ∧
        ∀ size, wire.lengthSize? = some size →
          bufferLength.getD data.length ≤ maxLength size := by
  cases wire <;> simp [Fits, lengthSize?, maxLength] at hwire ⊢

/-- A text type with neither a length field nor a terminator is that of bare strings. -/
theorem eq_string (htext : wire.isText = true) (hword : wire ≠ .z16string)
    (hzstring : wire ≠ .zstring) (hwidth : wire.lengthSize? = none) : wire = .string := by
  revert htext hword hzstring hwidth
  cases wire <;> decide

end WireType

namespace TextFrame

variable {wire : WireType} {bufferLength : Option Nat} {data : Bytes}

/-- A string has a frame with a terminator if it holds none of its own and there is room for it
behind the string. -/
theorem exists_of_terminated_iff (hwire : wire = .zstring ∨ wire = .z16string) :
    (∃ frame, TextFrame.of wire bufferLength data = .ok frame) ↔
      wire.terminatorIn data = none ∧
        terminatedSize wire data.length ≤
          bufferLength.getD (terminatedSize wire data.length) := by
  constructor
  · rintro ⟨frame, hframe⟩
    obtain ⟨hnone, hfits, -⟩ := of_terminated hwire hframe
    exact ⟨hnone, hfits⟩
  · rintro ⟨hnone, hfits⟩
    rcases hwire with rfl | rfl
    all_goals exact ⟨_, by simp only [TextFrame.of, hnone, Option.isSome_none, Bool.false_eq_true,
      if_false, if_neg (Nat.not_lt.2 hfits)]; rfl⟩

/-- The strings that fit are those that have a frame. -/
theorem exists_of_iff_fits (hwire : wire ≠ .z16string) :
    (∃ frame, TextFrame.of wire bufferLength data = .ok frame) ↔ wire.Fits bufferLength data := by
  by_cases hterminated : wire = .zstring
  · subst hterminated
    rw [WireType.fits_zstring_iff]
    exact exists_of_terminated_iff (.inl rfl)
  · rw [WireType.fits_counted_iff hterminated]
    constructor
    · rintro ⟨frame, hframe⟩
      obtain ⟨hfits, hmax, -⟩ := of_counted ⟨hterminated, hwire⟩ hframe
      exact ⟨hfits, hmax⟩
    · rintro ⟨hfits, hmax⟩
      unfold TextFrame.of
      split
      · exact (hterminated rfl).elim
      · exact (hwire rfl).elim
      · simp only [if_neg (Nat.not_lt.2 hfits)]
        cases hsize : wire.lengthSize? with
        | none => exact ⟨_, rfl⟩
        | some size => exact ⟨_, if_neg (Nat.not_lt.2 (hmax size hsize))⟩

end TextFrame

section text

variable {settings : Settings} {path : Path} {plan : Plan} {text : String} {bytes : Bytes}

/-- Of a string that does not fit, nothing is written. -/
theorem encodeText_of_not_fits (settings : Settings) (path : Path) (plan : Plan)
    (hwire : plan.wire ≠ .z16string)
    (hencoding : plan.encoding = none)
    (h : ¬ plan.wire.Fits plan.bufferLength (Text.Utf8.encode text)) :
    ∃ fault, encodeText settings path plan text = .fail (.located path fault) := by
  unfold encodeText
  rw [hencoding, transcode_none, Emission.ofExcept_ok_bind]
  cases hframe : TextFrame.of plan.wire plan.bufferLength (Text.Utf8.encode text) with
  | error fault => exact ⟨fault, rfl⟩
  | ok frame => exact absurd ((TextFrame.exists_of_iff_fits hwire).1 ⟨frame, hframe⟩) h

/-- A string that fits is written. -/
theorem yields_encodeText_of_fits (settings : Settings) (path : Path) (plan : Plan)
    (hwire : plan.wire ≠ .z16string) (hencoding : plan.encoding = none)
    (h : plan.wire.Fits plan.bufferLength (Text.Utf8.encode text)) :
    ∃ bytes, (encodeText settings path plan text).Yields bytes () := by
  obtain ⟨frame, hframe⟩ := (TextFrame.exists_of_iff_fits hwire).2 h
  unfold encodeText
  rw [hencoding, transcode_none, Emission.ofExcept_ok_bind]
  simp only [hframe]
  cases houtcome : (frame.emit settings path (Text.Utf8.encode text)).outcome with
  | ok result => exact ⟨_, houtcome, rfl⟩
  | error error => exact absurd ⟨houtcome, rfl⟩ (not_fails_emit hframe)

/-- A string without a zero byte does not end with one. -/
theorem Bytes.endsClean_of_notMem {data : Bytes} (h : 0 ∉ data) : data.EndsClean :=
  fun hlast => h (List.mem_of_getLast? hlast)

/-- A string that was written is decoded without the NULs at its end. Without a frame, the
destination has to say how long it is. -/
theorem accepts_decodeText_of_yields {current : Nat} (path' : Path)
    (hwire : plan.wire ≠ .z16string) (hencoding : plan.encoding = none)
    (hcurrent : plan.wire.lengthSize? = none → plan.wire ≠ .zstring → plan.bufferLength = none →
      current = text.utf8ByteSize)
    (hblob : plan.bufferLength.getD text.utf8ByteSize ≤ settings.limits.blob)
    (h : (encodeText settings path plan text).Yields bytes ()) :
    (decodeText settings path' plan current).Accepts bytes (withoutTrailingNuls text) := by
  obtain ⟨frame, hframe, hbytes⟩ := frame_of_yields hencoding h
  rw [← Text.Utf8.length_encode] at hcurrent hblob
  -- Whatever the frame is, what is read from it are the bytes of the text and some zeros.
  have hframed : ∃ padding, (readFramed settings path' plan current).Accepts bytes
      (Text.Utf8.encode text ++ Bytes.zeros padding) := by
    by_cases hterminated : plan.wire = .zstring
    · have hclean : (Text.Utf8.encode text).EndsClean := by
        obtain ⟨hnone, -⟩ := TextFrame.of_terminated (.inl hterminated) hframe
        rw [hterminated] at hnone
        exact Bytes.endsClean_of_notMem (WireType.terminatorIn_zstring_eq_none.1 hnone)
      cases hsize : plan.bufferLength with
      | some size =>
          rw [hsize] at hblob
          exact accepts_readFramed_buffer current (.inl hterminated) hsize hclean hframe hbytes
            hblob
      | none =>
          rw [hsize] at hblob
          refine accepts_readFramed_terminator current (.inl hterminated) hsize hclean hframe
            hbytes ?_
          rw [WireType.blobSize, if_neg hwire]
          exact hblob
    · cases hwidth : plan.wire.lengthSize? with
      | none =>
          exact accepts_readFramed_plain ⟨hterminated, hwire⟩ hwidth hencoding
            (hcurrent hwidth hterminated) hframe hbytes hblob
      | some size =>
          refine ⟨0, ?_⟩
          rw [Bytes.zeros_zero, List.append_nil]
          exact accepts_readFramed_prefixed current ⟨hterminated, hwire⟩ hwidth hframe hbytes hblob
  obtain ⟨padding, hframed⟩ := hframed
  refine hframed.bind_done ?_
  rw [hencoding, transcode_none]
  refine Intake.Accepts.bind_done ⟨rfl, rfl⟩ ?_
  rw [textOfBytes_of_dropTrailingZeros (Bytes.dropTrailingZeros_zeros _ _)]
  exact ⟨rfl, rfl⟩

end text

/-- An emission that ends well ends well on a sink that never fails, which then holds its bytes. -/
theorem Encoder.run_of_yields {α : Type} (encoder : Encoder) {emission : Emission α}
    {bytes : Bytes} {result : α} (hsink : encoder.sink.NeverFails)
    (h : emission.Yields bytes result) :
    ∃ sink, encoder.run emission = (.ok result, { encoder with sink }) ∧
      sink.held.toList = encoder.sink.held.toList ++ bytes := by
  have habsorb := hsink emission.writes
  unfold run
  cases hwrites : encoder.sink.absorb emission.writes with
  | mk outcome sink =>
      rw [hwrites] at habsorb
      subst habsorb
      refine ⟨sink, ?_, ?_⟩
      · simp only [h.1]
      · rw [Sink.held_of_absorb_ok hwrites, ← h.2]
        rfl

namespace Plan

/-- The plan of a string in a frame. -/
def framed (wire : WireType) (bufferLength : Option Nat) : Plan :=
  ⟨wire, false, none, bufferLength, 0, none⟩

/-- The plan of a string in a frame, with a text encoding if the tag names one. -/
def encoded (wire : WireType) (bufferLength : Option Nat) (encoding : Option String) : Plan :=
  { framed wire bufferLength with encoding }

variable {path : Path} {record : Option Record} {tagged : Option WireType} {size : Option SizeExpr}
  {bufferLength : Option Nat} {encoding : Option String}

/-- A string is a bare one unless its tag says otherwise. -/
theorem resolveWire_text (path : Path) (tagged : Option WireType) (text : String) :
    resolveWire path (.text text) tagged = .ok (tagged.getD .string) := by
  cases tagged with
  | none => rfl
  | some wire => cases wire <;> rfl

/-- A string without brackets is planned as its tag and its buffer length say. -/
theorem resolve_text (hsize : resolveBuffer path size record = .ok bufferLength) (text : String) :
    resolve path (.text text) ⟨tagged, .absent, size, encoding⟩ record =
      .ok (encoded (tagged.getD .string) bufferLength encoding) := by
  simp only [resolve, resolveWire_text, resolveArray, hsize]
  rfl

/-- A string in a frame stands behind no reference. -/
theorem isDirect_encoded {wire : WireType} (hwire : wire.isText = true) :
    (encoded wire bufferLength encoding).IsDirect :=
  { not_pad := by
      rintro (hpad : wire = .pad)
      rw [hpad] at hwire
      exact absurd hwire (by decide)
    not_ignore := by
      rintro (hignore : wire = .ignore)
      rw [hignore] at hwire
      exact absurd hwire (by decide)
    indirection_eq := rfl }

end Plan

section string

variable {settings : Settings} {path : Path} {record : Option Record} {tagged : Option WireType}
  {size : Option SizeExpr} {bufferLength : Option Nat}

/-- A string is encoded in the frame and the text encoding of its tag. -/
theorem encodeAt_text_encoded (hwire : (tagged.getD .string).isText = true)
    (hsize : Plan.resolveBuffer path size record = .ok bufferLength) (encoding : Option String)
    (text : String) :
    encodeAt settings path record ⟨tagged, .absent, size, encoding⟩ (.text text) =
      encodeText settings path (.encoded (tagged.getD .string) bufferLength encoding) text := by
  rw [encodeAt, Plan.resolve_text hsize, Emission.ofExcept_ok_bind, encodeValue,
    encodeIn_eq, (Plan.isDirect_encoded hwire).encodeWith_eq]
  exact if_pos hwire

/-- A string is encoded in the frame that its tag gives. -/
theorem encodeAt_text (hwire : (tagged.getD .string).isText = true)
    (hsize : Plan.resolveBuffer path size record = .ok bufferLength) (text : String) :
    encodeAt settings path record ⟨tagged, .absent, size, none⟩ (.text text) =
      encodeText settings path (.framed (tagged.getD .string) bufferLength) text :=
  encodeAt_text_encoded hwire hsize none text

/-- A string is decoded from the frame and the text encoding of its tag. -/
theorem decodeAt_text_encoded (schema : Schema) (hwire : (tagged.getD .string).isText = true)
    (hsize : Plan.resolveBuffer path size record = .ok bufferLength) (encoding : Option String)
    (current : String) :
    decodeAt schema settings path record ⟨tagged, .absent, size, encoding⟩ (.text current) =
      putText path (.text current)
        (decodeText settings path (.encoded (tagged.getD .string) bufferLength encoding)
          current.utf8ByteSize) := by
  rw [decodeAt, Plan.resolve_text hsize]
  show decodeIn schema settings (settings.limits.room path) path (.text current) _ = _
  rw [decodeIn_eq, (Plan.isDirect_encoded hwire).decodeWith_eq]
  exact if_pos hwire

/-- A string is decoded from the frame that its tag gives, and put in place as a whole. -/
theorem decodeAt_text (schema : Schema) (hwire : (tagged.getD .string).isText = true)
    (hsize : Plan.resolveBuffer path size record = .ok bufferLength) (current : String) :
    decodeAt schema settings path record ⟨tagged, .absent, size, none⟩ (.text current) =
      putText path (.text current)
        (decodeText settings path (.framed (tagged.getD .string) bufferLength)
          current.utf8ByteSize) :=
  decodeAt_text_encoded schema hwire hsize none current

/-- A string is encoded by a tag without a text encoding exactly if it fits the frame that the tag
gives it. What it was encoded to is decoded by the same tag, whatever follows it, to the string
without the NULs at its end, into any string or, where the tag gives no frame at all, into one of
its length. If it does not fit, no byte is written. -/
theorem encodeAt_string (settings : Settings) (hwire : (tagged.getD .string).isText = true)
    (hword : tagged ≠ some .z16string)
    (hsize : Plan.resolveBuffer path size record = .ok bufferLength) (text : String) :
    ((tagged.getD .string).Fits bufferLength (Text.Utf8.encode text) →
      ∃ bytes,
        (∀ sink : Sink, sink.NeverFails → ∃ after,
          (⟨settings, sink⟩ : Encoder).encodeAt path record ⟨tagged, .absent, size, none⟩
            (.text text) = (.ok bytes.length, ⟨settings, after⟩) ∧
          after.held.toList = sink.held.toList ++ bytes) ∧
        ∀ (schema : Schema) (current : String) (rest : Bytes) (start boundary : Nat),
          bufferLength.getD text.utf8ByteSize ≤ settings.limits.blob →
          (tagged.getD .string = .string → bufferLength = none →
            current.utf8ByteSize = text.utf8ByteSize) →
          (⟨schema, settings, .steady (bytes ++ rest) start, boundary⟩ : Decoder).decodeAt path
              record ⟨tagged, .absent, size, none⟩ (.text current) =
            (⟨.text (withoutTrailingNuls text), .ok bytes.length⟩,
              ⟨schema, settings, .steady rest (start + bytes.length), boundary⟩)) ∧
    (¬ (tagged.getD .string).Fits bufferLength (Text.Utf8.encode text) → ∀ sink : Sink, ∃ fault,
      (⟨settings, sink⟩ : Encoder).encodeAt path record ⟨tagged, .absent, size, none⟩
        (.text text) = (.error (.located path fault), ⟨settings, sink⟩)) := by
  have hword' : tagged.getD .string ≠ .z16string := by
    cases tagged with
    | none => decide
    | some wire => exact fun h => hword (congrArg some h)
  constructor
  · intro hfits
    obtain ⟨bytes, hyields⟩ := yields_encodeText_of_fits settings path
      (.framed (tagged.getD .string) bufferLength) hword' rfl hfits
    refine ⟨bytes, ?_, ?_⟩
    · intro sink hsink
      have hsized : (encodeAt settings path record ⟨tagged, .absent, size, none⟩
          (.text text)).sized.Yields bytes bytes.length := by
        rw [encodeAt_text hwire hsize]
        exact Emission.yields_sized.2 ⟨(), hyields, rfl⟩
      exact Encoder.run_of_yields ⟨settings, sink⟩ hsink hsized
    · intro schema current rest start boundary hblob hcurrent
      refine Decoder.decodeAt_of_accepts boundary start rest ?_
      rw [decodeAt_text schema hwire hsize]
      refine Intake.Accepts.bind_done (Intake.Accepts.leaving _ ?_) ⟨rfl, rfl⟩
      refine accepts_decodeText_of_yields path hword' rfl ?_ hblob hyields
      intro hwidth hzstring hnone
      exact hcurrent (WireType.eq_string hwire hword' hzstring hwidth) hnone
  · intro hfits sink
    obtain ⟨fault, hfault⟩ := encodeText_of_not_fits settings path
      (.framed (tagged.getD .string) bufferLength) hword' rfl hfits
    refine ⟨fault, ?_⟩
    rw [Encoder.encodeAt, encodeAt_text hwire hsize, hfault]
    rfl

/-- A string of three bytes fits a buffer of four bytes behind a length field and comes back without
the NUL at its end; one of five bytes does not fit. -/
theorem encodeAt_string_bstring :
    (((some WireType.bstring).getD .string).isText = true ∧
      some WireType.bstring ≠ some .z16string ∧
      Plan.resolveBuffer .top (some (.ofNat 4)) none = .ok (some 4)) ∧
    (∃ bytes,
      (∃ after, (⟨⟨.bigEndian, {}, .empty⟩, .willing #[9]⟩ : Encoder).encodeAt .top none
          ⟨some .bstring, .absent, some (.ofNat 4), none⟩ (.text "ab\x00") =
            (.ok bytes.length, ⟨⟨.bigEndian, {}, .empty⟩, after⟩) ∧
          after.held.toList = 9 :: bytes) ∧
      (⟨[], ⟨.bigEndian, {}, .empty⟩, .steady (bytes ++ [7]) 1, 0⟩ : Decoder).decodeAt .top none
          ⟨some .bstring, .absent, some (.ofNat 4), none⟩ (.text "") =
        (⟨.text (withoutTrailingNuls "ab\x00"), .ok bytes.length⟩,
          ⟨[], ⟨.bigEndian, {}, .empty⟩, .steady [7] (1 + bytes.length), 0⟩)) ∧
    ∃ fault, (⟨⟨.bigEndian, {}, .empty⟩, .willing #[9]⟩ : Encoder).encodeAt .top none
        ⟨some .bstring, .absent, some (.ofNat 4), none⟩ (.text "abcde") =
      (.error (.located .top fault), ⟨⟨.bigEndian, {}, .empty⟩, .willing #[9]⟩) := by
  have hwire : ((some WireType.bstring).getD .string).isText = true := rfl
  have hword : some WireType.bstring ≠ some .z16string := by decide
  have hsize : Plan.resolveBuffer .top (some (.ofNat 4)) none = .ok (some 4) := by cbv
  obtain ⟨bytes, hencode, hdecode⟩ :=
    (encodeAt_string ⟨.bigEndian, {}, .empty⟩ hwire hword hsize "ab\x00").1 ⟨by decide, by decide⟩
  refine ⟨⟨hwire, hword, hsize⟩, ⟨bytes, hencode _ (Sink.neverFails_willing #[9]), ?_⟩, ?_⟩
  · exact hdecode [] "" [7] 1 0 (by decide) (by decide)
  · exact (encodeAt_string ⟨.bigEndian, {}, .empty⟩ hwire hword hsize "abcde").2
      (fun hfits => absurd hfits.1 (by decide)) _

end string

end PackedRecord
