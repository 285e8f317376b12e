import PackedRecord.Proofs.ScalarRoundTrip
import PackedRecord.Proofs.Terminators

/-!
# Strings that come back from their frames

A string without a text encoding comes back from its frame if it does not end with a NUL, which
the decoder takes for padding. `accepts_decodeText` says so for every framing, and
`accepts_decodeText_zeros` that a buffer of zeros holds the empty string.
-/

namespace PackedRecord

/-- The text ends with a NUL. -/
def EndsWithNul (text : String) : Prop :=
  text.toList.getLast? = some (Char.ofNat 0)

/-- The last byte, if there is one, is not zero. -/
def Bytes.EndsClean (data : Bytes) : Prop :=
  data.getLast? ≠ some 0

namespace Bytes

variable {data : Bytes}

/-- What is cut off behind the data is zeros, as many as there are. -/
theorem take_append_zeros (data : Bytes) (extra count : Nat) :
    (data ++ zeros count).take (data.length + extra) = data ++ zeros (min extra count) := by
  rw [List.take_length_add_append, zeros, List.take_replicate]
  rfl

/-- What ends clean does so from any byte on. -/
theorem EndsClean.of_append {front back : Bytes} (h : EndsClean (front ++ back)) :
    EndsClean back := by
  cases back with
  | nil => exact nofun
  | cons first rest => rwa [EndsClean, List.getLast?_append_of_ne_nil _ (by simp)] at h

/-- Zeros behind data that ends with another byte are all that is dropped. -/
theorem dropTrailingZeros_append_zeros (h : data.EndsClean) (count : Nat) :
    dropTrailingZeros (data ++ zeros count) = data := by
  have hzeros : ∀ byte ∈ zeros count, (byte == 0) = true := by
    intro byte hbyte
    rw [List.eq_of_mem_replicate hbyte]
    rfl
  have hreverse : (data ++ zeros count).reverse = zeros count ++ data.reverse := by
    rw [List.reverse_append, zeros, List.reverse_replicate]
  rw [dropTrailingZeros, hreverse, List.dropWhile_append_of_pos hzeros]
  have hkeep : data.reverse.dropWhile (· == 0) = data.reverse := by
    rw [EndsClean, ← List.head?_reverse] at h
    cases hdata : data.reverse with
    | nil => rfl
    | cons last rest =>
        rw [hdata] at h
        have hlast : last ≠ 0 := fun hzero => h (by rw [hzero]; rfl)
        exact List.dropWhile_cons_of_neg (by simpa using hlast)
  rw [hkeep, List.reverse_reverse]

end Bytes

namespace Text.Utf8

/-- A character takes as many bytes as it is said to. -/
theorem length_encodeChar (c : Char) : (encodeChar c).length = c.utf8Size := by
  have hval : c.toNat = c.val.toNat := rfl
  simp only [encodeChar, Char.utf8Size, UInt32.le_iff_toNat_le, ← hval]
  repeat' split
  all_goals first | rfl | (simp at *; omega)

/-- A text takes as many bytes as it is said to. -/
theorem length_encode (text : String) : (encode text).length = text.utf8ByteSize := by
  have hlist (cs : List Char) : (encodeChars cs).length = (String.ofList cs).utf8ByteSize := by
    induction cs with
    | nil => rfl
    | cons c cs ih =>
        have hcons : String.ofList (c :: cs) = String.singleton c ++ String.ofList cs := by
          simp
        rw [hcons, String.utf8ByteSize_append, String.utf8ByteSize_singleton, ← ih,
          encodeChars, List.flatMap_cons, List.length_append, length_encodeChar]
        rfl
  rw [encode, hlist, String.ofList_toList]

/-- Only the NUL ends with a zero byte. -/
theorem endsClean_encodeChar {c : Char} (h : c ≠ Char.ofNat 0) : (encodeChar c).EndsClean := by
  -- The last byte of more than one carries a continuation mark, and a single one is the character.
  have hpos : c.toNat ≠ 0 := by
    intro hzero
    exact h (by rw [← Char.ofNat_toNat c, hzero])
  have hbyte {n : Nat} (hn : 0 < n ∧ n < 256) : UInt8.ofNat n ≠ 0 := by
    intro hzero
    have := congrArg UInt8.toNat hzero
    simp at this
    omega
  simp only [Bytes.EndsClean, encodeChar]
  split
  · exact fun hlast => hbyte (by omega) (Option.some.inj hlast)
  split
  · exact fun hlast => hbyte (by omega) (Option.some.inj hlast)
  split
  · exact fun hlast => hbyte (by omega) (Option.some.inj hlast)
  · exact fun hlast => hbyte (by omega) (Option.some.inj hlast)

/-- A text that does not end with a NUL does not end with a zero byte. -/
theorem endsClean_encode {text : String} (h : ¬ EndsWithNul text) : (encode text).EndsClean := by
  unfold EndsWithNul at h
  rcases List.eq_nil_or_concat text.toList with hnil | ⟨front, c, hlast⟩
  · rw [encode, hnil]
    intro hnone
    cases hnone
  · rw [hlast, List.concat_eq_append, List.getLast?_concat] at h
    have hc : c ≠ Char.ofNat 0 := fun heq => h (by rw [heq])
    have hnonempty : encodeChar c ≠ [] := by
      intro hnil
      have hlength := length_encodeChar c
      rw [hnil] at hlength
      exact absurd c.utf8Size_pos (by simp [← hlength])
    rw [encode, hlast, List.concat_eq_append, encodeChars, List.flatMap_append,
      List.flatMap_singleton, Bytes.EndsClean, List.getLast?_append_of_ne_nil _ hnonempty]
    exact endsClean_encodeChar hc

end Text.Utf8

namespace WireType

variable {wire : WireType} {data : Bytes}

/-- A terminated string takes its length up to whole units, and a terminator. -/
theorem terminatedSize_eq (hwire : wire = .zstring ∨ wire = .z16string) (length : Nat) :
    terminatedSize wire length =
      length + length % wire.terminatorSize + wire.terminatorSize := by
  rcases hwire with rfl | rfl
  · show length + 1 = length + length % 1 + 1
    rw [Nat.mod_one, Nat.add_zero]
  · rfl

/-- A string that is filled up has whole units. -/
theorem terminatorSize_dvd_fill (wire : WireType) (data : Bytes) :
    wire.terminatorSize ∣ (data ++ Bytes.zeros (data.length % wire.terminatorSize)).length := by
  rw [List.length_append, Bytes.length_zeros, terminatorSize]
  split <;> omega

/-- The byte that fills up the last word of a string makes no zero word of it, unless the string
ends with a zero byte. -/
theorem terminatorIn_fill (hwire : wire = .zstring ∨ wire = .z16string)
    (h : wire.terminatorIn data = none) (hclean : data.EndsClean) :
    wire.terminatorIn (data ++ Bytes.zeros (data.length % wire.terminatorSize)) = none := by
  induction data using Bytes.unit_induction wire.terminatorSize_pos with
  | short data hdata =>
      rcases hwire with rfl | rfl
      · rw [List.eq_nil_of_length_eq_zero (Nat.lt_one_iff.1 hdata)]
        rfl
      · rcases Nat.le_one_iff_eq_zero_or_eq_one.1 (Nat.lt_succ_iff.1 hdata) with hnil | hlast
        · rw [List.eq_nil_of_length_eq_zero hnil]
          rfl
        · obtain ⟨last, rfl⟩ := List.length_eq_one_iff.1 hlast
          exact if_neg fun hzeros => hclean (by rw [hzeros.1]; rfl)
  | unit part rest hpart ih =>
      have hlength : (part ++ rest).length % wire.terminatorSize =
          rest.length % wire.terminatorSize := by
        rw [List.length_append, hpart, Nat.add_mod_left]
      rw [terminatorIn_unit hwire hpart] at h
      rw [hlength, List.append_assoc, terminatorIn_unit hwire hpart]
      split at h
      next => cases h
      next hzeros =>
        rw [if_neg hzeros, ih (Option.map_eq_none_iff.1 h) hclean.of_append]
        rfl

/-- The first terminator behind a string that has none starts where its last unit is filled up. -/
theorem firstTerminator_of_clean (hwire : wire = .zstring ∨ wire = .z16string)
    (h : wire.terminatorIn data = none) (hclean : data.EndsClean) {count : Nat}
    (hcount : terminatedSize wire data.length ≤ data.length + count) :
    wire.FirstTerminator (data ++ Bytes.zeros count)
      (data.length + data.length % wire.terminatorSize) := by
  rw [terminatedSize_eq hwire] at hcount
  have hfirst := firstTerminator_append_zeros hwire (terminatorSize_dvd_fill wire data)
    (terminatorIn_fill hwire h hclean)
    (show wire.terminatorSize ≤ count - data.length % wire.terminatorSize by omega)
  rwa [List.append_assoc, ← Bytes.zeros_add, Nat.add_sub_cancel' (by omega), List.length_append,
    Bytes.length_zeros] at hfirst

/-- What stands in front of the terminator in a buffer of zeros is nothing but zeros. -/
theorem untilTerminator_zeros (wire : WireType) (count : Nat) :
    ∃ padding, wire.untilTerminator (Bytes.zeros count) = Bytes.zeros padding := by
  unfold untilTerminator
  cases wire.terminatorIn (Bytes.zeros count) with
  | none => exact ⟨count, rfl⟩
  | some offset => exact ⟨min offset count, List.take_replicate⟩

/-- A length field is as wide as a scalar. -/
theorem isScalarWidth_lengthSize {wire : WireType} {width : Nat}
    (h : wire.lengthSize? = some width) : isScalarWidth width = true := by
  cases wire <;> cases h <;> rfl

/-- A length field has at least one byte. -/
theorem lengthSize_pos {wire : WireType} {width : Nat} (h : wire.lengthSize? = some width) :
    0 < width := by
  cases wire <;> cases h <;> decide

end WireType

section frames

variable {settings : Settings} {path path' : Path} {data bytes : Bytes}

/-- The bytes of a string without a length field. -/
theorem TextFrame.yields_emit_plain {bufferSize : Nat} :
    (TextFrame.emit settings path ⟨none, bufferSize⟩ data).Yields bytes () ↔
      bytes = data ++ Bytes.zeros (bufferSize - data.length) := by
  show (pure () >>= fun _ => Emission.write path (.data data) >>= fun _ =>
    Emission.write path (.zeros (bufferSize - data.length))).Yields bytes () ↔ _
  rw [Emission.pure_eq, Emission.ofExcept_ok_bind, Emission.yields_bind]
  simp only [Emission.yields_write]
  constructor
  · rintro ⟨_, _, _, rfl, rfl, rfl⟩
    rfl
  · rintro rfl
    exact ⟨_, (), _, rfl, rfl, rfl⟩

/-- The bytes of a string behind a length field. -/
theorem TextFrame.yields_emit_prefixed {size bufferSize : Nat} :
    (TextFrame.emit settings path ⟨some size, bufferSize⟩ data).Yields bytes () ↔
      ∃ field, bytes = field ++ (data ++ Bytes.zeros (bufferSize - data.length)) ∧
        (emitImage settings path size (UInt64.ofNat data.length)).Yields field () := by
  simp only [emit, Emission.yields_bind, Emission.yields_write]
  constructor
  · rintro ⟨field, _, _, rfl, hfield, _, _, _, rfl, rfl, rfl⟩
    exact ⟨field, rfl, hfield⟩
  · rintro ⟨field, rfl, hfield⟩
    exact ⟨field, (), _, rfl, hfield, _, (), _, rfl, rfl, rfl⟩

/-- The number of bytes that the decoder reads for a string of `length` bytes, apart from a length
field and a terminator without a buffer. -/
def WireType.blobSize (wire : WireType) (bufferLength : Option Nat) (length : Nat) : Nat :=
  bufferLength.getD (if wire = .z16string then length + length % 2 else length)

/-- Without a buffer, a string with a terminator is read with its last unit filled up. -/
theorem WireType.blobSize_none {wire : WireType} (hwire : wire = .zstring ∨ wire = .z16string)
    (length : Nat) : wire.blobSize none length = length + length % wire.terminatorSize := by
  rcases hwire with rfl | rfl
  · show length = length + length % 1
    rw [Nat.mod_one, Nat.add_zero]
  · rfl

/-- A string within the limit is read from its own bytes. -/
theorem accepts_readBlob (h : bytes.length ≤ settings.limits.blob) :
    (readBlob settings path bytes.length).Accepts bytes bytes := by
  refine Intake.accepts_bind.2 ⟨[], (), bytes, rfl, ?_, Intake.accepts_bytes⟩
  rw [Intake.accepts_ofExcept, Limits.checkBlob, if_pos h]
  exact ⟨rfl, rfl⟩

/-- The frame of a string with a terminator. -/
theorem TextFrame.of_terminated {wire : WireType} {bufferLength : Option Nat} {frame : TextFrame}
    (hwire : wire = .zstring ∨ wire = .z16string)
    (h : TextFrame.of wire bufferLength data = .ok frame) :
    wire.terminatorIn data = none ∧
      terminatedSize wire data.length ≤ bufferLength.getD (terminatedSize wire data.length) ∧
      frame = ⟨none, bufferLength.getD (terminatedSize wire data.length)⟩ := by
  rcases hwire with rfl | rfl
  all_goals
    simp only [TextFrame.of] at h
    split at h
    · cases h
    next hnone =>
      split at h
      · cases h
      next hfits =>
        cases h
        exact ⟨by simpa using hnone, Nat.not_lt.1 hfits, rfl⟩

/-- The frame of a string without a terminator. -/
theorem TextFrame.of_counted {wire : WireType} {bufferLength : Option Nat} {frame : TextFrame}
    (hwire : wire ≠ .zstring ∧ wire ≠ .z16string)
    (h : TextFrame.of wire bufferLength data = .ok frame) :
    data.length ≤ bufferLength.getD data.length ∧
      (∀ size, wire.lengthSize? = some size →
        bufferLength.getD data.length ≤ WireType.maxLength size) ∧
      frame = ⟨wire.lengthSize?, bufferLength.getD data.length⟩ := by
  unfold TextFrame.of at h
  split at h
  · exact (hwire.1 rfl).elim
  · exact (hwire.2 rfl).elim
  · simp only at h
    split at h
    · cases h
    next hfits =>
      split at h
      next hsize =>
        cases h
        refine ⟨Nat.not_lt.1 hfits, ?_, by rw [hsize]⟩
        intro size hsome
        rw [hsize] at hsome
        cases hsome
      next size hsize =>
        split at h
        · cases h
        next hmax =>
          cases h
          refine ⟨Nat.not_lt.1 hfits, ?_, by rw [hsize]⟩
          intro other hother
          rw [hsize] at hother
          cases hother
          exact Nat.not_lt.1 hmax

/-- In a buffer, a terminated string is read as a whole and cut off at its terminator. -/
theorem readFramed_buffer {plan : Plan} {size : Nat} (settings : Settings) (path : Path)
    (current : Nat) (hwire : plan.wire = .zstring ∨ plan.wire = .z16string)
    (hsize : plan.bufferLength = some size) :
    readFramed settings path plan current =
      readBlob settings path size >>= fun data => pure (plan.wire.untilTerminator data) := by
  unfold readFramed
  rcases hwire with hwire | hwire <;> rw [hwire, hsize]

/-- From a buffer, what stands in front of the first terminator is taken. -/
theorem accepts_readFramed_first {size offset : Nat} (path : Path) (plan : Plan) (current : Nat)
    (hwire : plan.wire = .zstring ∨ plan.wire = .z16string) (hsize : plan.bufferLength = some size)
    (h : plan.wire.FirstTerminator data offset) (hlength : data.length = size)
    (hblob : size ≤ settings.limits.blob) :
    (readFramed settings path plan current).Accepts data (data.take offset) := by
  subst hlength
  have hfound := (WireType.terminatorIn_eq_some_iff hwire).2 h
  rw [readFramed_buffer settings path current hwire hsize]
  refine (accepts_readBlob hblob).bind_done ⟨rfl, ?_⟩
  rw [WireType.untilTerminator, hfound]

/-- Without a buffer, what stands in front of the first terminator is read. -/
theorem accepts_readFramed_open {offset : Nat} (path : Path) (plan : Plan) (current : Nat)
    (hwire : plan.wire = .zstring ∨ plan.wire = .z16string) (hsize : plan.bufferLength = none)
    (h : plan.wire.FirstTerminator data offset) (hblob : offset ≤ settings.limits.blob) :
    (readFramed settings path plan current).Accepts
      (data.take (offset + plan.wire.terminatorSize)) (data.take offset) := by
  have hframed : readFramed settings path plan current =
      readTerminated plan.wire path settings.limits.blob [] := by
    unfold readFramed
    rcases hwire with hwire | hwire <;> rw [hwire, hsize]
  rw [hframed]
  exact accepts_readTerminated h hblob []

/-- A string with a terminator in a buffer comes back, but for padding. -/
theorem accepts_readFramed_buffer {plan : Plan} {frame : TextFrame} {size : Nat} (current : Nat)
    (hwire : plan.wire = .zstring ∨ plan.wire = .z16string) (hsize : plan.bufferLength = some size)
    (hclean : data.EndsClean)
    (hframe : TextFrame.of plan.wire plan.bufferLength data = .ok frame)
    (hbytes : (frame.emit settings path data).Yields bytes ())
    (hblob : size ≤ settings.limits.blob) :
    ∃ padding, (readFramed settings path' plan current).Accepts bytes
      (data ++ Bytes.zeros padding) := by
  rw [hsize] at hframe
  obtain ⟨hnone, hfits, rfl⟩ := TextFrame.of_terminated hwire hframe
  rw [TextFrame.yields_emit_plain, Option.getD_some] at hbytes
  rw [Option.getD_some] at hfits
  have hlong : data.length ≤ size := by
    rw [WireType.terminatedSize_eq hwire] at hfits
    omega
  have hlength : bytes.length = size := by
    rw [hbytes, List.length_append, Bytes.length_zeros, Nat.add_sub_cancel' hlong]
  have hfirst := WireType.firstTerminator_of_clean hwire hnone hclean
    (show terminatedSize plan.wire data.length ≤ data.length + (size - data.length) by omega)
  rw [← hbytes] at hfirst
  have hread := accepts_readFramed_first path' plan current hwire hsize hfirst hlength hblob
  rw [hbytes, Bytes.take_append_zeros, ← hbytes] at hread
  exact ⟨_, hread⟩

/-- A string with a terminator and without a buffer comes back, but for padding. -/
theorem accepts_readFramed_terminator {plan : Plan} {frame : TextFrame} (current : Nat)
    (hwire : plan.wire = .zstring ∨ plan.wire = .z16string) (hsize : plan.bufferLength = none)
    (hclean : data.EndsClean)
    (hframe : TextFrame.of plan.wire plan.bufferLength data = .ok frame)
    (hbytes : (frame.emit settings path data).Yields bytes ())
    (hblob : plan.wire.blobSize none data.length ≤ settings.limits.blob) :
    ∃ padding, (readFramed settings path' plan current).Accepts bytes
      (data ++ Bytes.zeros padding) := by
  rw [hsize] at hframe
  obtain ⟨hnone, -, rfl⟩ := TextFrame.of_terminated hwire hframe
  rw [TextFrame.yields_emit_plain, Option.getD_none] at hbytes
  rw [WireType.blobSize_none hwire] at hblob
  have hlength : bytes.length =
      data.length + data.length % plan.wire.terminatorSize + plan.wire.terminatorSize := by
    rw [hbytes, List.length_append, Bytes.length_zeros, WireType.terminatedSize_eq hwire]
    omega
  have hfirst := WireType.firstTerminator_of_clean hwire hnone hclean
    (show terminatedSize plan.wire data.length ≤
      data.length + (terminatedSize plan.wire data.length - data.length) by omega)
  rw [← hbytes] at hfirst
  have hread := accepts_readFramed_open path' plan current hwire hsize hfirst hblob
  rw [List.take_of_length_le hlength.le] at hread
  rw [hbytes, Bytes.take_append_zeros, ← hbytes] at hread
  exact ⟨_, hread⟩

/-- Any other string is read behind its length, with the buffer around it. -/
theorem readFramed_counted {plan : Plan} (settings : Settings) (path : Path) (current : Nat)
    (hwire : plan.wire ≠ .zstring ∧ plan.wire ≠ .z16string) :
    readFramed settings path plan current =
      readLength settings path plan current >>= fun length =>
        readBlob settings path (max length (plan.bufferLength.getD 0)) >>= fun data =>
          pure (data.take length) := by
  unfold readFramed
  split
  · exact absurd ‹_› hwire.1
  · exact absurd ‹_› hwire.2
  · exact absurd ‹_› hwire.1
  · exact absurd ‹_› hwire.2
  · rfl

/-- A string without a length field and a terminator comes back, with the padding. Without a buffer
the destination has to say how long it is. -/
theorem accepts_readFramed_plain {plan : Plan} {frame : TextFrame} {current : Nat}
    (hwire : plan.wire ≠ .zstring ∧ plan.wire ≠ .z16string)
    (hwidth : plan.wire.lengthSize? = none) (hencoding : plan.encoding = none)
    (hcurrent : plan.bufferLength = none → current = data.length)
    (hframe : TextFrame.of plan.wire plan.bufferLength data = .ok frame)
    (hbytes : (frame.emit settings path data).Yields bytes ())
    (hblob : plan.bufferLength.getD data.length ≤ settings.limits.blob) :
    ∃ padding, (readFramed settings path' plan current).Accepts bytes
      (data ++ Bytes.zeros padding) := by
  obtain ⟨hfits, -, rfl⟩ := TextFrame.of_counted hwire hframe
  rw [hwidth, TextFrame.yields_emit_plain] at hbytes
  have hlength : bytes.length = plan.bufferLength.getD data.length := by
    rw [hbytes, List.length_append, Bytes.length_zeros]
    omega
  have hknown : readLength settings path' plan current = pure bytes.length := by
    rw [hlength]
    unfold readLength
    cases hbuffer : plan.bufferLength with
    | some size => rw [hwidth]; rfl
    | none => rw [hwidth, hencoding, hcurrent hbuffer]; rfl
  have hmax : max bytes.length (plan.bufferLength.getD 0) = bytes.length := by
    rw [hlength]
    cases plan.bufferLength <;> simp
  have hread : (readBlob settings path' bytes.length).Accepts bytes bytes :=
    accepts_readBlob (by rw [hlength]; exact hblob)
  refine ⟨plan.bufferLength.getD data.length - data.length, ?_⟩
  rw [readFramed_counted settings path' current hwire, hknown, Intake.pure_eq, Intake.done_bind,
    hmax]
  exact hread.bind_done ⟨rfl, by rw [List.take_length, hbytes]⟩

/-- A length that its field can hold is what the image in the field says. -/
theorem toNat_lengthImage {size length : Nat} (hsize : size ≤ 8)
    (hlength : length ≤ WireType.maxLength size) :
    (UInt64.ofNat ((UInt64.ofNat length).toNat % 256 ^ size)).toNat = length := by
  have hpow : 256 ^ size ≤ 256 ^ 8 := Nat.pow_le_pow_right (by decide) hsize
  have hpos : 0 < 256 ^ size := Nat.pow_pos (by decide)
  have hlt : length < 256 ^ size := by
    unfold WireType.maxLength at hlength
    omega
  have hword : length < 2 ^ 64 := Nat.lt_of_lt_of_le hlt hpow
  rw [UInt64.toNat_ofNat', UInt64.toNat_ofNat', Nat.mod_eq_of_lt hword, Nat.mod_eq_of_lt hlt,
    Nat.mod_eq_of_lt hword]

/-- Zeros are the image of the number zero. -/
theorem accepts_readImage_zeros {width : Nat} (hwidth : isScalarWidth width = true) :
    (readImage settings path width).Accepts (Bytes.zeros width) 0 := by
  have hread : (readImage settings path (Bytes.zeros width).length).Accepts (Bytes.zeros width)
      (UInt64.ofNat (settings.order.toNat (Bytes.zeros width))) :=
    accepts_readImage_bytes (by rw [Bytes.length_zeros, hwidth])
  rwa [Bytes.length_zeros, ByteOrder.toNat_zeros] at hread

/-- A string behind a length field comes back. -/
theorem accepts_readFramed_prefixed {plan : Plan} {frame : TextFrame} {size : Nat} (current : Nat)
    (hwire : plan.wire ≠ .zstring ∧ plan.wire ≠ .z16string)
    (hwidth : plan.wire.lengthSize? = some size)
    (hframe : TextFrame.of plan.wire plan.bufferLength data = .ok frame)
    (hbytes : (frame.emit settings path data).Yields bytes ())
    (hblob : plan.bufferLength.getD data.length ≤ settings.limits.blob) :
    (readFramed settings path' plan current).Accepts bytes data := by
  obtain ⟨hfits, hmax, rfl⟩ := TextFrame.of_counted hwire hframe
  rw [hwidth, TextFrame.yields_emit_prefixed] at hbytes
  obtain ⟨field, rfl, hfield⟩ := hbytes
  have hsize : size ≤ 8 := by
    revert hwidth
    cases plan.wire <;> intro h <;> cases h <;> decide
  have hknown : (readLength settings path' plan current).Accepts field data.length := by
    unfold readLength
    rw [hwidth]
    exact (accepts_readImage path' hfield).2.bind_done
      ⟨rfl, toNat_lengthImage hsize (Nat.le_trans hfits (hmax size hwidth))⟩
  have hlength : (data ++ Bytes.zeros (plan.bufferLength.getD data.length - data.length)).length =
      plan.bufferLength.getD data.length := by
    rw [List.length_append, Bytes.length_zeros, Nat.add_sub_cancel' hfits]
  have hbuffer : max data.length (plan.bufferLength.getD 0) =
      plan.bufferLength.getD data.length := by
    cases hbuffer : plan.bufferLength with
    | some size =>
        rw [hbuffer] at hfits
        exact Nat.max_eq_right hfits
    | none => exact Nat.max_eq_left (Nat.zero_le _)
  rw [← hlength] at hbuffer hblob
  rw [readFramed_counted settings path' current hwire]
  refine hknown.bind ?_
  rw [hbuffer]
  exact (accepts_readBlob hblob).bind_done ⟨rfl, List.take_left⟩

/-- A text is what its bytes stand for, padded or not. -/
theorem textOfBytes_append_zeros {text : String} (h : ¬ EndsWithNul text) (padding : Nat) :
    textOfBytes path (Text.Utf8.encode text ++ Bytes.zeros padding) = .ok text := by
  rw [textOfBytes, Bytes.dropTrailingZeros_append_zeros (Text.Utf8.endsClean_encode h),
    Text.Utf8.decode_encode]

/-- Without an encoding, bytes are taken as they are. -/
theorem transcode_none (settings : Settings)
    (convert : Text.Codec → Bytes → Except TransferFault Bytes) (path : Path) (data : Bytes) :
    settings.transcode convert path none data = .ok data := rfl

/-- A string in a frame is written as its bytes in that frame. -/
theorem frame_of_yields {plan : Plan} {text : String} (hencoding : plan.encoding = none)
    (h : (encodeText settings path plan text).Yields bytes ()) :
    ∃ frame, TextFrame.of plan.wire plan.bufferLength (Text.Utf8.encode text) = .ok frame ∧
      (frame.emit settings path (Text.Utf8.encode text)).Yields bytes () := by
  unfold encodeText at h
  rw [hencoding, transcode_none, Emission.ofExcept_ok_bind] at h
  split at h
  · exact (Emission.not_yields_fail h).elim
  next frame hframe => exact ⟨frame, hframe, h⟩

/-- A string that does not end with a NUL comes back from its frame. A string without a frame comes
back into a destination of its length. -/
theorem accepts_decodeText {plan : Plan} {text : String} {current : Nat} (path' : Path)
    (hencoding : plan.encoding = none) (hnul : ¬ EndsWithNul text)
    (hcurrent : plan.wire.lengthSize? = none → plan.wire ≠ .zstring → plan.wire ≠ .z16string →
      plan.bufferLength = none → current = text.utf8ByteSize)
    (hblob : plan.wire.blobSize plan.bufferLength text.utf8ByteSize ≤ settings.limits.blob)
    (h : (encodeText settings path plan text).Yields bytes ()) :
    (decodeText settings path' plan current).Accepts bytes text := by
  obtain ⟨frame, hframe, hbytes⟩ := frame_of_yields hencoding h
  have hclean := Text.Utf8.endsClean_encode hnul
  rw [← Text.Utf8.length_encode] at hcurrent hblob
  -- Whatever the frame is, what is read from it are the bytes of the text and some zeros.
  have hframed : ∃ padding, (readFramed settings path' plan current).Accepts bytes
      (Text.Utf8.encode text ++ Bytes.zeros padding) := by
    by_cases hwire : plan.wire = .zstring ∨ plan.wire = .z16string
    · cases hsize : plan.bufferLength with
      | some size =>
          rw [hsize] at hblob
          exact accepts_readFramed_buffer current hwire hsize hclean hframe hbytes hblob
      | none =>
          rw [hsize] at hblob
          exact accepts_readFramed_terminator current hwire hsize hclean hframe hbytes hblob
    · rw [not_or] at hwire
      have hblob' : plan.bufferLength.getD (Text.Utf8.encode text).length ≤
          settings.limits.blob := by
        rwa [WireType.blobSize, if_neg hwire.2] at hblob
      cases hwidth : plan.wire.lengthSize? with
      | none =>
          exact accepts_readFramed_plain hwire hwidth hencoding
            (hcurrent hwidth hwire.1 hwire.2) hframe hbytes hblob'
      | some size =>
          refine ⟨0, ?_⟩
          rw [Bytes.zeros_zero, List.append_nil]
          exact accepts_readFramed_prefixed current hwire hwidth hframe hbytes hblob'
  obtain ⟨padding, hframed⟩ := hframed
  refine hframed.bind_done ?_
  rw [hencoding, transcode_none]
  refine Intake.Accepts.bind_done ⟨rfl, rfl⟩ ?_
  rw [textOfBytes_append_zeros hnul]
  exact ⟨rfl, rfl⟩

/-- A buffer of zeros, with a length field if there is one, holds the empty string. -/
theorem accepts_decodeText_zeros {plan : Plan} {size : Nat} (current : Nat)
    (hencoding : plan.encoding = none) (hsize : plan.bufferLength = some size)
    (hblob : size ≤ settings.limits.blob) :
    (decodeText settings path plan current).Accepts
      (Bytes.zeros (plan.wire.lengthSize?.getD 0 + size)) "" := by
  have hread : (readBlob settings path size).Accepts (Bytes.zeros size) (Bytes.zeros size) := by
    rw [← Bytes.length_zeros size] at hblob
    have hread : (readBlob settings path (Bytes.zeros size).length).Accepts (Bytes.zeros size)
        (Bytes.zeros size) := accepts_readBlob hblob
    rwa [Bytes.length_zeros] at hread
  have hframed : ∃ padding, (readFramed settings path plan current).Accepts
      (Bytes.zeros (plan.wire.lengthSize?.getD 0 + size)) (Bytes.zeros padding) := by
    by_cases hwire : plan.wire = .zstring ∨ plan.wire = .z16string
    · have hwidth : plan.wire.lengthSize?.getD 0 = 0 := by
        rcases hwire with hwire | hwire <;> rw [hwire] <;> rfl
      obtain ⟨padding, huntil⟩ := plan.wire.untilTerminator_zeros size
      refine ⟨padding, ?_⟩
      rw [hwidth, Nat.zero_add, readFramed_buffer settings path current hwire hsize]
      exact hread.bind_done ⟨rfl, huntil⟩
    · rw [readFramed_counted settings path current (not_or.1 hwire), hsize, Option.getD_some]
      cases hwidth : plan.wire.lengthSize? with
      | none =>
          have hknown : readLength settings path plan current = pure size := by
            unfold readLength
            rw [hwidth, hsize]
          refine ⟨size, ?_⟩
          rw [hknown, Intake.pure_eq, Intake.done_bind, Nat.max_self, Option.getD_none,
            Nat.zero_add]
          exact hread.bind_done ⟨rfl, List.take_of_length_le (by rw [Bytes.length_zeros])⟩
      | some width =>
          have hknown : (readLength settings path plan current).Accepts (Bytes.zeros width) 0 := by
            unfold readLength
            rw [hwidth]
            have hfield := WireType.isScalarWidth_lengthSize hwidth
            exact (accepts_readImage_zeros hfield).bind_done ⟨rfl, rfl⟩
          refine ⟨0, ?_⟩
          rw [Option.getD_some, Bytes.zeros_add]
          refine hknown.bind ?_
          rw [Nat.zero_max]
          exact hread.bind_done ⟨rfl, List.take_zero⟩
  obtain ⟨padding, hframed⟩ := hframed
  refine hframed.bind_done ?_
  rw [hencoding, transcode_none]
  refine Intake.Accepts.bind_done ⟨rfl, rfl⟩ ?_
  -- The empty string has no bytes, so that all zeros are padding.
  have hnul : ¬ EndsWithNul "" := by unfold EndsWithNul; decide
  have htext : textOfBytes path ([] ++ Bytes.zeros padding) = .ok "" :=
    textOfBytes_append_zeros hnul padding
  rw [List.nil_append] at htext
  rw [htext]
  exact ⟨rfl, rfl⟩

end frames

end PackedRecord
