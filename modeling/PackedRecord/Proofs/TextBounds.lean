import PackedRecord.Proofs.Contracts
import PackedRecord.Proofs.DecodedText
import PackedRecord.Proofs.Failures
import PackedRecord.Proofs.TextFrames

/-!
# Bounds on decoded strings

How long a string gets that is decoded without an encoding, and how many bytes it has taken when it
is refused for its length. `ensures_decodeText` is the contract to read; the length of a text
against that of its bytes is `Text.Utf8.utf8ByteSize_of_decode`.
-/

namespace PackedRecord

namespace Text.Utf8

/-- A text is as long as the bytes that it is decoded from. -/
theorem utf8ByteSize_of_decode {data : Bytes} {text : String} (h : decode data = .ok text) :
    text.utf8ByteSize = data.length := by
  rw [← length_encode, encode_of_decode h]

end Text.Utf8

/-- Without its trailing zeros a string is no longer. -/
theorem Bytes.length_dropTrailingZeros_le (data : Bytes) :
    data.dropTrailingZeros.length ≤ data.length := by
  calc data.dropTrailingZeros.length
      = (data.reverse.dropWhile (· == 0)).length := List.length_reverse
    _ ≤ data.reverse.length := List.length_dropWhile_le _ _
    _ = data.length := List.length_reverse

/-- A text is no longer than the bytes it was read from. -/
theorem utf8ByteSize_of_textOfBytes {path : Path} {data : Bytes} {text : String}
    (h : textOfBytes path data = .ok text) : text.utf8ByteSize ≤ data.length := by
  unfold textOfBytes at h
  split at h
  next decoded hdecode =>
    cases h
    exact Nat.le_trans (Text.Utf8.utf8ByteSize_of_decode hdecode).le
      (Bytes.length_dropTrailingZeros_le data)
  next => cases h

/-- The error is not that the value at `path` itself would become too long: it has no place, it is
about a value below `path`, or it is about something else. -/
inductive Error.Spares (path : Path) : Error → Prop where
  | clean : Spares path .endOfStream
  | broken (defect : Defect) : Spares path (.broken defect)
  | other {fault : Fault} (h : fault.isLimit = false) : Spares path (.located path fault)
  | tooDeep : Spares path (.located path .recursionLimit)
  | below (steps : Path) (step : Step) (fault : Fault) :
      Spares path (.located (steps ++ step :: path) fault)

/-- If the error is that the string at `path` would become too long, then no more than `allowance`
bytes were taken. -/
inductive Error.WithinBlob (path : Path) (allowance taken : Nat) : Error → Prop where
  | spared {error : Error} (h : error.Spares path) : WithinBlob path allowance taken error
  | blob {length : Nat} (h : taken ≤ allowance) :
      WithinBlob path allowance taken (.located path (.blobLimit length))

/-- A fault of the value itself that is at no limit is not that it would become too long. -/
theorem Error.IsOwn.spares {path : Path} {error : Error} (h : error.IsOwn path) :
    error.Spares path := by
  cases h with
  | fault h => exact .other h
  | broken defect => exact .broken defect

/-- A request that is not answered in full is no matter of length. -/
theorem Intake.Shortfall.spares {path : Path} {error : Error} (h : Shortfall path error) :
    error.Spares path := by
  cases h with
  | clean => exact .clean
  | cut => exact .other rfl
  | broken fault => exact .other rfl

/-- A greater allowance for fewer bytes is kept as well. -/
theorem Error.WithinBlob.mono {path : Path} {allowance allowance' taken taken' : Nat}
    {error : Error} (h : error.WithinBlob path allowance taken)
    (hle : taken ≤ allowance → taken' ≤ allowance') : error.WithinBlob path allowance' taken' := by
  cases h with
  | spared h => exact .spared h
  | blob h => exact .blob (hle h)

namespace Intake

variable {α β γ : Type} {stops : Nat → Error → β → Prop} {ends : Nat → α → Prop}

/-- A bare result takes no bytes, and neither does a bare error. -/
theorem ensures_ofExcept {left : β} {result : Except Error α}
    (hends : ∀ value, result = .ok value → ends 0 value)
    (hstops : ∀ error, result = .error error → stops 0 error left) :
    (ofExcept left result).Ensures stops ends := by
  cases result with
  | ok value => exact hends value rfl
  | error error => exact hstops error rfl

/-- What is done with a run of bytes goes on behind as many bytes. -/
theorem ensures_bytes {path : Path} {count : Nat} {stops : Nat → Error → Unit → Prop}
    {ends : Nat → Bytes → Prop}
    (hends : ∀ bytes : Bytes, bytes.length = count → ends count bytes)
    (hstops : ∀ taken error, Shortfall path error → stops taken error ()) :
    (bytes path count).Ensures stops ends :=
  ⟨fun bytes _ error herror => hstops bytes.length error herror, hends⟩

/-- Skipping takes as many bytes as asked for, or falls short. -/
theorem ensures_skip {path : Path} {count : Nat} {stops : Nat → Error → Unit → Prop}
    {ends : Nat → Unit → Prop} (hends : ends count ())
    (hstops : ∀ taken error, Shortfall path error → stops taken error ()) :
    (skip path count).Ensures stops ends := by
  rw [skip]
  split
  next hzero =>
    subst hzero
    exact hends
  next hcount =>
    have hpos := scratchSize_pos
    refine ⟨fun bytes _ error herror => hstops bytes.length error herror, fun _ _ => ?_⟩
    refine ensures_skip ?_ fun taken => hstops _
    rw [show min count scratchSize + (count - min count scratchSize) = count by omega]
    exact hends
termination_by count
decreasing_by
  have := scratchSize_pos
  omega

/-- What an intake leaves behind does not matter to what it takes. -/
theorem Ensures.leaving {intake : Intake γ α} {left : β}
    (h : intake.Ensures (fun taken error _ => stops taken error left) ends) :
    (Intake.leaving left intake).Ensures stops ends :=
  ensures_bimap.2 h

end Intake

open Intake

section text

variable {settings : Settings} {path : Path}

/-- Reading a number takes as many bytes as its width, and never exceeds a limit. -/
theorem ensures_readImage (width : Nat) :
    (readImage settings path width).Ensures (fun _ error _ => error.Spares path)
      fun taken _ => taken = width := by
  unfold readImage
  have hbytes : (Intake.bytes path width).Ensures (fun _ error _ => error.Spares path)
      fun taken _ => taken = width := ensures_bytes (fun _ _ => rfl) fun _ _ h => h.spares
  refine hbytes.bind ?_
  rintro taken bytes rfl
  split
  next image himage => exact rfl
  next defect hdefect => exact .broken defect

/-- The check of a length takes no bytes, and behind it the length is within the limit. -/
theorem ensures_checkBlob (limits : Limits) (length : Nat) :
    (ofExcept () (limits.checkBlob path length)).Ensures
      (fun taken error _ => error.WithinBlob path 0 taken)
      fun taken _ => taken = 0 ∧ length ≤ limits.blob := by
  unfold Limits.checkBlob
  split
  next hfits => exact ⟨rfl, hfits⟩
  next => exact .blob (Nat.le_refl 0)

/-- A string is refused for its length before any byte of it is read. -/
theorem ensures_readBlob (length : Nat) :
    (readBlob settings path length).Ensures (fun taken error _ => error.WithinBlob path 0 taken)
      fun taken data => taken = length ∧ data.length = length ∧ length ≤ settings.limits.blob := by
  unfold readBlob
  refine (ensures_checkBlob settings.limits length).bind ?_
  rintro taken _ ⟨rfl, hfits⟩
  exact ensures_bytes (fun data hdata => ⟨Nat.zero_add _, hdata, hfits⟩)
    fun _ _ h => .spared h.spares

/-- A string that ends with a terminator is refused at the first unit that exceeds the limit. -/
theorem ensures_readTerminated (path : Path) (wire : WireType) (room : Nat) (got : Bytes) :
    (readTerminated wire path room got).Ensures
      (fun taken error _ => error.WithinBlob path (room + wire.terminatorSize) taken)
      fun _ data => data.length ≤ got.length + room := by
  induction room using Nat.strong_induction_on generalizing got with
  | _ room ih =>
      rw [readTerminated]
      refine ⟨fun _ _ _ h => .spared h.spares, ?_⟩
      intro part hpart
      beta_reduce
      split
      next hend =>
        show got.reverse.length ≤ got.length + room
        rw [List.length_reverse]
        omega
      next hgoes =>
        split
        next hfull => exact .blob (by omega)
        next hfits =>
          have hsize := wire.terminatorSize_pos
          refine (ih (room - wire.terminatorSize) (by omega) (part.reverseAux got)).mono ?_ ?_
          · intro taken error _ h
            exact h.mono (by omega)
          · intro _ data h
            rw [List.reverseAux_eq, List.length_append, List.length_reverse, hpart] at h
            omega

/-- The bytes that a string takes although it is then refused for its length. -/
def Plan.allowance (limits : Limits) (plan : Plan) : Nat :=
  match plan.wire, plan.bufferLength with
  | .zstring, none | .z16string, none => limits.blob + 2
  | wire, _ => wire.lengthSize?.getD 0

/-- The length field of a string is within the allowance. -/
theorem lengthSize_le_allowance (limits : Limits) (plan : Plan) :
    plan.wire.lengthSize?.getD 0 ≤ plan.allowance limits := by
  unfold Plan.allowance
  split
  next hwire _ => rw [hwire]; exact Nat.zero_le _
  next hwire _ => rw [hwire]; exact Nat.zero_le _
  next => exact Nat.le_refl _

/-- The length of a string without a terminator costs its length field only. -/
theorem ensures_readLength (plan : Plan) (current : Nat) :
    (readLength settings path plan current).Ensures (fun _ error _ => error.Spares path)
      fun taken _ => taken = plan.wire.lengthSize?.getD 0 := by
  unfold readLength
  cases plan.wire.lengthSize? with
  | some size =>
      refine (ensures_readImage size).bind ?_
      rintro taken image rfl
      exact rfl
  | none =>
      cases plan.bufferLength with
      | some size => exact rfl
      | none =>
          cases plan.encoding with
          | none => exact rfl
          | some encoding => exact .other rfl

/-- What stands in front of a terminator is no longer than the whole. -/
theorem length_untilTerminator_le (wire : WireType) (data : Bytes) :
    (wire.untilTerminator data).length ≤ data.length := by
  unfold WireType.untilTerminator
  split
  next offset _ =>
    rw [List.length_take]
    exact Nat.min_le_right _ _
  next => exact Nat.le_refl _

/-- What is cut out of a string that was read is within the limit as well. -/
theorem ensures_readBlob_cut {cut : Bytes → Bytes} (hcut : ∀ data, (cut data).length ≤ data.length)
    (length : Nat) :
    (readBlob settings path length >>= fun data => pure (cut data)).Ensures
      (fun taken error _ => error.WithinBlob path 0 taken)
      fun _ (data : Bytes) => data.length ≤ settings.limits.blob := by
  refine (ensures_readBlob length).bind ?_
  rintro taken data ⟨-, hlength, hfits⟩
  show (cut data).length ≤ settings.limits.blob
  have hshort := hcut data
  omega

/-- A string in its buffer is read without any byte before it. -/
theorem ensures_readBuffer (plan : Plan) (size : Nat) :
    (readBlob settings path size >>= fun data => pure (plan.wire.untilTerminator data)).Ensures
      (fun taken error _ => error.WithinBlob path (plan.allowance settings.limits) taken)
      fun _ (data : Bytes) => data.length ≤ settings.limits.blob := by
  refine (ensures_readBlob_cut (length_untilTerminator_le plan.wire) size).mono ?_ fun _ _ h => h
  intro taken error _ h
  exact h.mono (by omega)

/-- A string in its frame is no longer than the limit, and is refused for its length before its
first byte or, if only its terminator tells its length, behind the limit. -/
theorem ensures_readFramed (plan : Plan) (current : Nat) :
    (readFramed settings path plan current).Ensures
      (fun taken error _ => error.WithinBlob path (plan.allowance settings.limits) taken)
      fun _ data => data.length ≤ settings.limits.blob := by
  have hterminated (hsize : settings.limits.blob + plan.wire.terminatorSize ≤
      plan.allowance settings.limits) :=
    (ensures_readTerminated path plan.wire settings.limits.blob []).mono
      (fun taken error _ h => h.mono fun htaken => Nat.le_trans htaken hsize)
      (fun _ data (h : data.length ≤ _) => by simpa using h)
  unfold readFramed
  split
  next size hwire hbuffer => exact ensures_readBuffer plan size
  next size hwire hbuffer => exact ensures_readBuffer plan size
  next hwire hbuffer =>
    refine hterminated ?_
    simp [Plan.allowance, hwire, hbuffer, WireType.terminatorSize]
  next hwire hbuffer =>
    refine hterminated ?_
    simp [Plan.allowance, hwire, hbuffer, WireType.terminatorSize]
  next =>
    refine (ensures_readLength plan current).mono (fun _ _ _ h => .spared h) (fun _ _ h => h)
      |>.bind ?_
    rintro taken length rfl
    refine (ensures_readBlob_cut (fun data => ?_) _).mono ?_ fun _ _ h => h
    · rw [List.length_take]
      exact Nat.min_le_right _ _
    · intro more error _ h
      have hprefix := lengthSize_le_allowance settings.limits plan
      exact h.mono (by omega)

/-- Bytes that are no text are not too long. -/
theorem spares_of_textOfBytes {data : Bytes} {error : Error}
    (h : textOfBytes path data = .error error) : error.Spares path := by
  unfold textOfBytes at h
  split at h <;> cases h
  exact .other rfl

/-- A string that is decoded without an encoding is no longer than the limit. -/
theorem ensures_decodeText (plan : Plan) (current : Nat) :
    (decodeText settings path plan current).Ensures
      (fun taken error _ => error.WithinBlob path (plan.allowance settings.limits) taken)
      fun _ text => plan.encoding = none → text.utf8ByteSize ≤ settings.limits.blob := by
  unfold decodeText
  refine (ensures_readFramed plan current).bind ?_
  intro taken framed hframed
  have hdata :
      (ofExcept () (settings.transcode Text.Codec.decode path plan.encoding framed)).Ensures
      (fun more error _ => error.WithinBlob path (plan.allowance settings.limits) (taken + more))
      fun _ data => plan.encoding = none → data = framed := by
    refine ensures_ofExcept ?_ ?_
    · intro data hconverted hplain
      rw [hplain] at hconverted
      exact (Except.ok.inj hconverted).symm
    · intro error herror
      obtain ⟨fault, hfault, rfl⟩ := exists_of_transcode herror
      exact .spared (.other hfault)
  refine hdata.bind ?_
  intro more data hplain
  refine ensures_ofExcept ?_ fun error h => .spared (spares_of_textOfBytes h)
  intro text htext hencoding
  have hsize := utf8ByteSize_of_textOfBytes htext
  rw [hplain hencoding] at hsize
  exact Nat.le_trans hsize hframed

end text

end PackedRecord
