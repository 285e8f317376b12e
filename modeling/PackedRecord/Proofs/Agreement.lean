import PackedRecord.Proofs.Contracts
import PackedRecord.Proofs.Failures

/-!
# Agreement of intakes

`Intake.Agrees` compares two intakes that are to do the same, one of which is written with more
care. They ask for the same bytes and end in the same way, as long as every request is answered in
full or ends them; no error of theirs is a broken contract, and their results are as they are to be.
`Source.supply_of_agrees` says what that means on a source. An intake that agrees with itself is one
that breaks no contract.
-/

namespace PackedRecord

/-- The error is no broken contract. -/
def Error.IsOrderly (error : Error) : Prop :=
  ∀ defect, error ≠ .broken defect

/-- The end of the stream is no broken contract. -/
theorem Error.isOrderly_endOfStream : Error.endOfStream.IsOrderly := by rintro defect ⟨⟩

/-- A fault at a place is no broken contract. -/
theorem Error.isOrderly_located (path : Path) (fault : Fault) :
    (Error.located path fault).IsOrderly := by rintro defect ⟨⟩

namespace Intake

variable {α β γ δ : Type}

/-- The intakes do the same, break no contract and end with a result that `keeps` allows. -/
inductive Agrees (keeps : α → Prop) : Intake β α → Intake β α → Prop where
  | done {result : α} (h : keeps result) : Agrees keeps (.done result) (.done result)
  | fail {error : Error} {left : β} (h : error.IsOrderly) :
      Agrees keeps (.fail error left) (.fail error left)
  | read {path : Path} {count : Nat} {torn : Bytes → β} {next next' : Bytes → Intake β α}
      (h : ∀ bytes : Bytes, bytes.length = count → Agrees keeps (next bytes) (next' bytes)) :
      Agrees keeps (.read path count torn next) (.read path count torn next')

variable {keeps : α → Prop} {first first' : Intake β α}

/-- A fault at a place breaks no contract. -/
theorem Agrees.located {path : Path} {fault : Fault} {left : β} :
    Agrees keeps (.fail (.located path fault) left) (.fail (.located path fault) left) :=
  .fail (Error.isOrderly_located path fault)

/-- Intakes that agree do so for every weaker condition on their results. -/
theorem Agrees.mono {weaker : α → Prop} (h : first.Agrees keeps first')
    (hweaker : ∀ result, keeps result → weaker result) : first.Agrees weaker first' := by
  induction h with
  | done h => exact .done (hweaker _ h)
  | fail h => exact .fail h
  | read _ ih => exact .read ih

/-- What follows has to agree after the results that the first intake is allowed only. -/
theorem Agrees.bind {following following' : α → Intake β γ} {ends : γ → Prop}
    (hfirst : first.Agrees keeps first')
    (hnext : ∀ result, keeps result → (following result).Agrees ends (following' result)) :
    (first >>= following).Agrees ends (first' >>= following') := by
  induction hfirst with
  | done h => exact hnext _ h
  | fail h => exact .fail h
  | read _ ih => exact .read ih

/-- Intakes still agree if their results and leftovers are mapped. -/
theorem Agrees.bimap {f : β → γ} {g : α → δ} {keeps : δ → Prop}
    (h : first.Agrees (fun result => keeps (g result)) first') :
    (first.bimap f g).Agrees keeps (first'.bimap f g) := by
  induction h with
  | done h => exact .done h
  | fail h => exact .fail h
  | read _ ih => exact .read ih

/-- Intakes still agree if their part is placed in its whole. -/
theorem Agrees.within {put : α → β} {keeps : β → Prop} {first first' : Intake α α}
    (h : first.Agrees (fun result => keeps (put result)) first') :
    (first.within put).Agrees keeps (first'.within put) :=
  h.bimap

/-- Intakes still agree if their errors leave something else behind. -/
theorem Agrees.leaving {left : γ} (h : first.Agrees keeps first') :
    (Intake.leaving left first).Agrees keeps (Intake.leaving left first') :=
  h.bimap

/-- A bare result agrees with itself if it is allowed, and a bare error if it is orderly. -/
theorem agrees_ofExcept {left : β} {result : Except Error α}
    (hends : ∀ value, result = .ok value → keeps value)
    (hstops : ∀ error, result = .error error → error.IsOrderly) :
    (ofExcept left result).Agrees keeps (ofExcept left result) := by
  cases result with
  | ok value => exact .done (hends value rfl)
  | error error => exact .fail (hstops error rfl)

/-- Skipping bytes breaks no contract. -/
theorem agrees_skip (path : Path) (count : Nat) :
    (skip path count).Agrees (fun _ => True) (skip path count) := by
  rw [skip]
  split
  · exact .done trivial
  · exact .read fun _ _ => agrees_skip path (count - min count scratchSize)
termination_by count
decreasing_by
  have := scratchSize_pos
  omega

end Intake

open Intake

/-- On a source, intakes that agree end in the same way, with an allowed result or an orderly
error. -/
theorem Source.supply_of_agrees {α β : Type} {keeps : α → Prop} {intake intake' : Intake β α}
    (h : intake.Agrees keeps intake') (boundary : Nat) (source : Source) :
    source.supply boundary intake = source.supply boundary intake' ∧
      match (source.supply boundary intake').1 with
      | .ok result => keeps result
      | .error (error, _) => error.IsOrderly := by
  induction h generalizing source with
  | done h => exact ⟨rfl, h⟩
  | fail h => exact ⟨rfl, h⟩
  | @read path count _ _ _ _ ih =>
      have hcount := source.fill_count count
      simp only [supply]
      split
      next => exact ⟨rfl, Error.isOrderly_located path _⟩
      next bytes source' hfill =>
        rw [hfill] at hcount
        split
        next =>
          have hshortage : (source'.shortage boundary path).IsOrderly := by
            unfold shortage
            split
            · exact Error.isOrderly_endOfStream
            · exact Error.isOrderly_located path _
          exact ⟨rfl, hshortage⟩
        next hall => exact ih bytes (Nat.le_antisymm hcount.1 (Nat.not_lt.1 hall)) source'

section text

variable {settings : Settings} {path : Path}

/-- Reading a scalar of a width that exists breaks no contract. -/
theorem agrees_readImage {width : Nat} (hwidth : isScalarWidth width = true) :
    (readImage settings path width).Agrees (fun _ => True) (readImage settings path width) := by
  refine .read fun bytes hbytes => ?_
  have hget : settings.order.get bytes = .ok (UInt64.ofNat (settings.order.toNat bytes)) := by
    rw [ByteOrder.get, hbytes, if_pos hwidth]
  rw [Intake.bind, hget]
  exact .done trivial

/-- Reading a string of known length breaks no contract. -/
theorem agrees_readBlob (length : Nat) :
    (readBlob settings path length).Agrees (fun _ => True) (readBlob settings path length) := by
  unfold readBlob Limits.checkBlob
  refine (agrees_ofExcept (fun _ _ => trivial) ?_).bind fun _ _ =>
    .read fun _ _ => .done trivial
  intro error herror
  split at herror <;> cases herror
  exact Error.isOrderly_located path _

/-- Reading up to a terminator breaks no contract. -/
theorem agrees_readTerminated (wire : WireType) (room : Nat) (got : Bytes) :
    (readTerminated wire path room got).Agrees (fun _ => True)
      (readTerminated wire path room got) := by
  induction room using Nat.strong_induction_on generalizing got with
  | _ room ih =>
      have hsize := wire.terminatorSize_pos
      rw [readTerminated]
      refine .read fun part _ => ?_
      split
      · exact .done trivial
      · split
        · exact .located
        · exact ih (room - wire.terminatorSize) (by omega) _

/-- Reading the length of a string breaks no contract. -/
theorem agrees_readLength (plan : Plan) (current : Nat) :
    (readLength settings path plan current).Agrees (fun _ => True)
      (readLength settings path plan current) := by
  unfold readLength
  cases hsize : plan.wire.lengthSize? with
  | some size =>
      exact (agrees_readImage (WireType.isScalarWidth_lengthSize hsize)).bind fun _ _ =>
        .done trivial
  | none =>
      cases plan.bufferLength with
      | some size => exact .done trivial
      | none =>
          cases plan.encoding with
          | none => exact .done trivial
          | some encoding => exact .located

/-- Reading a string in its frame breaks no contract. -/
theorem agrees_readFramed (plan : Plan) (current : Nat) :
    (readFramed settings path plan current).Agrees (fun _ => True)
      (readFramed settings path plan current) := by
  unfold readFramed
  split
  · exact (agrees_readBlob _).bind fun _ _ => .done trivial
  · exact (agrees_readBlob _).bind fun _ _ => .done trivial
  · exact agrees_readTerminated _ _ _
  · exact agrees_readTerminated _ _ _
  · exact (agrees_readLength plan current).bind fun _ _ =>
      (agrees_readBlob _).bind fun _ _ => .done trivial

/-- Bytes that are no text are an orderly error. -/
theorem isOrderly_of_textOfBytes {data : Bytes} {error : Error}
    (h : textOfBytes path data = .error error) : error.IsOrderly := by
  unfold textOfBytes at h
  split at h <;> cases h
  exact Error.isOrderly_located path _

/-- Decoding a string breaks no contract. -/
theorem agrees_decodeText (plan : Plan) (current : Nat) :
    (decodeText settings path plan current).Agrees (fun _ => True)
      (decodeText settings path plan current) := by
  refine (agrees_readFramed plan current).bind fun framed _ => ?_
  refine (agrees_ofExcept (fun _ _ => trivial) ?_).bind fun data _ => ?_
  · intro error herror
    obtain ⟨fault, -, rfl⟩ := exists_of_transcode herror
    exact Error.isOrderly_located path fault
  · exact agrees_ofExcept (fun _ _ => trivial) fun _ => isOrderly_of_textOfBytes

/-- Decoding a scalar of a numeric wire type breaks no contract. -/
theorem agrees_decodeScalar {wire : WireType} (hnumeric : wire.isNumeric = true)
    (type : ScalarType) :
    (decodeScalar settings path wire type).Agrees (fun _ => True)
      (decodeScalar settings path wire type) := by
  refine (agrees_readImage (WireType.isScalarWidth_byteSize hnumeric)).bind fun image _ => ?_
  split
  · exact .done trivial
  · exact .located

end text

end PackedRecord
