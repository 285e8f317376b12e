import Mathlib.Data.List.Forall2
import PackedRecord.Encode.Value
import PackedRecord.Proofs.References
import PackedRecord.Proofs.TextFrames

/-!
# How an emission fails

`Emission.Fails` says that an emission writes these bytes and then fails: `Emission.fails_forM`
finds the first failure in a run of emissions. A value that cannot be encoded for a reason of its
own is refused before its first byte, as `refuses_encodeText` says of strings.
-/

namespace PackedRecord

namespace Sink

/-- No write to the sink fails. -/
def NeverFails (sink : Sink) : Prop :=
  ∀ writes, (sink.absorb writes).1 = .ok ()

/-- No write to a sink without hindrance fails. -/
theorem neverFails_willing (held : Array UInt8) : (willing held).NeverFails :=
  fun writes => congrArg Prod.fst (absorb_willing writes held)

/-- A run that the sink takes is held behind what it held before. -/
theorem held_of_writeRun_ok {chunk : Chunk} {sink sink' : Sink}
    (h : sink.writeRun chunk = (.ok (), sink')) :
    sink'.held.toList = sink.held.toList ++ chunk.bytes := by
  fun_induction writeRun chunk sink
  case case1 chunk sink hzero =>
    cases h
    have hempty : chunk.bytes = [] := by
      rw [← List.length_eq_zero_iff, Chunk.length_bytes, hzero]
    rw [hempty, List.append_nil]
  case case2 => cases h
  case case3 chunk sink hsize limit pace hnext count haccept hpos ih =>
    rw [ih h]
    simp

/-- After zeros were written in full, they stand behind what the sink held. -/
theorem held_of_zeroFill_ok {count : Nat} {sink sink' : Sink}
    (h : sink.zeroFill count = (.ok (), sink')) :
    sink'.held.toList = sink.held.toList ++ (Chunk.zeros count).bytes := by
  fun_induction zeroFill count sink
  case case1 =>
    cases h
    exact (List.append_nil _).symm
  case case2 => cases h
  case case3 count sink hcount next hrun ih =>
    rw [ih h, held_of_writeRun_ok hrun, List.append_assoc, Chunk.zeros_append]
    congr 3
    omega

/-- After a chunk was written in full, its bytes stand behind what the sink held. -/
theorem held_of_write_ok {chunk : Chunk} {sink sink' : Sink}
    (h : sink.write chunk = (.ok (), sink')) :
    sink'.held.toList = sink.held.toList ++ chunk.bytes := by
  cases chunk with
  | data content => exact held_of_writeRun_ok h
  | zeros count => exact held_of_zeroFill_ok h

/-- Writes that the sink takes are held behind what it held before. -/
theorem held_of_absorb_ok {writes : List Write} {sink sink' : Sink}
    (h : sink.absorb writes = (.ok (), sink')) :
    sink'.held.toList = sink.held.toList ++ writes.flatMap (·.chunk.bytes) := by
  induction writes generalizing sink with
  | nil =>
      cases h
      exact (List.append_nil _).symm
  | cons write writes ih =>
      rw [absorb] at h
      split at h
      next => cases h
      next sink'' hwrite =>
        rw [ih h, held_of_write_ok hwrite, List.flatMap_cons, List.append_assoc]

end Sink

namespace Emission

variable {α β : Type} {bytes : Bytes} {error : Error}

/-- The emission writes exactly these bytes and fails with `error`. -/
def Fails (emission : Emission α) (bytes : Bytes) (error : Error) : Prop :=
  emission.outcome = .error error ∧ emission.bytes = bytes

/-- A bare result fails with its error, and before its first byte. -/
@[simp] theorem fails_ofExcept {outcome : Except Error α} :
    (ofExcept outcome).Fails bytes error ↔ bytes = [] ∧ outcome = .error error := by
  show outcome = .error error ∧ [] = bytes ↔ _
  rw [and_comm, eq_comm (a := [])]

/-- A bare error fails as such, and before its first byte. -/
@[simp] theorem fails_fail {error' : Error} :
    (fail error' : Emission α).Fails bytes error ↔ bytes = [] ∧ error' = error := by
  rw [fail, fails_ofExcept, Except.error.injEq]

/-- A single write is no failure of the emission. -/
@[simp] theorem not_fails_write {path : Path} {chunk : Chunk} :
    ¬ (write path chunk).Fails bytes error := by
  rintro ⟨h, -⟩
  cases h

/-- An emission in two parts fails in the first one, or in the second one behind the bytes of the
first. -/
theorem fails_bind {emission : Emission α} {following : α → Emission β} :
    (emission >>= following).Fails bytes error ↔
      emission.Fails bytes error ∨
        ∃ front middle back, bytes = front ++ back ∧ emission.Yields front middle ∧
          (following middle).Fails back error := by
  obtain ⟨writes, outcome⟩ := emission
  cases outcome with
  | error error' =>
      constructor
      · rintro ⟨houtcome, hbytes⟩
        cases houtcome
        exact .inl ⟨rfl, hbytes⟩
      · rintro (⟨houtcome, hbytes⟩ | ⟨_, _, _, _, ⟨h, -⟩, _⟩)
        · cases houtcome
          exact ⟨rfl, hbytes⟩
        · cases h
  | ok middle =>
      have hbytes : ((⟨writes, .ok middle⟩ : Emission α) >>= following).bytes =
          (⟨writes, .ok middle⟩ : Emission α).bytes ++ (following middle).bytes :=
        List.flatMap_append
      constructor
      · rintro ⟨houtcome, rfl⟩
        exact .inr ⟨_, middle, _, hbytes, ⟨rfl, rfl⟩, houtcome, rfl⟩
      · rintro (⟨h, -⟩ | ⟨front, _, back, rfl, ⟨hmiddle, rfl⟩, houtcome, rfl⟩)
        · cases h
        · cases hmiddle
          exact ⟨houtcome, hbytes⟩

/-- A sized emission fails where and how the emission does. -/
@[simp] theorem fails_sized {emission : Emission α} :
    emission.sized.Fails bytes error ↔ emission.Fails bytes error := by
  obtain ⟨writes, outcome⟩ := emission
  cases outcome with
  | error error' => simp [sized, Fails, Except.map, Emission.bytes]
  | ok result =>
      constructor
      · rintro ⟨h, -⟩
        cases h
      · rintro ⟨h, -⟩
        cases h

/-- Emissions one after another fail where the first one of them fails, behind the bytes of all
earlier ones. -/
theorem fails_forM {items : List β} {emit : β → Emission Unit} :
    (items.forM emit).Fails bytes error ↔
      ∃ before item after written back, items = before ++ item :: after ∧
        List.Forall₂ (fun item bytes => (emit item).Yields bytes ()) before written ∧
        (emit item).Fails back error ∧ bytes = written.flatten ++ back := by
  induction items generalizing bytes with
  | nil => simp [List.forM]
  | cons first items ih =>
      rw [show (first :: items).forM emit = emit first >>= fun _ => items.forM emit from rfl,
        fails_bind]
      constructor
      · rintro (h | ⟨front, _, back, rfl, hfirst, hrest⟩)
        · exact ⟨[], first, items, [], bytes, rfl, .nil, h, rfl⟩
        · obtain ⟨before, item, after, written, last, rfl, hbefore, hitem, rfl⟩ := ih.1 hrest
          refine ⟨first :: before, item, after, front :: written, last, rfl,
            .cons hfirst hbefore, hitem, ?_⟩
          rw [List.flatten_cons, List.append_assoc]
      · rintro ⟨before, item, after, written, back, hitems, hbefore, hitem, rfl⟩
        cases hbefore with
        | nil =>
            cases hitems
            exact .inl hitem
        | @cons _ front before written hfirst hbefore =>
            cases hitems
            refine .inr ⟨front, (), written.flatten ++ back, ?_, hfirst,
              ih.2 ⟨before, item, after, written, back, rfl, hbefore, hitem, rfl⟩⟩
            rw [List.flatten_cons, List.append_assoc]

end Emission

/-- Whether the fault is that a limit is exceeded. -/
def Fault.isLimit : Fault → Bool
  | .recursionLimit | .collectLimit _ | .blobLimit _ => true
  | _ => false

/-- The error is that of the value at `path` itself: a broken contract, or a fault at `path` other
than that a limit is exceeded. -/
inductive Error.IsOwn (path : Path) : Error → Prop where
  | fault {fault : Fault} (h : fault.isLimit = false) : IsOwn path (.located path fault)
  | broken (defect : Defect) : IsOwn path (.broken defect)

namespace Plan

variable {path : Path} {value : Value} {record : Option Record} {error : Error}

/-- A size that cannot be evaluated is a fault of the value itself. -/
theorem isOwn_of_evalSize {expr : SizeExpr} (h : evalSize path expr record = .error error) :
    error.IsOwn path := by
  unfold evalSize at h
  split at h
  next evalError _ =>
    cases h
    cases evalError with
    | tag tagError => exact .fault rfl
    | broken defect => exact .broken defect
  next =>
    split at h <;> cases h
    exact .fault rfl

/-- A wire type that does not suit the value is a fault of the value itself. -/
theorem isOwn_of_resolveWire {tagged : Option WireType}
    (h : resolveWire path value tagged = .error error) : error.IsOwn path := by
  unfold resolveWire at h
  split at h <;> cases h
  exact .fault rfl

/-- Brackets that do not suit the value are a fault of the value itself. -/
theorem isOwn_of_resolveArray {brackets : Brackets}
    (h : resolveArray path value brackets record = .error error) : error.IsOwn path := by
  unfold resolveArray at h
  split at h
  · cases h
  · cases h
  · exact isOwn_of_evalSize (error_of_map h)

/-- A buffer length that cannot be evaluated is a fault of the value itself. -/
theorem isOwn_of_resolveBuffer {expr : Option SizeExpr}
    (h : resolveBuffer path expr record = .error error) : error.IsOwn path := by
  unfold resolveBuffer at h
  split at h
  · cases h
  · split at h <;> cases h
    next hsize => exact isOwn_of_evalSize hsize
    next => exact .fault rfl

/-- That a value has no plan is its own fault. -/
theorem isOwn_of_resolve {tag : Tag} (h : resolve path value tag record = .error error) :
    error.IsOwn path := by
  unfold resolve at h
  rcases error_of_bind h with hwire | ⟨wire, -, h⟩
  · exact isOwn_of_resolveWire hwire
  rcases error_of_bind h with harray | ⟨⟨isArray, arrayLength⟩, -, h⟩
  · exact isOwn_of_resolveArray harray
  rcases error_of_bind h with hbuffer | ⟨bufferLength, -, h⟩
  · exact isOwn_of_resolveBuffer hbuffer
  · cases h

/-- That an element has no plan is its own fault. -/
theorem isOwn_of_element {plan : Plan} (h : plan.element path value = .error error) :
    error.IsOwn path := by
  have hwire := error_of_map h
  unfold elementWire at hwire
  split at hwire <;> cases hwire
  exact .fault rfl

end Plan

/-- The value at `path` itself cannot be encoded, and that shows before the first byte. -/
def Emission.Refuses (emission : Emission Unit) (path : Path) (error : Error) : Prop :=
  ∃ fault, fault.isLimit = false ∧ error = .located path fault ∧ emission = .fail error

/-- Scalars are as wide as their wire type says. -/
theorem WireType.isScalarWidth_byteSize {wire : WireType} (h : wire.isNumeric = true) :
    isScalarWidth wire.byteSize = true := by
  cases wire
  all_goals first | rfl | cases h

section leaf

variable {settings : Settings} {path : Path} {bytes : Bytes} {error : Error}

/-- An emission that only fails, and at no limit, refuses its value. -/
theorem refuses_fail {fault : Fault} (hfault : fault.isLimit = false)
    (h : (Emission.fail (.located path fault) : Emission Unit).Fails bytes error) :
    (Emission.fail (.located path fault)).Refuses path error := by
  obtain ⟨-, rfl⟩ := Emission.fails_fail.1 h
  exact ⟨fault, hfault, rfl, rfl⟩

/-- That a string has no codec, or that its codec fails, is its own fault. -/
theorem exists_of_transcode {convert : Text.Codec → Bytes → Except TransferFault Bytes}
    {encoding : Option String} {data : Bytes}
    (h : settings.transcode convert path encoding data = .error error) :
    ∃ fault, fault.isLimit = false ∧ error = .located path fault := by
  unfold Settings.transcode at h
  split at h
  next codecError hcodec =>
    cases h
    unfold Settings.codec? at hcodec
    split at hcodec
    · cases hcodec
    · split at hcodec <;> cases hcodec
      exact ⟨_, rfl, rfl⟩
  next => cases h
  next =>
    split at h <;> cases h
    exact ⟨_, rfl, rfl⟩

/-- A string without a frame exceeds no limit of the settings. -/
theorem isLimit_of_frame {wire : WireType} {bufferLength : Option Nat} {data : Bytes}
    {fault : Fault} (h : TextFrame.of wire bufferLength data = .error fault) :
    fault.isLimit = false := by
  simp only [TextFrame.of] at h
  repeat' split at h
  all_goals cases h
  all_goals rfl

/-- The length field of a frame is as wide as a scalar. -/
theorem isScalarWidth_of_frame {wire : WireType} {bufferLength : Option Nat} {data : Bytes}
    {frame : TextFrame} {size : Nat} (h : TextFrame.of wire bufferLength data = .ok frame)
    (hsize : frame.lengthSize = some size) : isScalarWidth size = true := by
  simp only [TextFrame.of] at h
  repeat' split at h
  all_goals cases h
  all_goals cases hsize
  next hlength _ => exact WireType.isScalarWidth_lengthSize hlength

/-- A number of a width that scalars have is always written. -/
theorem not_fails_emitImage {width : Nat} (hwidth : isScalarWidth width = true) (image : UInt64) :
    ¬ (emitImage settings path width image).Fails bytes error := by
  rw [emitImage, ByteOrder.put, if_pos hwidth]
  exact Emission.not_fails_write

/-- What has a frame is written in it. -/
theorem not_fails_emit {wire : WireType} {bufferLength : Option Nat} {data : Bytes}
    {frame : TextFrame} (hframe : TextFrame.of wire bufferLength data = .ok frame) :
    ¬ (frame.emit settings path data).Fails bytes error := by
  have hrest {bytes : Bytes} : ¬ (do
      Emission.write path (.data data)
      Emission.write path (.zeros (frame.bufferSize - data.length))).Fails bytes error := by
    simp [Emission.fails_bind]
  unfold TextFrame.emit
  intro h
  cases hsize : frame.lengthSize with
  | none =>
      rw [hsize] at h
      exact hrest (by simpa using h)
  | some size =>
      rw [hsize] at h
      rcases Emission.fails_bind.1 h with h | ⟨_, _, _, -, -, h⟩
      · exact not_fails_emitImage (isScalarWidth_of_frame hframe hsize) _ h
      · exact hrest h

/-- A string that cannot be encoded is refused before its first byte. -/
theorem refuses_encodeText {plan : Plan} {text : String}
    (h : (encodeText settings path plan text).Fails bytes error) :
    (encodeText settings path plan text).Refuses path error := by
  unfold encodeText at h ⊢
  cases hdata : settings.transcode Text.Codec.encode path plan.encoding (Text.Utf8.encode text) with
  | error codecError =>
      rw [hdata] at h
      obtain ⟨-, rfl⟩ := Emission.fails_fail.1 h
      obtain ⟨fault, hfault, rfl⟩ := exists_of_transcode hdata
      exact ⟨fault, hfault, rfl, rfl⟩
  | ok data =>
      rw [hdata, Emission.ofExcept_ok_bind] at h
      rw [Emission.ofExcept_ok_bind]
      cases hframe : TextFrame.of plan.wire plan.bufferLength data with
      | error fault =>
          simp only [hframe] at h
          exact refuses_fail (isLimit_of_frame hframe) h
      | ok frame =>
          simp only [hframe] at h
          exact (not_fails_emit hframe h).elim

end leaf

end PackedRecord
