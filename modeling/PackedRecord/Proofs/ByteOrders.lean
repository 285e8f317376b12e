import PackedRecord.Proofs.Drafts
import PackedRecord.Proofs.ShortWrites

/-!
# Encodings in the two byte orders

The byte order of an encoder decides about nothing but the order of bytes within numbers, which are
the scalars and the length fields of strings. `Encoder.encodeAs_other` is the statement to read: in
the other order the encoder comes to the same result and writes as many bytes, and those are the
same after the bytes of each number have been turned round.
-/

namespace PackedRecord

namespace ByteOrder

/-- The other one of the two byte orders. -/
def other : ByteOrder → ByteOrder
  | bigEndian => littleEndian
  | littleEndian => bigEndian

/-- In the other order, a number has its bytes the other way round. -/
theorem bytes_other (order : ByteOrder) (width n : Nat) :
    order.other.bytes width n = (order.bytes width n).reverse := by
  cases order with
  | bigEndian => exact (List.reverse_reverse _).symm
  | littleEndian => rfl

end ByteOrder

/-- A stretch of an encoding: a number, or bytes that no byte order changes. -/
inductive Span where
  | number (width : Nat)
  | plain (size : Nat)
  deriving DecidableEq, Repr

/-- The stretch that a part of an encoding takes. -/
def Mark.span : Mark → Span
  | number width _ => .number width
  | plain chunk => .plain chunk.size

/-- The stretches of a draft, in order. -/
def Draft.spans {α : Type} (draft : Draft α) : List Span :=
  draft.entries.map (·.mark.span)

/-- The data with the bytes of each number turned round, and all other bytes where they are. -/
def turned : List Span → Bytes → Bytes
  | [], data => data
  | .number width :: spans, data => (data.take width).reverse ++ turned spans (data.drop width)
  | .plain size :: spans, data => data.take size ++ turned spans (data.drop size)

/-- The parts of an encoding in the other byte order are the turned ones. -/
theorem flatMap_other (order : ByteOrder) (entries : List Entry) :
    (entries.map (Entry.write order.other)).flatMap (·.chunk.bytes) =
      turned (entries.map (·.mark.span))
        ((entries.map (Entry.write order)).flatMap (·.chunk.bytes)) := by
  induction entries with
  | nil => rfl
  | cons entry entries ih =>
      obtain ⟨path, mark⟩ := entry
      simp only [List.map_cons, List.flatMap_cons, ih]
      cases mark with
      | number width image =>
          have hlength : (order.bytes width image.toNat).length = width := order.length_bytes _ _
          simp only [Entry.write, Mark.chunk, Mark.span, turned, Chunk.bytes,
            ByteOrder.bytes_other, List.take_left' hlength, List.drop_left' hlength]
      | plain chunk =>
          have hlength := chunk.length_bytes
          simp only [Entry.write, Mark.chunk, Mark.span, turned, List.take_left' hlength,
            List.drop_left' hlength]

/-- What is written of a draft in the other byte order is turned. -/
theorem Draft.bytes_other {α : Type} (order : ByteOrder) (draft : Draft α) :
    (draft.inOrder order.other).bytes = turned draft.spans (draft.inOrder order).bytes :=
  flatMap_other order draft.entries

namespace Sink

/-- The sinks differ in the bytes that they hold, but not in their number. -/
inductive Alike (sink : Sink) : Sink → Prop where
  | holding {held : Array UInt8} (hsize : held.size = sink.held.size) :
      Alike sink { sink with held }

/-- Two runs come to the same result, and their sinks differ in the bytes that they hold only. -/
structure SameRun {ε α : Type} (run run' : Except ε α × Sink) : Prop where
  result : run'.1 = run.1
  sink : run.2.Alike run'.2

variable {sink sink' : Sink}

/-- A sink differs in nothing from itself. -/
theorem Alike.refl (sink : Sink) : sink.Alike sink := .holding rfl

/-- What a sink takes in a call does not depend on the bytes that it holds. -/
theorem Alike.accept_eq (h : sink.Alike sink') (limit : Option Nat) (count : Nat) :
    sink'.accept limit count = sink.accept limit count := by
  obtain ⟨hsize⟩ := h
  simp only [accept, room, hsize]
  rfl

/-- The first call of a write depends on the number of bytes only. -/
theorem Alike.writeRun_first {chunk : Chunk} {limit : Option Nat} {pace : Pace}
    (h : sink.Alike sink') (hsize : chunk.size ≠ 0) (hnext : sink.pace.next = (limit, pace)) :
    sink'.writeRun chunk =
      match { sink with pace }.accept limit chunk.size with
      | .error fault => (.error fault, { sink' with pace })
      | .ok count =>
          { sink' with
            pace
            held := sink'.held ++ (chunk.take count).bytes
            position := sink'.position + count }.writeRun (chunk.drop count) := by
  obtain ⟨hheld⟩ := h
  rename_i held
  have halike : Alike { sink with pace } { sink with pace, held } := .holding hheld
  have haccept := halike.accept_eq limit chunk.size
  rw [Sink.writeRun, if_neg hsize]
  split
  next limit' pace' hnext' =>
    cases hnext.symm.trans hnext'
    rw [← haccept]
    split
    next hfirst => simp only [hfirst]
    next hfirst => simp only [hfirst]

/-- As many bytes are taken of one run as of another of the same size. -/
theorem Alike.writeRun {chunk chunk' : Chunk} (h : sink.Alike sink')
    (hsize : chunk'.size = chunk.size) :
    SameRun (sink.writeRun chunk) (sink'.writeRun chunk') := by
  fun_induction Sink.writeRun chunk sink generalizing chunk' sink'
  case case1 chunk sink hzero =>
    rw [Sink.writeRun, if_pos (hsize.trans hzero)]
    exact ⟨rfl, h⟩
  case case2 chunk sink hzero limit pace hnext fault haccept =>
    rw [h.writeRun_first (by rwa [hsize]) hnext, hsize, haccept]
    obtain ⟨hheld⟩ := h
    exact ⟨rfl, .holding hheld⟩
  case case3 chunk sink hzero limit pace hnext count haccept hpos ih =>
    rw [h.writeRun_first (by rwa [hsize]) hnext, hsize, haccept]
    obtain ⟨hheld⟩ := h
    refine ih (.holding ?_) (by simp only [Chunk.size_drop, hsize])
    simp only [size_append, hheld, Chunk.bytes_take, List.length_take, Chunk.length_bytes, hsize]

/-- Zeros fare alike on sinks that differ in the bytes that they hold. -/
theorem Alike.zeroFill (h : sink.Alike sink') (count : Nat) :
    SameRun (sink.zeroFill count) (sink'.zeroFill count) := by
  fun_induction Sink.zeroFill count sink generalizing sink'
  case case1 sink =>
    rw [Sink.zeroFill, if_pos rfl]
    exact ⟨rfl, h⟩
  case case2 count sink hcount fault after hrun =>
    have hfirst := h.writeRun (rfl : (Chunk.zeros (min count scratchSize)).size = _)
    rw [Sink.zeroFill, if_neg hcount]
    generalize sink'.writeRun _ = run at hfirst ⊢
    rw [hrun] at hfirst
    obtain ⟨result, after'⟩ := run
    obtain ⟨hresult, hafter⟩ := hfirst
    cases hresult
    exact ⟨rfl, hafter⟩
  case case3 count sink hcount middle hrun ih =>
    have hfirst := h.writeRun (rfl : (Chunk.zeros (min count scratchSize)).size = _)
    rw [Sink.zeroFill.eq_def count sink', if_neg hcount]
    generalize sink'.writeRun _ = run at hfirst ⊢
    rw [hrun] at hfirst
    obtain ⟨result, middle'⟩ := run
    obtain ⟨hresult, hmiddle⟩ := hfirst
    cases hresult
    exact ih hmiddle

/-- A part of an encoding is taken alike in all byte orders. -/
theorem Alike.write (h : sink.Alike sink') (order order' : ByteOrder) (mark : Mark) :
    SameRun (sink.write (mark.chunk order)) (sink'.write (mark.chunk order')) := by
  cases mark with
  | number width image =>
      exact h.writeRun ((Mark.size_chunk order' (.number width image)).trans
        (Mark.size_chunk order (.number width image)).symm)
  | plain chunk =>
      cases chunk with
      | data content => exact h.writeRun rfl
      | zeros count => exact h.zeroFill count

/-- So are all of them. -/
theorem Alike.absorb (h : sink.Alike sink') (order order' : ByteOrder) (entries : List Entry) :
    SameRun (sink.absorb (entries.map (Entry.write order)))
      (sink'.absorb (entries.map (Entry.write order'))) := by
  induction entries generalizing sink sink' with
  | nil => exact ⟨rfl, h⟩
  | cons entry entries ih =>
      have hfirst := h.write order order' entry.mark
      simp only [List.map_cons, Sink.absorb, Entry.write]
      generalize sink.write _ = run at hfirst ⊢
      generalize sink'.write _ = run' at hfirst ⊢
      obtain ⟨result, middle⟩ := run
      obtain ⟨result', middle'⟩ := run'
      obtain ⟨hresult, hmiddle⟩ := hfirst
      cases hresult
      cases result with
      | error fault => exact ⟨rfl, hmiddle⟩
      | ok => exact ih hmiddle

end Sink

namespace Encoder

/-- The same encoder with the other byte order. -/
def other (encoder : Encoder) : Encoder :=
  { encoder with settings := { encoder.settings with order := encoder.settings.order.other } }

/-- A draft is carried out alike in all byte orders. -/
theorem run_inOrder (settings settings' : Settings) (sink : Sink) (order order' : ByteOrder)
    (draft : Draft Unit) :
    ((mk settings' sink).run (draft.inOrder order').sized).1 =
        ((mk settings sink).run (draft.inOrder order).sized).1 ∧
      ((mk settings' sink).run (draft.inOrder order').sized).2.position =
        ((mk settings sink).run (draft.inOrder order).sized).2.position := by
  have habsorb := (Sink.Alike.refl sink).absorb order order' draft.entries
  rw [← Draft.inOrder_sized, ← Draft.inOrder_sized]
  simp only [run, Draft.inOrder, Draft.sized]
  generalize sink.absorb (draft.entries.map (Entry.write order)) = run at habsorb ⊢
  generalize sink.absorb (draft.entries.map (Entry.write order')) = run' at habsorb ⊢
  obtain ⟨result, after⟩ := run
  obtain ⟨result', after'⟩ := run'
  obtain ⟨hresult, hafter⟩ := habsorb
  cases hresult
  obtain ⟨hheld⟩ := hafter
  cases result <;> exact ⟨rfl, rfl⟩

/-- On an empty sink without hindrance, the output of a call is what it emits. -/
theorem output_encodeAs_unbounded (settings : Settings) (tag : Tag) (value : Value) :
    ((mk settings .unbounded).encodeAs tag value).2.output =
      (encodeTagged settings tag value).bytes := by
  simp only [encodeAs, run, Emission.sized, Sink.unbounded, Sink.absorb_willing]
  exact Array.toList_appendList.trans (List.nil_append _)

/-- In the other byte order the encoder comes to the same result and writes as many bytes, whatever
the sink is. What it writes to a sink that takes everything is the draft of the value, turned: the
bytes of each scalar and of each length field of a string are the other way round, and all other
bytes are the same. -/
theorem encodeAs_other (settings : Settings) (tag : Tag) (value : Value) :
    (∀ sink, ((mk settings sink).other.encodeAs tag value).1 =
        ((mk settings sink).encodeAs tag value).1 ∧
      ((mk settings sink).other.encodeAs tag value).2.position =
        ((mk settings sink).encodeAs tag value).2.position) ∧
    ((mk settings .unbounded).encodeAs tag value).2.output =
      ((draftTagged settings tag value).inOrder settings.order).bytes ∧
    ((mk settings .unbounded).other.encodeAs tag value).2.output =
      turned (draftTagged settings tag value).spans
        ((mk settings .unbounded).encodeAs tag value).2.output := by
  have hother := encodeTagged_eq_inOrder settings settings.order.other tag value
  have hown : encodeTagged settings tag value =
      (draftTagged settings tag value).inOrder settings.order :=
    encodeTagged_eq_inOrder settings settings.order tag value
  refine ⟨fun sink => ?_, ?_, ?_⟩
  · simp only [encodeAs, other, hother, hown]
    exact run_inOrder _ _ sink _ _ _
  · rw [output_encodeAs_unbounded, hown]
  · rw [output_encodeAs_unbounded, hown, ← Draft.bytes_other, ← hother]
    exact output_encodeAs_unbounded _ tag value

end Encoder

end PackedRecord
