import PackedRecord.Bytes
import PackedRecord.Stream.Pace
import PackedRecord.TransferFault

/-!
# Sinks

A sink takes bytes at its own pace and may have room for so many bytes only. Writing repeats calls
until all bytes are taken or the sink refuses. What was taken before a refusal stays, and counts.
`write_willing` says that a sink without hindrance takes everything.
-/

namespace PackedRecord

/-- A run of bytes to be written. -/
inductive Chunk where
  | data (bytes : Bytes)
  | zeros (count : Nat)
  deriving DecidableEq, Repr

namespace Chunk

/-- The bytes of the run. -/
def bytes : Chunk → Bytes
  | data content => content
  | zeros count => List.replicate count 0

/-- The number of bytes. -/
def size : Chunk → Nat
  | data content => content.length
  | zeros count => count

/-- The run of the first `count` bytes. -/
def take (count : Nat) : Chunk → Chunk
  | data content => data (content.take count)
  | zeros total => zeros (min count total)

/-- The run without its first `count` bytes. -/
def drop (count : Nat) : Chunk → Chunk
  | data content => data (content.drop count)
  | zeros total => zeros (total - count)

/-- The bytes of a run are as many as its size. -/
@[simp] theorem length_bytes (chunk : Chunk) : chunk.bytes.length = chunk.size := by
  cases chunk <;> simp [bytes, size]

/-- The first part of a run has the first of its bytes. -/
@[simp] theorem bytes_take (count : Nat) (chunk : Chunk) :
    (chunk.take count).bytes = chunk.bytes.take count := by
  cases chunk <;> simp [bytes, take]

/-- The rest of a run has the rest of its bytes. -/
@[simp] theorem bytes_drop (count : Nat) (chunk : Chunk) :
    (chunk.drop count).bytes = chunk.bytes.drop count := by
  cases chunk <;> simp [bytes, drop]

/-- Two runs of zeros behind one another are one run of as many zeros. -/
theorem zeros_append (count more : Nat) :
    (zeros count).bytes ++ (zeros more).bytes = (zeros (count + more)).bytes :=
  List.replicate_append_replicate

/-- The rest of a run is smaller by what was cut off. -/
@[simp] theorem size_drop (count : Nat) (chunk : Chunk) :
    (chunk.drop count).size = chunk.size - count := by
  cases chunk <;> simp [size, drop]

end Chunk

/-- A sink and the bytes that it holds. -/
structure Sink where
  pace : Pace
  /-- The number of bytes that it has room for, if that is limited. -/
  capacity : Option Nat
  /-- How a full sink refuses a write. -/
  refusal : TransferFault
  /-- How flushing fails, if it does. -/
  flushFault : Option TransferFault
  held : Array UInt8
  /-- The number of bytes that were counted, call by call. -/
  position : Nat := 0
  deriving Repr

namespace Sink

/-- A sink that takes everything and holds `held` so far. -/
def willing (held : Array UInt8) : Sink :=
  ⟨.unlimited, none, .nothingWritten, none, held, held.size⟩

/-- An empty sink that takes everything. -/
def unbounded : Sink := willing #[]

/-- The number of bytes that the sink still has room for, if that is limited. -/
def room (sink : Sink) : Option Nat := sink.capacity.map (· - sink.held.size)

/-- How many of `count` bytes the sink takes in a call with the given limit. -/
def accept (sink : Sink) (limit : Option Nat) (count : Nat) : Except TransferFault Nat :=
  if sink.room = some 0 then .error sink.refusal
  else
    match Pace.limited sink.room (Pace.limited limit count) with
    | 0 => .error .nothingWritten
    | accepted => .ok accepted

/-- A sink that takes bytes in a call takes at least one. -/
theorem accept_pos {sink : Sink} {limit : Option Nat} {count accepted : Nat}
    (h : sink.accept limit count = .ok accepted) : 0 < accepted := by
  unfold accept at h
  split at h
  · cases h
  · split at h
    · cases h
    · next hne => cases h; exact Nat.pos_of_ne_zero fun hzero => hne hzero

/-- Writes all bytes of a run, in as many calls as the sink needs. -/
def writeRun (chunk : Chunk) (sink : Sink) : Except TransferFault Unit × Sink :=
  if chunk.size = 0 then (.ok (), sink)
  else
    let (limit, pace) := sink.pace.next
    match h : { sink with pace }.accept limit chunk.size with
    | .error fault => (.error fault, { sink with pace })
    | .ok count =>
        have := accept_pos h
        writeRun (chunk.drop count)
          { sink with
            pace
            held := sink.held ++ (chunk.take count).bytes
            position := sink.position + count }
termination_by chunk.size
decreasing_by simp; omega

/-- Writes zeros, in runs that are not too long. -/
def zeroFill (count : Nat) (sink : Sink) : Except TransferFault Unit × Sink :=
  if count = 0 then (.ok (), sink)
  else
    match sink.writeRun (.zeros (min count scratchSize)) with
    | (.error fault, sink) => (.error fault, sink)
    | (.ok (), sink) => zeroFill (count - min count scratchSize) sink
termination_by count
decreasing_by
  have := scratchSize_pos
  omega

/-- Writes all bytes of a chunk. -/
def write (chunk : Chunk) (sink : Sink) : Except TransferFault Unit × Sink :=
  match chunk with
  | .data content => sink.writeRun (.data content)
  | .zeros count => sink.zeroFill count

/-- An array grows by as many bytes as are put behind it. -/
theorem size_append (held : Array UInt8) (bytes : Bytes) :
    (held ++ bytes).size = held.size + bytes.length := by
  show (held ++ bytes).toList.length = held.toList.length + bytes.length
  rw [Array.toList_appendList, List.length_append]

/-- A sink without hindrance takes all the bytes of a call. -/
theorem accept_willing (held : Array UInt8) {count : Nat} (h : count ≠ 0) :
    (willing held).accept none count = .ok count := by
  cases count with
  | zero => exact absurd rfl h
  | succ count => rfl

/-- A sink without hindrance takes all bytes of a run. -/
theorem writeRun_willing (chunk : Chunk) (held : Array UInt8) :
    (willing held).writeRun chunk = (.ok (), willing (held ++ chunk.bytes)) := by
  rw [writeRun]
  by_cases hzero : chunk.size = 0
  · have hempty : chunk.bytes = [] := by
      rw [← List.length_eq_zero_iff, Chunk.length_bytes, hzero]
    simp [hzero, hempty]
  · rw [if_neg hzero]
    split
    next limit pace hnext =>
      cases hnext
      split
      next fault h =>
        cases h.symm.trans (accept_willing held hzero)
      next count h =>
        cases h.symm.trans (accept_willing held hzero)
        have hall : chunk.bytes.take chunk.size = chunk.bytes :=
          List.take_of_length_le (Nat.le_of_eq chunk.length_bytes)
        have hcounted : held.size + chunk.size = (held ++ chunk.bytes).size := by
          rw [size_append, Chunk.length_bytes]
        rw [writeRun, if_pos (by simp), Chunk.bytes_take, hall]
        show (_, Sink.mk _ _ _ _ _ (held.size + chunk.size)) = _
        rw [hcounted]
        rfl

/-- A sink without hindrance takes any number of zeros. -/
theorem zeroFill_willing (count : Nat) (held : Array UInt8) :
    (willing held).zeroFill count = (.ok (), willing (held ++ (Chunk.zeros count).bytes)) := by
  rw [zeroFill]
  by_cases hzero : count = 0
  · subst hzero
    rfl
  · have hpos := scratchSize_pos
    have hparts : held ++ (Chunk.zeros (min count scratchSize)).bytes ++
        (Chunk.zeros (count - min count scratchSize)).bytes =
          held ++ (Chunk.zeros count).bytes := by
      apply Array.toList_inj.1
      simp only [Array.toList_appendList, List.append_assoc, Chunk.zeros_append]
      congr 3
      omega
    rw [if_neg hzero, writeRun_willing]
    show (willing _).zeroFill _ = _
    rw [zeroFill_willing, hparts]
termination_by count
decreasing_by
  have := scratchSize_pos
  omega

/-- A sink without hindrance takes all bytes of a chunk. -/
theorem write_willing (chunk : Chunk) (held : Array UInt8) :
    (willing held).write chunk = (.ok (), willing (held ++ chunk.bytes)) := by
  cases chunk with
  | data content => exact writeRun_willing (.data content) held
  | zeros count => exact zeroFill_willing count held

/-- Flushes the sink. -/
def flush (sink : Sink) : Except TransferFault Unit :=
  match sink.flushFault with
  | none => .ok ()
  | some fault => .error fault

end Sink

end PackedRecord
