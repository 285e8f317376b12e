import PackedRecord.Bytes
import PackedRecord.Stream.Pace
import PackedRecord.TransferFault

/-!
# Sources

A source delivers bytes at its own pace and may fail after so many bytes. Filling repeats calls
until it has all bytes that it wants, the data ends or the source fails. What was delivered before
that is taken. `fill_steady` says what a source without hindrance delivers.
-/

namespace PackedRecord

/-- A source and the bytes that it still has to deliver. -/
structure Source where
  pace : Pace
  /-- The number of bytes after which every call fails, and how. -/
  failure : Option (Nat × TransferFault)
  data : Bytes
  /-- The number of bytes delivered so far. -/
  position : Nat
  deriving Repr

/-- The result of filling: the bytes that were delivered, and the fault that stopped it. -/
structure Filled where
  bytes : Bytes
  fault : Option TransferFault
  source : Source
  deriving Repr

namespace Source

/-- A source that delivers the rest of its data as asked for, after `position` bytes. -/
def steady (data : Bytes) (position : Nat) : Source := ⟨.unlimited, none, data, position⟩

/-- A source that delivers `data` as asked for. -/
def ofData (data : Bytes) : Source := steady data 0

/-- What the source delivers in a call with the given limit that asks for `wanted` bytes. -/
def deliver (source : Source) (limit : Option Nat) (wanted : Nat) : Except TransferFault Bytes :=
  match source.failure with
  | none => .ok (source.data.take (Pace.limited limit wanted))
  | some (bound, fault) =>
      if bound ≤ source.position then .error fault
      else .ok (source.data.take (min (bound - source.position) (Pace.limited limit wanted)))

/-- The source after it delivered so many bytes. -/
def advance (source : Source) (count : Nat) : Source :=
  { source with data := source.data.drop count, position := source.position + count }

/-- Fills up the bytes `got`, which are in reverse, with `wanted` more bytes. -/
def fillUp (source : Source) (wanted : Nat) (got : Bytes) : Filled :=
  if wanted = 0 then ⟨got.reverse, none, source⟩
  else
    let (limit, pace) := source.pace.next
    let ready := { source with pace }
    match ready.deliver limit wanted with
    | .error fault => ⟨got.reverse, some fault, ready⟩
    | .ok [] => ⟨got.reverse, none, ready⟩
    | .ok (byte :: bytes) =>
        (ready.advance (bytes.length + 1)).fillUp (wanted - (bytes.length + 1))
          (bytes.reverse ++ byte :: got)
termination_by wanted

/-- Reads `wanted` bytes, or as many as there are. -/
def fill (source : Source) (wanted : Nat) : Filled :=
  source.fillUp wanted []

/-- A source without hindrance delivers what is asked for in one call, or all that it has. -/
theorem deliver_steady (data : Bytes) (position wanted : Nat) :
    (steady data position).deliver none wanted = .ok (data.take wanted) := rfl

/-- A source without hindrance fills up what was got with the next bytes that are wanted, or with
all that it has. -/
theorem fillUp_steady (data : Bytes) (position wanted : Nat) (got : Bytes) :
    (steady data position).fillUp wanted got =
      ⟨got.reverse ++ data.take wanted, none,
        steady (data.drop wanted) (position + min wanted data.length)⟩ := by
  rw [fillUp]
  by_cases hzero : wanted = 0
  · simp [hzero]
  rw [if_neg hzero]
  change (match (steady data position).deliver none wanted with
    | .error fault => _
    | .ok [] => _
    | .ok (byte :: bytes) => _) = _
  rw [deliver_steady]
  cases htaken : data.take wanted with
  | nil =>
      have hempty : data = [] := by
        cases data with
        | nil => rfl
        | cons byte data => simp [hzero] at htaken
      subst hempty
      simp [steady, Pace.unlimited]
  | cons byte bytes =>
      have hcount : bytes.length + 1 = min wanted data.length := by
        rw [← List.length_cons, ← htaken, List.length_take]
      have hadvance : (steady data position).advance (bytes.length + 1) =
          steady (data.drop (bytes.length + 1)) (position + (bytes.length + 1)) := rfl
      change ((steady data position).advance (bytes.length + 1)).fillUp _ _ = _
      have hlater : (data.drop (bytes.length + 1)).take (wanted - (bytes.length + 1)) = [] := by
        rw [← List.length_eq_zero_iff, List.length_take, List.length_drop]
        omega
      have hdropped : (data.drop (bytes.length + 1)).drop (wanted - (bytes.length + 1)) =
          data.drop wanted := by
        rw [List.drop_drop]
        rcases Nat.le_total wanted data.length with h | h
        · congr 1
          omega
        · rw [List.drop_of_length_le (by omega), List.drop_of_length_le (by omega)]
      rw [hadvance, fillUp_steady, hlater, hdropped, List.length_drop]
      simp only [List.reverse_append, List.reverse_cons, List.reverse_reverse, List.append_nil,
        List.append_assoc, List.cons_append, List.nil_append]
      congr 2
      omega
termination_by wanted

/-- A source without hindrance delivers what is asked for, or all that it has. -/
theorem fill_steady (data : Bytes) (position wanted : Nat) :
    (steady data position).fill wanted =
      ⟨data.take wanted, none,
        steady (data.drop wanted) (position + min wanted data.length)⟩ := by
  rw [fill, fillUp_steady]
  rfl

end Source

end PackedRecord
