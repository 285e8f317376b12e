/-!
# Pace of a device

How many bytes a device moves in one call. A device may interrupt calls and move fewer bytes than
asked for; interrupted calls are repeated. `Pace.next_progresses` says that a device which moves
bytes in every call goes on doing so.
-/

namespace PackedRecord

/-- Zeros are written, and bytes that do not matter are read, so many at once at most. -/
def scratchSize : Nat := 16384

/-- The longest run of zeros at once is not empty. -/
theorem scratchSize_pos : 0 < scratchSize := by decide

/-- How a device answers one call. -/
inductive Answer where
  /-- It moves nothing, and the call is to be repeated. -/
  | interrupted
  /-- It moves so many bytes at most. -/
  | atMost (limit : Nat)
  deriving DecidableEq, Repr

/-- The answers of a device: first those of a script, then at most `chunk` bytes in every call, or
all that are asked for. -/
structure Pace where
  script : List Answer
  chunk : Option Nat
  deriving DecidableEq, Repr

namespace Pace

/-- The pace of a device that moves all that is asked for. -/
def unlimited : Pace := ⟨[], none⟩

/-- The limit of the next call that is not interrupted, and the pace after it. -/
def next (pace : Pace) : Option Nat × Pace :=
  match pace.script.dropWhile (· = .interrupted) with
  | .atMost limit :: script => (some limit, { pace with script })
  | script => (pace.chunk, { pace with script })

/-- `count`, but no more than the limit. -/
def limited (limit : Option Nat) (count : Nat) : Nat :=
  match limit with
  | none => count
  | some limit => min limit count

/-- A limit never makes a count greater. -/
theorem limited_le (limit : Option Nat) (count : Nat) : limited limit count ≤ count := by
  cases limit with
  | none => exact Nat.le_refl _
  | some limit => exact Nat.min_le_right _ _

/-- A limit that is not zero leaves something of a count that is not zero. -/
theorem limited_pos {limit : Option Nat} {count : Nat} (hlimit : ∀ bound ∈ limit, 0 < bound)
    (hcount : 0 < count) : 0 < limited limit count := by
  cases limit with
  | none => exact hcount
  | some limit => exact Nat.lt_min.2 ⟨hlimit limit rfl, hcount⟩

/-- The device moves at least one byte in every call that it does not interrupt. As a script is
finite, so are the interruptions. -/
structure Progresses (pace : Pace) : Prop where
  script_pos : ∀ limit, .atMost limit ∈ pace.script → 0 < limit
  chunk_pos : ∀ limit ∈ pace.chunk, 0 < limit

/-- A device that moves all that is asked for moves bytes in every call. -/
theorem unlimited_progresses : unlimited.Progresses := ⟨nofun, nofun⟩

/-- A call of a device that moves bytes in every call moves bytes, and so do those after it. -/
theorem next_progresses {pace later : Pace} {bound : Option Nat} (h : pace.Progresses)
    (hnext : pace.next = (bound, later)) :
    (∀ limit ∈ bound, 0 < limit) ∧ later.Progresses := by
  have hscripted {answer : Answer} (hmem : answer ∈ pace.script.dropWhile (· = .interrupted)) :
      answer ∈ pace.script := (List.dropWhile_sublist _).subset hmem
  unfold next at hnext
  split at hnext
  next limit script hscript =>
    cases hnext
    rw [hscript] at hscripted
    refine ⟨?_, ?_, h.chunk_pos⟩
    · rintro _ ⟨⟩
      exact h.script_pos limit (hscripted List.mem_cons_self)
    · intro limit hlimit
      exact h.script_pos limit (hscripted (List.mem_cons_of_mem _ hlimit))
  next =>
    cases hnext
    exact ⟨h.chunk_pos, fun limit hlimit => h.script_pos limit (hscripted hlimit), h.chunk_pos⟩

end Pace

end PackedRecord
