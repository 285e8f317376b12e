import PackedRecord.Error
import PackedRecord.Stream.Sink

/-!
# Emissions

An emission is what encoding does, apart from any sink: the writes that it makes, each with the
place of the value that it is for, and how it ends. `Sink.absorb` carries the writes out; the first
one that the sink refuses ends it. `Sink.absorb_append` says that a run in two parts is absorbed
in two parts.
-/

namespace PackedRecord

/-- A write on behalf of the value at `path`. -/
structure Write where
  path : Path
  chunk : Chunk
  deriving DecidableEq, Repr

/-- Writes, and the result or the error after them. -/
structure Emission (α : Type) where
  writes : List Write
  outcome : Except Error α

namespace Emission

variable {α β : Type}

-- A sum starts from the zero of the core library, whichever others are in scope.
attribute [local instance (high)] Zero.ofOfNat0

/-- The emission without writes that ends with `result`. -/
def ofExcept (result : Except Error α) : Emission α := ⟨[], result⟩

/-- The emission without writes that fails. -/
def fail (error : Error) : Emission α := ofExcept (.error error)

/-- One emission after another. -/
def bind (first : Emission α) (next : α → Emission β) : Emission β :=
  match first.outcome with
  | .error error => ⟨first.writes, .error error⟩
  | .ok result =>
      let following := next result
      ⟨first.writes ++ following.writes, following.outcome⟩

instance : Monad Emission where
  pure result := ofExcept (.ok result)
  bind := bind

/-- A single write. -/
def write (path : Path) (chunk : Chunk) : Emission Unit := ⟨[⟨path, chunk⟩], .ok ()⟩

/-- The number of bytes written. -/
def size (emission : Emission α) : Nat :=
  (emission.writes.map (·.chunk.size)).sum

/-- The bytes written. -/
def bytes (emission : Emission α) : Bytes :=
  emission.writes.flatMap (·.chunk.bytes)

/-- The same emission with the number of bytes written as its result. -/
def sized (emission : Emission α) : Emission Nat :=
  ⟨emission.writes, emission.outcome.map fun _ => emission.size⟩

/-- A bare result comes without writes. -/
@[simp] theorem writes_ofExcept (result : Except Error α) : (ofExcept result).writes = [] := rfl

/-- A bare result is how its emission ends. -/
@[simp] theorem outcome_ofExcept (result : Except Error α) :
    (ofExcept result).outcome = result := rfl

/-- The pure emission is the one without writes that ends with the result. -/
@[simp] theorem pure_eq (result : α) : (pure result : Emission α) = ofExcept (.ok result) := rfl

/-- What follows a bare result goes on from that result. -/
@[simp] theorem ofExcept_ok_bind (result : α) (next : α → Emission β) :
    ofExcept (.ok result) >>= next = next result := by
  simp [Bind.bind, bind, ofExcept]

/-- Nothing follows a bare error. -/
@[simp] theorem ofExcept_error_bind (error : Error) (next : α → Emission β) :
    ofExcept (.error error) >>= next = fail error := rfl

/-- Mapping the result with the identity changes no emission. -/
theorem map_id (emission : Emission α) : id <$> emission = emission := by
  obtain ⟨writes, outcome⟩ := emission
  cases outcome <;> simp [Functor.map, bind, ofExcept]

/-- Three emissions after one another may be grouped either way. -/
theorem bind_bind {γ : Type} (emission : Emission α) (f : α → Emission β)
    (g : β → Emission γ) : emission >>= f >>= g = emission >>= fun result => f result >>= g := by
  obtain ⟨writes, outcome⟩ := emission
  cases outcome with
  | error => rfl
  | ok result =>
      simp only [Bind.bind, bind]
      cases (f result).outcome <;> simp

instance : LawfulMonad Emission :=
  LawfulMonad.mk' Emission map_id ofExcept_ok_bind bind_bind

end Emission

/-- Carries out writes until the sink refuses one. -/
def Sink.absorb : List Write → Sink → Except Error Unit × Sink
  | [], sink => (.ok (), sink)
  | write :: writes, sink =>
      match sink.write write.chunk with
      | (.error fault, sink) => (.error (.located write.path (.transfer fault)), sink)
      | (.ok (), sink) => absorb writes sink

/-- Writes in two parts are absorbed in two parts, the second one only after the first one was
taken. -/
theorem Sink.absorb_append (writes more : List Write) (sink : Sink) :
    sink.absorb (writes ++ more) =
      match sink.absorb writes with
      | (.ok (), sink) => sink.absorb more
      | (.error error, sink) => (.error error, sink) := by
  induction writes generalizing sink with
  | nil => rfl
  | cons write writes ih =>
      simp only [List.cons_append, absorb]
      split
      · rfl
      · exact ih _

/-- A sink without hindrance takes all writes. -/
theorem Sink.absorb_willing (writes : List Write) (held : Array UInt8) :
    (willing held).absorb writes =
      (.ok (), willing (held ++ writes.flatMap (·.chunk.bytes))) := by
  induction writes generalizing held with
  | nil => simp [absorb]
  | cons write writes ih =>
      have hheld : held ++ write.chunk.bytes ++ writes.flatMap (·.chunk.bytes) =
          held ++ (write :: writes).flatMap (·.chunk.bytes) := Array.toList_inj.1 (by simp)
      rw [absorb, write_willing, ← hheld]
      exact ih _

end PackedRecord
