import PackedRecord.Error
import PackedRecord.Stream.Source

/-!
# Intakes

An intake is what decoding does, apart from any source: it asks for runs of bytes, goes on by what
it gets, and ends with a result or with an error. An error leaves something behind, the destination
as far as it was filled. `Source.supply` answers the requests; the first run that the source cannot
deliver in full ends the intake. `Source.supply_bind` says that an intake in two parts is supplied
in two parts.
-/

namespace PackedRecord

/-- Requests for bytes up to a result in `α`, or an error that leaves something of `β` behind. -/
inductive Intake (β α : Type) where
  /-- The end, with a result. -/
  | done (result : α)
  /-- The end, with an error. -/
  | fail (error : Error) (left : β)
  /-- A request for `count` bytes on behalf of the value at `path`. Fewer bytes are an error, which
  leaves `torn` of them behind. -/
  | read (path : Path) (count : Nat) (torn : Bytes → β) (next : Bytes → Intake β α)

namespace Intake

variable {α β γ δ : Type}

/-- One intake after another. -/
def bind : Intake β α → (α → Intake β γ) → Intake β γ
  | done result, following => following result
  | fail error left, _ => fail error left
  | read path count torn next, following =>
      read path count torn fun bytes => (next bytes).bind following

/-- The same requests with another result, and with something else left behind by an error. -/
def bimap (f : β → γ) (g : α → δ) : Intake β α → Intake γ δ
  | done result => done (g result)
  | fail error left => fail error (f left)
  | read path count torn next =>
      read path count (fun bytes => f (torn bytes)) fun bytes => (next bytes).bimap f g

instance : Monad (Intake β) where
  pure := done
  bind := bind

/-- The intake without requests that ends with `result`. -/
def ofExcept (left : β) (result : Except Error α) : Intake β α :=
  match result with
  | .ok result => done result
  | .error error => fail error left

/-- Reads `count` bytes. -/
def bytes (path : Path) (count : Nat) : Intake Unit Bytes :=
  read path count (fun _ => ()) done

/-- Reads `count` bytes that do not matter, in runs that are not too long. -/
def skip (path : Path) (count : Nat) : Intake Unit Unit :=
  if count = 0 then done ()
  else
    read path (min count scratchSize) (fun _ => ()) fun _ =>
      skip path (count - min count scratchSize)
termination_by count
decreasing_by
  have := scratchSize_pos
  omega

/-- The same intake, an error of which leaves `left` behind. -/
def leaving (left : β) (intake : Intake γ α) : Intake β α :=
  intake.bimap (fun _ => left) id

/-- The intake of a part as one of the whole, in which `put` places the part. -/
def within (put : α → β) (intake : Intake α α) : Intake β β :=
  intake.bimap put put

/-- The pure intake asks for nothing and ends with its result. -/
@[simp] theorem pure_eq (result : α) : (pure result : Intake β α) = done result := rfl

/-- What follows a result goes on from that result. -/
@[simp] theorem done_bind (result : α) (following : α → Intake β γ) :
    done result >>= following = following result := rfl

/-- Nothing follows an error. -/
@[simp] theorem fail_bind (error : Error) (left : β) (following : α → Intake β γ) :
    fail error left >>= following = fail error left := rfl

/-- What follows a request follows whatever the request goes on with. -/
@[simp] theorem read_bind (path : Path) (count : Nat) (torn : Bytes → β)
    (next : Bytes → Intake β α) (following : α → Intake β γ) :
    read path count torn next >>= following =
      read path count torn fun bytes => next bytes >>= following := rfl

/-- Ending with the result that is there changes no intake. -/
theorem bind_done (intake : Intake β α) : intake >>= done = intake := by
  induction intake with
  | done => rfl
  | fail => rfl
  | read path count torn next ih => rw [read_bind]; simp only [ih]

/-- Three intakes after one another may be grouped either way. -/
theorem bind_bind (intake : Intake β α) (f : α → Intake β γ) (g : γ → Intake β δ) :
    intake >>= f >>= g = intake >>= fun result => f result >>= g := by
  induction intake with
  | done => rfl
  | fail => rfl
  | read path count torn next ih => simp only [read_bind, ih]

instance : LawfulMonad (Intake β) :=
  LawfulMonad.mk' (Intake β) bind_done done_bind bind_bind

/-- A result is mapped by the map of results. -/
@[simp] theorem bimap_done (f : β → γ) (g : α → δ) (result : α) :
    (done result).bimap f g = done (g result) := rfl

/-- What an error leaves behind is mapped by the map of leftovers. -/
@[simp] theorem bimap_fail (f : β → γ) (g : α → δ) (error : Error) (left : β) :
    (fail error left).bimap f g = fail error (f left) := rfl

/-- Of two intakes after one another, the map of results reaches the second one only. -/
theorem bimap_bind {ε : Type} (f : β → ε) (g : γ → δ) (intake : Intake β α)
    (following : α → Intake β γ) :
    (intake >>= following).bimap f g =
      intake.bimap f id >>= fun result => (following result).bimap f g := by
  induction intake with
  | done => rfl
  | fail => rfl
  | read path count torn next ih => simp only [read_bind, bimap, ih]

/-- Mapping with identities changes no intake. -/
theorem bimap_id (intake : Intake β α) : intake.bimap id id = intake := by
  induction intake with
  | done => rfl
  | fail => rfl
  | read path count torn next ih => simp only [bimap, ih, id]

/-- Two maps after one another are the map by the compositions. -/
theorem bimap_bimap {ε ζ : Type} (f : β → γ) (g : α → δ) (f' : γ → ε) (g' : δ → ζ)
    (intake : Intake β α) :
    (intake.bimap f g).bimap f' g' = intake.bimap (f' ∘ f) (g' ∘ g) := by
  induction intake with
  | done => rfl
  | fail => rfl
  | read path count torn next ih => simp only [bimap, ih, Function.comp]

end Intake

/-- How a source that ends early ends an intake whose first request it got at `boundary`. -/
def Source.shortage (source : Source) (boundary : Nat) (path : Path) : Error :=
  if source.position = boundary then .endOfStream else .located path .unexpectedEnd

/-- Answers the requests of an intake that begins at `boundary`. -/
def Source.supply {α β : Type} (boundary : Nat) :
    Intake β α → Source → Except (Error × β) α × Source
  | .done result, source => (.ok result, source)
  | .fail error left, source => (.error (error, left), source)
  | .read path count torn next, source =>
      match source.fill count with
      | ⟨bytes, some fault, source⟩ =>
          (.error (.located path (.transfer fault), torn bytes), source)
      | ⟨bytes, none, source⟩ =>
          if bytes.length < count then (.error (source.shortage boundary path, torn bytes), source)
          else supply boundary (next bytes) source

namespace Source

variable {α β γ δ : Type}

/-- An intake in two parts is supplied in two parts, the second one only after a result. -/
theorem supply_bind (boundary : Nat) (intake : Intake β α) (following : α → Intake β γ)
    (source : Source) :
    source.supply boundary (intake >>= following) =
      match source.supply boundary intake with
      | (.ok result, source) => source.supply boundary (following result)
      | (.error stop, source) => (.error stop, source) := by
  induction intake generalizing source with
  | done => rfl
  | fail => rfl
  | read path count torn next ih =>
      simp only [Intake.read_bind, supply]
      split
      · rfl
      · split
        · rfl
        · exact ih _ _

/-- How the first request fares on a source without hindrance. -/
theorem supply_read_steady (boundary : Nat) (path : Path) (count : Nat) (torn : Bytes → β)
    (next : Bytes → Intake β α) (data : Bytes) (position : Nat) :
    (steady data position).supply boundary (.read path count torn next) =
      if data.length < count then
        (.error ((steady [] (position + data.length)).shortage boundary path, torn data),
          steady [] (position + data.length))
      else
        (steady (data.drop count) (position + count)).supply boundary (next (data.take count)) := by
  simp only [supply, fill_steady, List.length_take]
  by_cases hshort : data.length < count
  · rw [if_pos (by omega), if_pos hshort, Nat.min_eq_right (by omega),
      List.take_of_length_le (by omega), List.drop_of_length_le (by omega)]
  · rw [if_neg (by omega), if_neg hshort, Nat.min_eq_left (by omega)]

/-- A mapped intake takes the same bytes and maps the result or what the error leaves. -/
theorem supply_bimap (boundary : Nat) (f : β → γ) (g : α → δ) (intake : Intake β α)
    (source : Source) :
    source.supply boundary (intake.bimap f g) =
      ((source.supply boundary intake).1.mapError (fun stop => (stop.1, f stop.2)) |>.map g,
        (source.supply boundary intake).2) := by
  induction intake generalizing source with
  | done => rfl
  | fail => rfl
  | read path count torn next ih =>
      simp only [Intake.bimap, supply]
      split
      · rfl
      · split
        · rfl
        · exact ih _ _

end Source

end PackedRecord
