import PackedRecord.Encode.Emission

/-!
# What an emission yields

`Emission.Yields` says that an emission ends well, with a result and after these bytes. It is for
the encoder what `Intake.Accepts` is for the decoder: `Emission.yields_bind` takes the bytes of an
emission in two parts apart.
-/

namespace PackedRecord

namespace Bytes

/-- So many zero bytes. -/
def zeros (count : Nat) : Bytes :=
  List.replicate count 0

/-- So many zero bytes are that many bytes. -/
@[simp] theorem length_zeros (count : Nat) : (zeros count).length = count :=
  List.length_replicate

/-- No zero bytes are no bytes. -/
@[simp] theorem zeros_zero : zeros 0 = [] := rfl

/-- Zero bytes behind zero bytes are as many as both together. -/
theorem zeros_add (m n : Nat) : zeros (m + n) = zeros m ++ zeros n :=
  List.replicate_append_replicate.symm

/-- Blocks of zero bytes are zero bytes, as many as all blocks have. -/
theorem flatten_zeros (count size : Nat) :
    (List.replicate count (zeros size)).flatten = zeros (count * size) :=
  List.flatten_replicate_replicate

/-- Zero bytes stand for zero. -/
theorem toNat_zeros (count : Nat) : toNat (zeros count) = 0 := by
  induction count with
  | zero => rfl
  | succ count ih =>
      show 0 + 256 * toNat (zeros count) = 0
      rw [ih]

end Bytes

/-- Zero bytes stand for zero in either order. -/
theorem ByteOrder.toNat_zeros (order : ByteOrder) (count : Nat) :
    order.toNat (Bytes.zeros count) = 0 := by
  cases order with
  | littleEndian => exact Bytes.toNat_zeros count
  | bigEndian =>
      show Bytes.toNat (List.replicate count 0).reverse = 0
      rw [List.reverse_replicate]
      exact Bytes.toNat_zeros count

namespace Emission

variable {α β : Type}

/-- The emission writes exactly these bytes and ends with `result`. -/
def Yields (emission : Emission α) (bytes : Bytes) (result : α) : Prop :=
  emission.outcome = .ok result ∧ emission.bytes = bytes

variable {bytes : Bytes}

/-- A bare result yields no bytes, and only if it is no error. -/
@[simp] theorem yields_ofExcept {outcome : Except Error α} {result : α} :
    (ofExcept outcome).Yields bytes result ↔ bytes = [] ∧ outcome = .ok result := by
  show outcome = .ok result ∧ [] = bytes ↔ _
  rw [and_comm, eq_comm (a := [])]

/-- An emission that fails yields nothing. -/
@[simp] theorem not_yields_fail {error : Error} {result : α} :
    ¬ (fail error : Emission α).Yields bytes result := by
  rintro ⟨h, -⟩
  cases h

/-- A single write yields the bytes of its chunk. -/
@[simp] theorem yields_write {path : Path} {chunk : Chunk} {result : Unit} :
    (write path chunk).Yields bytes result ↔ bytes = chunk.bytes := by
  have hbytes : (write path chunk).bytes = chunk.bytes := List.append_nil _
  constructor
  · rintro ⟨-, h⟩
    rw [← h, hbytes]
  · rintro rfl
    exact ⟨rfl, hbytes⟩

/-- A write of zeros yields as many zero bytes. -/
@[simp] theorem yields_write_zeros {path : Path} {count : Nat} {result : Unit} :
    (write path (.zeros count)).Yields bytes result ↔ bytes = Bytes.zeros count :=
  yields_write

/-- An emission in two parts yields the bytes of its parts, one after the other. -/
theorem yields_bind {emission : Emission α} {following : α → Emission β} {result : β} :
    (emission >>= following).Yields bytes result ↔
      ∃ front middle back, bytes = front ++ back ∧ emission.Yields front middle ∧
        (following middle).Yields back result := by
  obtain ⟨writes, outcome⟩ := emission
  cases outcome with
  | error error =>
      constructor
      · rintro ⟨h, -⟩
        cases h
      · rintro ⟨_, _, _, _, ⟨h, -⟩, _⟩
        cases h
  | ok middle =>
      have hbytes : ((⟨writes, .ok middle⟩ : Emission α) >>= following).bytes =
          (⟨writes, .ok middle⟩ : Emission α).bytes ++ (following middle).bytes :=
        List.flatMap_append
      constructor
      · rintro ⟨houtcome, rfl⟩
        exact ⟨_, middle, _, hbytes, ⟨rfl, rfl⟩, houtcome, rfl⟩
      · rintro ⟨front, _, back, rfl, ⟨hmiddle, rfl⟩, houtcome, rfl⟩
        cases hmiddle
        exact ⟨houtcome, hbytes⟩

/-- An emission yields as many bytes as it says. -/
theorem size_of_yields {emission : Emission α} {result : α}
    (h : emission.Yields bytes result) : emission.size = bytes.length := by
  obtain ⟨-, rfl⟩ := h
  simp [size, Emission.bytes, List.length_flatMap]

/-- A sized emission yields the same bytes, and their number as its result. -/
@[simp] theorem yields_sized {emission : Emission α} {size : Nat} :
    emission.sized.Yields bytes size ↔
      ∃ result, emission.Yields bytes result ∧ size = bytes.length := by
  obtain ⟨writes, outcome⟩ := emission
  cases outcome with
  | error error =>
      constructor
      · rintro ⟨h, -⟩
        cases h
      · rintro ⟨_, ⟨h, -⟩, _⟩
        cases h
  | ok result =>
      constructor
      · rintro ⟨hsize, hbytes⟩
        have hyields : (⟨writes, .ok result⟩ : Emission α).Yields bytes result := ⟨rfl, hbytes⟩
        cases hsize
        exact ⟨result, hyields, size_of_yields hyields⟩
      · rintro ⟨_, hyields, rfl⟩
        exact ⟨congrArg Except.ok (size_of_yields hyields), hyields.2⟩

end Emission

end PackedRecord
