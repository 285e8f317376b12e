import PackedRecord.Decode.Intake

/-!
# Bytes that an intake accepts

`Intake.Accepts` says which bytes an intake asks for on its way to a result, apart from any source.
`Source.supply_of_accepts` and `Source.accepts_of_supply` connect it to a source without hindrance:
the intake ends well exactly if the data starts with accepted bytes. `Source.supply_take_of_accepts`
says how the intake ends if the data stops before the last of them. `Intake.AcceptsAll` is for an
intake that any bytes will do for, if there are so many.
-/

namespace PackedRecord

namespace Intake

variable {α β γ δ : Type}

/-- The intake asks for exactly these bytes and ends with `result`. -/
def Accepts : Intake β α → (bytes : Bytes) → (result : α) → Prop
  | done outcome, bytes, result => bytes = [] ∧ outcome = result
  | fail _ _, _, _ => False
  | read _ count _ next, bytes, result =>
      ∃ front back, bytes = front ++ back ∧ front.length = count ∧ (next front).Accepts back result

variable {bytes : Bytes} {path : Path}

/-- A result is accepted without bytes, and only that one. -/
@[simp] theorem accepts_done {outcome result : α} :
    (done outcome : Intake β α).Accepts bytes result ↔ bytes = [] ∧ outcome = result := Iff.rfl

/-- An intake that fails accepts nothing. -/
@[simp] theorem not_accepts_fail {error : Error} {left : β} {result : α} :
    ¬ (fail error left : Intake β α).Accepts bytes result := id

/-- An intake in two parts accepts the bytes of its parts, one after the other. -/
theorem accepts_bind {intake : Intake β α} {following : α → Intake β γ} {result : γ} :
    (intake >>= following).Accepts bytes result ↔
      ∃ front middle back, bytes = front ++ back ∧ intake.Accepts front middle ∧
        (following middle).Accepts back result := by
  induction intake generalizing bytes with
  | done outcome =>
      constructor
      · intro h
        exact ⟨[], outcome, bytes, rfl, ⟨rfl, rfl⟩, h⟩
      · rintro ⟨_, _, back, rfl, ⟨rfl, rfl⟩, h⟩
        exact h
  | fail error left =>
      constructor
      · intro h
        exact h.elim
      · rintro ⟨_, _, _, _, h, _⟩
        exact h.elim
  | read path count torn next ih =>
      constructor
      · rintro ⟨front, back, rfl, hcount, h⟩
        obtain ⟨first, middle, second, rfl, hfirst, hsecond⟩ := (ih front).1 h
        exact ⟨front ++ first, middle, second, by rw [List.append_assoc],
          ⟨front, first, rfl, hcount, hfirst⟩, hsecond⟩
      · rintro ⟨_, middle, second, rfl, ⟨front, first, rfl, hcount, hfirst⟩, hsecond⟩
        exact ⟨front, first ++ second, by rw [List.append_assoc], hcount,
          (ih front).2 ⟨first, middle, second, rfl, hfirst, hsecond⟩⟩

/-- One accepting intake after another. -/
theorem Accepts.bind {intake : Intake β α} {following : α → Intake β γ} {front back : Bytes}
    {middle : α} {result : γ} (hfirst : intake.Accepts front middle)
    (hnext : (following middle).Accepts back result) :
    (intake >>= following).Accepts (front ++ back) result :=
  accepts_bind.2 ⟨front, middle, back, rfl, hfirst, hnext⟩

/-- An accepting intake whose result is worked on without further requests. -/
theorem Accepts.bind_done {intake : Intake β α} {following : α → Intake β γ} {middle : α}
    {result : γ} (hfirst : intake.Accepts bytes middle)
    (hnext : (following middle).Accepts [] result) : (intake >>= following).Accepts bytes result :=
  accepts_bind.2 ⟨bytes, middle, [], (List.append_nil _).symm, hfirst, hnext⟩

/-- A change of results does not change what is asked for. -/
theorem accepts_bimap {f : β → δ} {g : α → γ} {intake : Intake β α} {result : γ} :
    (intake.bimap f g).Accepts bytes result ↔
      ∃ outcome, intake.Accepts bytes outcome ∧ g outcome = result := by
  induction intake generalizing bytes with
  | done outcome =>
      constructor
      · rintro ⟨rfl, rfl⟩
        exact ⟨outcome, ⟨rfl, rfl⟩, rfl⟩
      · rintro ⟨_, ⟨rfl, rfl⟩, rfl⟩
        exact ⟨rfl, rfl⟩
  | fail error left =>
      constructor
      · intro h
        exact h.elim
      · rintro ⟨_, h, _⟩
        exact h.elim
  | read path count torn next ih =>
      constructor
      · rintro ⟨front, back, rfl, hcount, h⟩
        obtain ⟨outcome, hnext, rfl⟩ := (ih front).1 h
        exact ⟨outcome, ⟨front, back, rfl, hcount, hnext⟩, rfl⟩
      · rintro ⟨outcome, ⟨front, back, rfl, hcount, hnext⟩, rfl⟩
        exact ⟨front, back, rfl, hcount, (ih front).2 ⟨outcome, hnext, rfl⟩⟩

/-- A mapped intake accepts the same bytes, with the mapped result. -/
theorem Accepts.bimap {intake : Intake β α} {result : α} (f : β → δ) (g : α → γ)
    (h : intake.Accepts bytes result) : (intake.bimap f g).Accepts bytes (g result) :=
  accepts_bimap.2 ⟨result, h, rfl⟩

/-- What an error leaves behind does not matter for what is accepted. -/
theorem Accepts.leaving {intake : Intake γ α} {result : α} (left : β)
    (h : intake.Accepts bytes result) : (Intake.leaving left intake).Accepts bytes result :=
  h.bimap _ _

/-- Reading bytes accepts them as they are. -/
theorem accepts_bytes : (Intake.bytes path bytes.length).Accepts bytes bytes :=
  ⟨bytes, [], (List.append_nil _).symm, rfl, rfl, rfl⟩

/-- Skipping accepts any bytes, if they are as many. -/
theorem accepts_skip {bytes : Bytes} : (Intake.skip path bytes.length).Accepts bytes () := by
  rw [skip]
  split
  next hempty => exact ⟨List.eq_nil_of_length_eq_zero hempty, rfl⟩
  next hbytes =>
    have hpos := scratchSize_pos
    have hlater : (skip path (bytes.drop (min bytes.length scratchSize)).length).Accepts
        (bytes.drop (min bytes.length scratchSize)) () := accepts_skip
    rw [List.length_drop] at hlater
    refine ⟨bytes.take (min bytes.length scratchSize), bytes.drop (min bytes.length scratchSize),
      (List.take_append_drop _ _).symm, ?_, hlater⟩
    rw [List.length_take]
    omega
termination_by bytes.length
decreasing_by
  have := scratchSize_pos
  rw [List.length_drop]
  omega

/-- A bare result is accepted without bytes, and a bare error never. -/
@[simp] theorem accepts_ofExcept {left : β} {outcome : Except Error α} {result : α} :
    (ofExcept left outcome).Accepts bytes result ↔ bytes = [] ∧ outcome = .ok result := by
  cases outcome <;> simp [ofExcept]

/-- The intake asks for `size` bytes, whatever they are, and ends with a valid result. -/
def AcceptsAll (intake : Intake β α) (size : Nat) (valid : α → Prop) : Prop :=
  ∀ bytes : Bytes, bytes.length = size → ∃ result, valid result ∧ intake.Accepts bytes result

variable {size : Nat} {valid : α → Prop}

/-- A valid result needs no bytes. -/
theorem acceptsAll_done {outcome : α} (h : valid outcome) :
    (done outcome : Intake β α).AcceptsAll 0 valid := by
  intro bytes hbytes
  exact ⟨outcome, h, List.eq_nil_of_length_eq_zero hbytes, rfl⟩

/-- A mapped intake accepts as many bytes if the map keeps results valid. -/
theorem AcceptsAll.bimap {intake : Intake β α} {valid' : γ → Prop} {f : β → δ} {g : α → γ}
    (h : intake.AcceptsAll size valid) (hvalid : ∀ result, valid result → valid' (g result)) :
    (intake.bimap f g).AcceptsAll size valid' := by
  intro bytes hbytes
  obtain ⟨result, hresult, haccepts⟩ := h bytes hbytes
  exact ⟨g result, hvalid result hresult, haccepts.bimap f g⟩

/-- What an error leaves behind does not matter for how many bytes are accepted. -/
theorem AcceptsAll.leaving {intake : Intake γ α} (left : β) (h : intake.AcceptsAll size valid) :
    (Intake.leaving left intake).AcceptsAll size valid :=
  h.bimap fun _ hresult => hresult

/-- Two intakes that ask for any bytes ask for any bytes one after the other. -/
theorem AcceptsAll.bind {intake : Intake β α} {following : α → Intake β γ} {size' : Nat}
    {valid' : γ → Prop} (hfirst : intake.AcceptsAll size valid)
    (hnext : ∀ middle, valid middle → (following middle).AcceptsAll size' valid') :
    (intake >>= following).AcceptsAll (size + size') valid' := by
  intro bytes hbytes
  obtain ⟨middle, hmiddle, hfront⟩ := hfirst (bytes.take size) (by
    rw [List.length_take]
    omega)
  obtain ⟨result, hresult, hback⟩ := hnext middle hmiddle (bytes.drop size) (by
    rw [List.length_drop]
    omega)
  have hboth := hfront.bind hback
  rw [List.take_append_drop] at hboth
  exact ⟨result, hresult, hboth⟩

/-- An intake that asks for any bytes and whose result is worked on without further requests. -/
theorem AcceptsAll.bind_done {intake : Intake β α} {following : α → Intake β γ}
    {valid' : γ → Prop} (hfirst : intake.AcceptsAll size valid)
    (hnext : ∀ middle, valid middle → (following middle).AcceptsAll 0 valid') :
    (intake >>= following).AcceptsAll size valid' :=
  hfirst.bind hnext

end Intake

namespace Source

variable {α β : Type} {intake : Intake β α} {bytes : Bytes} {result : α}

/-- A source without hindrance that starts with accepted bytes ends the intake behind them. -/
theorem supply_of_accepts (boundary position : Nat) (rest : Bytes)
    (h : intake.Accepts bytes result) :
    (steady (bytes ++ rest) position).supply boundary intake =
      (.ok result, steady rest (position + bytes.length)) := by
  induction intake generalizing bytes position with
  | done outcome =>
      obtain ⟨rfl, rfl⟩ := h
      rfl
  | fail error left => exact h.elim
  | read path count torn next ih =>
      obtain ⟨front, back, rfl, rfl, hnext⟩ := h
      rw [List.append_assoc, supply_read_steady, if_neg (by simp), List.take_left, List.drop_left,
        ih front _ hnext, List.length_append, Nat.add_assoc]

/-- An intake that a source without hindrance ends well accepts what was taken from the source. -/
theorem accepts_of_supply {boundary position : Nat} {data : Bytes} {source : Source}
    (h : (steady data position).supply boundary intake = (.ok result, source)) :
    ∃ bytes rest, data = bytes ++ rest ∧ intake.Accepts bytes result ∧
      source = steady rest (position + bytes.length) := by
  induction intake generalizing data position with
  | done outcome =>
      cases h
      exact ⟨[], data, rfl, ⟨rfl, rfl⟩, rfl⟩
  | fail error left => cases h
  | read path count torn next ih =>
      rw [supply_read_steady] at h
      split at h
      · cases h
      next hlong =>
        obtain ⟨back, rest, hdata, hnext, rfl⟩ := ih _ h
        have hcount : (data.take count).length = count := by
          rw [List.length_take]
          omega
        refine ⟨data.take count ++ back, rest, ?_, ⟨_, back, rfl, hcount, hnext⟩, ?_⟩
        · rw [List.append_assoc, ← hdata, List.take_append_drop]
        · rw [List.length_append, hcount, Nat.add_assoc]

/-- Data that stops before the last accepted byte ends the intake where it stops. -/
theorem supply_take_of_accepts (boundary position : Nat) (h : intake.Accepts bytes result)
    {count : Nat} (hcount : count < bytes.length) :
    ∃ path left, (steady (bytes.take count) position).supply boundary intake =
      (.error ((steady [] (position + count)).shortage boundary path, left),
        steady [] (position + count)) := by
  induction intake generalizing bytes position count with
  | done outcome =>
      obtain ⟨rfl, -⟩ := h
      exact absurd hcount (Nat.not_lt_zero _)
  | fail error left => exact h.elim
  | read path wanted torn next ih =>
      obtain ⟨front, back, rfl, rfl, hnext⟩ := h
      rw [List.length_append] at hcount
      rw [supply_read_steady, List.length_take, List.length_append, Nat.min_eq_left (by omega)]
      -- The data stops within this request or behind it, in one of those that follow.
      by_cases hshort : count < front.length
      · rw [if_pos hshort]
        exact ⟨path, _, rfl⟩
      · rw [if_neg hshort, List.take_take, Nat.min_eq_left (by omega), List.take_left,
          List.drop_take, List.drop_left]
        obtain ⟨place, left, hrest⟩ :=
          ih front (position + front.length) hnext
            (show count - front.length < back.length by omega)
        refine ⟨place, left, ?_⟩
        rw [hrest, Nat.add_assoc, Nat.add_sub_cancel' (by omega)]

end Source

end PackedRecord
