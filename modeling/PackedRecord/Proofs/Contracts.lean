import PackedRecord.Proofs.Acceptance

/-!
# Contracts of intakes

`Intake.Ensures` says how an intake can end: after how many bytes, with which results, and what its
errors leave behind. It is a contract for every source, also for one that is slow, short or broken:
`Source.supply_of_ensures` is the statement to read first. Contracts are proved along the structure
of an intake, one rule for each way to build one.
-/

namespace PackedRecord

namespace Source

/-- A call delivers no more than it is asked for. -/
theorem length_deliver_le {source : Source} {limit : Option Nat} {wanted : Nat} {bytes : Bytes}
    (h : source.deliver limit wanted = .ok bytes) : bytes.length ≤ wanted := by
  have hlimited := Pace.limited_le limit wanted
  unfold deliver at h
  split at h
  · cases h
    rw [List.length_take]
    omega
  · split at h
    · cases h
    · cases h
      rw [List.length_take]
      omega

/-- Filling gives the bytes that it takes, and takes no more than it wants. -/
theorem fillUp_count (source : Source) (wanted : Nat) (got : Bytes) :
    ∃ count ≤ wanted, (source.fillUp wanted got).bytes.length = got.length + count ∧
      (source.fillUp wanted got).source.position = source.position + count := by
  fun_induction fillUp source wanted got
  case case1 => exact ⟨0, Nat.zero_le _, by simp, rfl⟩
  case case2 => exact ⟨0, Nat.zero_le _, by simp, rfl⟩
  case case3 => exact ⟨0, Nat.zero_le _, by simp, rfl⟩
  case case4 source wanted got hwanted limit pace hpace ready byte bytes hbytes ih =>
    obtain ⟨count, hcount, hlength, hposition⟩ := ih
    have hdelivered := length_deliver_le hbytes
    rw [List.length_cons] at hdelivered
    refine ⟨bytes.length + 1 + count, by omega, ?_, ?_⟩
    · rw [hlength, List.length_append, List.length_reverse, List.length_cons]
      omega
    · rw [hposition, ← Nat.add_assoc]
      rfl

/-- A source delivers no more than is wanted, and counts what it delivers. -/
theorem fill_count (source : Source) (wanted : Nat) :
    (source.fill wanted).bytes.length ≤ wanted ∧
      (source.fill wanted).source.position =
        source.position + (source.fill wanted).bytes.length := by
  obtain ⟨count, hcount, hlength, hposition⟩ := source.fillUp_count wanted []
  rw [List.length_nil, Nat.zero_add] at hlength
  rw [fill, hlength]
  exact ⟨hcount, hposition⟩

end Source

namespace Intake

variable {α β γ δ : Type}

/-- The errors of a request at `path` that is not answered in full. -/
inductive Shortfall (path : Path) : Error → Prop where
  | clean : Shortfall path .endOfStream
  | cut : Shortfall path (.located path .unexpectedEnd)
  | broken (fault : TransferFault) : Shortfall path (.located path (.transfer fault))

/-- The intake ends as `ends` says if it ends well, and as `stops` says if it does not, whatever
answers its requests. Both say how many bytes were taken. -/
def Ensures (stops : Nat → Error → β → Prop) (ends : Nat → α → Prop) : Intake β α → Prop
  | done result => ends 0 result
  | fail error left => stops 0 error left
  | read path count torn next =>
      (∀ bytes : Bytes, bytes.length ≤ count → ∀ error, Shortfall path error →
        stops bytes.length error (torn bytes)) ∧
      ∀ bytes : Bytes, bytes.length = count →
        (next bytes).Ensures (fun taken => stops (count + taken)) fun taken => ends (count + taken)

variable {stops stops' : Nat → Error → β → Prop} {ends ends' : Nat → α → Prop}

/-- A contract says no less than a weaker one. -/
theorem Ensures.mono {intake : Intake β α} (h : intake.Ensures stops ends)
    (hstops : ∀ taken error left, stops taken error left → stops' taken error left)
    (hends : ∀ taken result, ends taken result → ends' taken result) :
    intake.Ensures stops' ends' := by
  induction intake generalizing stops stops' ends ends' with
  | done result => exact hends 0 result h
  | fail error left => exact hstops 0 error left h
  | read path count torn next ih =>
      refine ⟨fun bytes hbytes error herror => hstops _ _ _ (h.1 bytes hbytes error herror), ?_⟩
      intro bytes hbytes
      exact ih bytes (h.2 bytes hbytes) (fun taken => hstops (count + taken))
        (fun taken => hends (count + taken))

/-- Two contracts of one intake are one contract. -/
theorem Ensures.and {intake : Intake β α} (h : intake.Ensures stops ends)
    (h' : intake.Ensures stops' ends') :
    intake.Ensures (fun taken error left => stops taken error left ∧ stops' taken error left)
      fun taken result => ends taken result ∧ ends' taken result := by
  induction intake generalizing stops stops' ends ends' with
  | done result => exact ⟨h, h'⟩
  | fail error left => exact ⟨h, h'⟩
  | read path count torn next ih =>
      refine ⟨fun bytes hbytes error herror =>
        ⟨h.1 bytes hbytes error herror, h'.1 bytes hbytes error herror⟩, ?_⟩
      intro bytes hbytes
      exact ih bytes (h.2 bytes hbytes) (h'.2 bytes hbytes)

/-- One intake after another keeps what the first one ensures of its errors, and what the second
one ensures after any result of the first. -/
theorem Ensures.bind {intake : Intake β α} {following : α → Intake β γ}
    {middle : Nat → α → Prop} {ends : Nat → γ → Prop} (hfirst : intake.Ensures stops middle)
    (hnext : ∀ taken result, middle taken result →
      (following result).Ensures (fun more => stops (taken + more))
        fun more => ends (taken + more)) :
    (intake >>= following).Ensures stops ends := by
  induction intake generalizing stops middle ends with
  | done result =>
      have hresult := hnext 0 result hfirst
      simp only [Nat.zero_add] at hresult
      exact hresult
  | fail error left => exact hfirst
  | read path count torn next ih =>
      refine ⟨hfirst.1, ?_⟩
      intro bytes hbytes
      refine ih bytes (hfirst.2 bytes hbytes) ?_
      intro taken result hresult
      have hrest := hnext (count + taken) result hresult
      simp only [Nat.add_assoc] at hrest
      exact hrest

/-- A change of results and of what errors leave behind carries over to the contract. -/
theorem ensures_bimap {f : β → γ} {g : α → δ} {intake : Intake β α}
    {stops : Nat → Error → γ → Prop} {ends : Nat → δ → Prop} :
    (intake.bimap f g).Ensures stops ends ↔
      intake.Ensures (fun taken error left => stops taken error (f left))
        fun taken result => ends taken (g result) := by
  induction intake generalizing stops ends with
  | done result => exact Iff.rfl
  | fail error left => exact Iff.rfl
  | read path count torn next ih =>
      exact and_congr_right fun _ => forall_congr' fun bytes => imp_congr_right fun _ => ih bytes

/-- An intake that ends well accepts the bytes that it has taken. -/
theorem ensures_accepts (intake : Intake β α) :
    intake.Ensures (fun _ _ _ => True)
      fun taken result => ∃ bytes, bytes.length = taken ∧ intake.Accepts bytes result := by
  induction intake with
  | done result => exact ⟨[], rfl, rfl, rfl⟩
  | fail error left => trivial
  | read path count torn next ih =>
      refine ⟨fun _ _ _ _ => trivial, ?_⟩
      intro front hfront
      refine (ih front).mono (fun _ _ _ _ => trivial) ?_
      rintro taken result ⟨back, rfl, haccepts⟩
      exact ⟨front ++ back, by rw [List.length_append, hfront], front, back, rfl, hfront, haccepts⟩

end Intake

namespace Source

variable {α β : Type} {intake : Intake β α}

/-- How an intake ends on a source is as its contract says. -/
theorem supply_of_ensures {stops : Nat → Error → β → Prop} {ends : Nat → α → Prop}
    (h : intake.Ensures stops ends) (boundary : Nat) (source : Source) :
    ∃ taken, (source.supply boundary intake).2.position = source.position + taken ∧
      match (source.supply boundary intake).1 with
      | .ok result => ends taken result
      | .error (error, left) => stops taken error left := by
  induction intake generalizing source stops ends with
  | done result => exact ⟨0, rfl, h⟩
  | fail error left => exact ⟨0, rfl, h⟩
  | read path count torn next ih =>
      obtain ⟨hshort, hfull⟩ := h
      have hcount := source.fill_count count
      rw [supply]
      split
      next bytes fault source' hfill =>
        rw [hfill] at hcount
        exact ⟨bytes.length, hcount.2, hshort bytes hcount.1 _ (.broken fault)⟩
      next bytes source' hfill =>
        rw [hfill] at hcount
        split
        next hless =>
          refine ⟨bytes.length, hcount.2, hshort bytes hcount.1 _ ?_⟩
          unfold shortage
          split
          · exact .clean
          · exact .cut
        next hall =>
          have hbytes : bytes.length = count := Nat.le_antisymm hcount.1 (Nat.not_lt.1 hall)
          obtain ⟨taken, hposition, hends⟩ := ih bytes (hfull bytes hbytes) source'
          refine ⟨count + taken, ?_, hends⟩
          rw [hposition, hcount.2, hbytes, Nat.add_assoc]

/-- An intake that a source ends well accepts bytes, as many as were taken. -/
theorem accepts_of_supply_ok {boundary : Nat} {source source' : Source} {result : α}
    (h : source.supply boundary intake = (.ok result, source')) :
    ∃ bytes, source'.position = source.position + bytes.length ∧ intake.Accepts bytes result := by
  obtain ⟨taken, hposition, hends⟩ := supply_of_ensures intake.ensures_accepts boundary source
  rw [h] at hposition hends
  obtain ⟨bytes, rfl, haccepts⟩ := hends
  exact ⟨bytes, hposition, haccepts⟩

end Source

end PackedRecord
