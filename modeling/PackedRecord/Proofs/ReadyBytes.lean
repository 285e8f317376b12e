import Mathlib
import PackedRecord.Decode.Intake

/-!
# Bytes that are ready

A source has so many bytes ready before it ends or fails, whatever parts it delivers them in.
`Source.exists_fillUp` says that a request gets these bytes, and `Source.exists_supply_read` that an
intake whose first request gets too few ends there, as the source does.
-/

namespace PackedRecord

namespace Source

/-- The number of bytes that the source delivers before it ends or fails. -/
def ready (source : Source) : Nat :=
  match source.failure with
  | none => source.data.length
  | some (bound, _) => min source.data.length (bound - source.position)

/-- How every call fails from here on, if it does. -/
def breaks (source : Source) : Option TransferFault :=
  match source.failure with
  | none => none
  | some (bound, fault) => if bound ≤ source.position then some fault else none

/-- How a source that has no byte left ends an intake that began at `boundary`. -/
def ending (source : Source) (boundary : Nat) (path : Path) : Error :=
  match source.breaks with
  | some fault => .located path (.transfer fault)
  | none => source.shortage boundary path

/-- The second source is the first one after it delivered and counted `count` bytes, at whatever
pace. -/
structure Gave (source : Source) (count : Nat) (after : Source) : Prop where
  progresses : after.pace.Progresses
  failure_eq : after.failure = source.failure
  data_eq : after.data = source.data.drop count
  position_eq : after.position = source.position + count
  le : count ≤ source.data.length

variable {α β : Type} {source middle after : Source} {count more : Nat}

/-- A source gave nothing before it is asked. -/
theorem Gave.none (h : source.pace.Progresses) : source.Gave 0 source :=
  ⟨h, rfl, rfl, rfl, Nat.zero_le _⟩

/-- What a source gave in two parts it gave together. -/
theorem Gave.trans (hfirst : source.Gave count middle) (hsecond : middle.Gave more after) :
    source.Gave (count + more) after where
  progresses := hsecond.progresses
  failure_eq := hsecond.failure_eq.trans hfirst.failure_eq
  data_eq := by rw [hsecond.data_eq, hfirst.data_eq, List.drop_drop]
  position_eq := by rw [hsecond.position_eq, hfirst.position_eq, Nat.add_assoc]
  le := by
    have hfront := hfirst.le
    have hback := hsecond.le
    rw [hfirst.data_eq, List.length_drop] at hback
    omega

/-- A source has no more bytes ready than it holds. -/
theorem ready_le (source : Source) : source.ready ≤ source.data.length := by
  unfold ready
  split
  · exact Nat.le_refl _
  · exact Nat.min_le_left _ _

/-- Bytes that were delivered are not ready any more. -/
theorem Gave.ready_eq (h : source.Gave count middle) : middle.ready = source.ready - count := by
  unfold ready
  rw [h.failure_eq, h.data_eq, h.position_eq, List.length_drop]
  split
  · rfl
  · omega

/-- A source that fails has no byte ready. -/
theorem ready_of_breaks {fault : TransferFault} (h : source.breaks = some fault) :
    source.ready = 0 := by
  unfold breaks at h
  unfold ready
  cases hfailure : source.failure with
  | none =>
      rw [hfailure] at h
      cases h
  | some failure =>
      simp only [hfailure] at h
      split_ifs at h with hover
      show min source.data.length (failure.1 - source.position) = 0
      omega

/-- A call fails if the source does, and delivers bytes that are ready otherwise. -/
theorem deliver_eq (source : Source) (limit : Option Nat) (wanted : Nat) :
    (∃ fault, source.breaks = some fault ∧ source.deliver limit wanted = .error fault) ∨
    source.breaks = none ∧ source.deliver limit wanted =
      .ok (source.data.take (min source.ready (Pace.limited limit wanted))) := by
  unfold deliver breaks ready
  cases hfailure : source.failure with
  | none => exact .inr ⟨rfl, congrArg Except.ok (List.take_eq_take_iff.2 (by simp only; omega))⟩
  | some failure =>
      by_cases hover : failure.1 ≤ source.position
      · exact .inl ⟨failure.2, if_pos hover, if_pos hover⟩
      · refine .inr ⟨if_neg hover, (if_neg hover).trans (congrArg Except.ok ?_)⟩
        exact List.take_eq_take_iff.2 (by simp only; omega)

/-- A request gets the bytes that are ready, however short the reads are. If these are too few, the
source fails or has no byte left. -/
theorem exists_fillUp (source : Source) (wanted : Nat) (got : Bytes) (h : source.pace.Progresses) :
    ∃ after, source.Gave (min wanted source.ready) after ∧
      source.fillUp wanted got =
        ⟨got.reverse ++ source.data.take (min wanted source.ready),
          if wanted ≤ source.ready then none else after.breaks, after⟩ := by
  -- A call that delivers nothing leaves the request as far as it got.
  have hstopped {source : Source} {later : Pace} {wanted : Nat} {fault : Option TransferFault}
      (got : Bytes) (hlater : later.Progresses) (hwanted : wanted ≠ 0)
      (hnone : source.ready = 0 ∧ source.breaks = fault) :
      ∃ after, source.Gave (min wanted source.ready) after ∧
        Filled.mk got.reverse fault { source with pace := later } =
          ⟨got.reverse ++ source.data.take (min wanted source.ready),
            if wanted ≤ source.ready then none else after.breaks, after⟩ := by
    obtain ⟨hready, rfl⟩ := hnone
    refine ⟨{ source with pace := later }, ?_, ?_⟩
    · rw [hready, Nat.min_zero]
      exact ⟨hlater, rfl, rfl, rfl, Nat.zero_le _⟩
    · rw [hready, Nat.min_zero, List.take_zero, List.append_nil, if_neg (by omega)]
      rfl
  fun_induction fillUp source wanted got
  case case1 source got =>
    rw [Nat.zero_min, List.take_zero, List.append_nil]
    exact ⟨source, .none h, by rw [if_pos (Nat.zero_le _)]⟩
  case case2 source wanted got hwanted limit pace hnext ready fault hdeliver =>
    obtain ⟨-, hlater⟩ := Pace.next_progresses h hnext
    rcases deliver_eq ready limit wanted with ⟨_, hbreaks, hfails⟩ | ⟨_, hgives⟩
    · cases hdeliver.symm.trans hfails
      exact @hstopped source _ _ _ got hlater hwanted ⟨ready_of_breaks hbreaks, hbreaks⟩
    · cases hdeliver.symm.trans hgives
  case case3 source wanted got hwanted limit pace hnext ready hdeliver =>
    obtain ⟨hlimit, hlater⟩ := Pace.next_progresses h hnext
    rcases deliver_eq ready limit wanted with ⟨_, _, hfails⟩ | ⟨hbreaks, hgives⟩
    · cases hdeliver.symm.trans hfails
    · have hpos := Pace.limited_pos hlimit (Nat.pos_of_ne_zero hwanted)
      have hlength : 0 = min (min source.ready (Pace.limited limit wanted)) source.data.length := by
        rw [← List.length_take]
        exact congrArg List.length (Except.ok.inj (hdeliver.symm.trans hgives))
      have hle := source.ready_le
      exact @hstopped source _ _ _ got hlater hwanted ⟨by omega, hbreaks⟩
  case case4 source wanted got hwanted limit pace hnext ready byte bytes hdeliver ih =>
    obtain ⟨-, hlater⟩ := Pace.next_progresses h hnext
    have hfront : byte :: bytes =
        source.data.take (min source.ready (Pace.limited limit wanted)) := by
      rcases deliver_eq ready limit wanted with ⟨_, _, hfails⟩ | ⟨_, hgives⟩
      · cases hdeliver.symm.trans hfails
      · exact Except.ok.inj (hdeliver.symm.trans hgives)
    have hlimited := Pace.limited_le limit wanted
    have hlength : bytes.length + 1 =
        min (min source.ready (Pace.limited limit wanted)) source.data.length := by
      rw [← List.length_take, ← hfront, List.length_cons]
    have hdata := source.ready_le
    have hgave : source.Gave (bytes.length + 1) (ready.advance (bytes.length + 1)) :=
      ⟨hlater, rfl, rfl, rfl, by omega⟩
    obtain ⟨after, hafter, hfilled⟩ := ih hlater
    rw [hgave.ready_eq] at hafter hfilled
    have hmin : bytes.length + 1 + min (wanted - (bytes.length + 1))
        (source.ready - (bytes.length + 1)) = min wanted source.ready := by omega
    have hboth := hgave.trans hafter
    rw [hmin] at hboth
    have hbytes : (bytes.reverse ++ byte :: got).reverse ++
        (ready.advance (bytes.length + 1)).data.take
          (min (wanted - (bytes.length + 1)) (source.ready - (bytes.length + 1))) =
        got.reverse ++ source.data.take (min wanted source.ready) := by
      have hcut : source.data.take (bytes.length + 1) = byte :: bytes := by
        rw [hlength, ← List.take_take, List.take_length, ← hfront]
      rw [hgave.data_eq, ← hmin, List.take_add, hcut]
      simp only [List.reverse_append, List.reverse_cons, List.reverse_reverse,
        List.append_assoc, List.cons_append, List.nil_append]
    have hfault : wanted - (bytes.length + 1) ≤ source.ready - (bytes.length + 1) ↔
        wanted ≤ source.ready := by omega
    rw [hbytes] at hfilled
    simp only [hfault] at hfilled
    exact ⟨after, hboth, hfilled⟩

/-- A request is answered if as many bytes are ready; otherwise those that are ready are torn. -/
theorem exists_supply_read (boundary : Nat) (path : Path) (count : Nat) (torn : Bytes → β)
    (next : Bytes → Intake β α) (h : source.pace.Progresses) :
    ∃ after, source.Gave (min count source.ready) after ∧
      source.supply boundary (.read path count torn next) =
        if count ≤ source.ready then after.supply boundary (next (source.data.take count))
        else
          (.error (after.ending boundary path, torn (source.data.take source.ready)), after) := by
  obtain ⟨after, hgave, hfilled⟩ := source.exists_fillUp count [] h
  refine ⟨after, hgave, ?_⟩
  have hle := source.ready_le
  rw [supply, fill, hfilled, List.reverse_nil, List.nil_append]
  by_cases hready : count ≤ source.ready
  · rw [if_pos hready, if_pos hready, Nat.min_eq_left hready]
    exact if_neg (by rw [List.length_take]; omega)
  · rw [if_neg hready, if_neg hready, Nat.min_eq_right (Nat.le_of_not_le hready)]
    unfold ending
    cases after.breaks with
    | some fault => rfl
    | none => exact if_pos (by rw [List.length_take]; omega)

end Source

end PackedRecord
