import Mathlib
import PackedRecord.Decode.Text
import PackedRecord.Proofs.Acceptance
import PackedRecord.Proofs.Yields

/-!
# Terminators

A terminator is a unit of zeros at a multiple of its own size. The search through a buffer and the
reading of a stream unit by unit both stop at the first one: `WireType.terminatorIn_eq_some_iff` and
`accepts_readTerminated` say so by the same induction over units.
-/

namespace PackedRecord

/-- An induction over the units of data, the last of which may be short. -/
@[elab_as_elim]
theorem Bytes.unit_induction {size : Nat} (hsize : 0 < size) {motive : Bytes → Prop}
    (short : ∀ data : Bytes, data.length < size → motive data)
    (unit : ∀ part rest : Bytes, part.length = size → motive rest → motive (part ++ rest))
    (data : Bytes) : motive data := by
  by_cases hshort : data.length < size
  · exact short data hshort
  · have hpart : (data.take size).length = size := by
      rw [List.length_take]
      omega
    rw [← List.take_append_drop size data]
    exact unit _ _ hpart (unit_induction hsize short unit (data.drop size))
termination_by data.length
decreasing_by
  rw [List.length_drop]
  omega

/-- Bytes are all zero exactly if they are zero bytes. -/
theorem Bytes.all_zero_iff {data : Bytes} :
    data.all (· = 0) = true ↔ data = zeros data.length := by
  rw [List.all_eq_true, zeros, List.eq_replicate_iff]
  simp

namespace WireType

/-- A terminator of the wire type starts at `offset`: a zero byte, or a zero word at an even
offset. -/
structure TerminatorAt (wire : WireType) (data : Bytes) (offset : Nat) : Prop where
  aligned : wire.terminatorSize ∣ offset
  zeros : Bytes.zeros wire.terminatorSize <+: data.drop offset

/-- The first terminator starts at `offset`. -/
structure FirstTerminator (wire : WireType) (data : Bytes) (offset : Nat) : Prop
    extends wire.TerminatorAt data offset where
  first : ∀ other < offset, ¬ wire.TerminatorAt data other

variable {wire : WireType} {data front back part rest : Bytes} {offset : Nat}

/-- A terminator lies within the data. -/
theorem TerminatorAt.add_le (h : wire.TerminatorAt data offset) :
    offset + wire.terminatorSize ≤ data.length := by
  have hlength := h.zeros.length_le
  have hpos := wire.terminatorSize_pos
  rw [Bytes.length_zeros, List.length_drop] at hlength
  omega

/-- Whether a terminator lies within the front of data does not depend on the rest. -/
theorem terminatorAt_append (h : offset + wire.terminatorSize ≤ front.length) :
    wire.TerminatorAt (front ++ back) offset ↔ wire.TerminatorAt front offset := by
  have hzeros : Bytes.zeros wire.terminatorSize <+: (front ++ back).drop offset ↔
      Bytes.zeros wire.terminatorSize <+: front.drop offset := by
    rw [List.drop_append_of_le_length (by omega)]
    refine List.isPrefix_append_of_length ?_
    rw [Bytes.length_zeros, List.length_drop]
    omega
  exact ⟨fun hat => ⟨hat.aligned, hzeros.1 hat.zeros⟩, fun hat => ⟨hat.aligned, hzeros.2 hat.zeros⟩⟩

/-- Bytes behind a terminator do not matter for which one is the first. -/
theorem firstTerminator_append (h : offset + wire.terminatorSize ≤ front.length) :
    wire.FirstTerminator (front ++ back) offset ↔ wire.FirstTerminator front offset := by
  have hother {other : Nat} (hother : other < offset) :
      wire.TerminatorAt (front ++ back) other ↔ wire.TerminatorAt front other :=
    terminatorAt_append (by omega)
  constructor
  · rintro ⟨hat, hfirst⟩
    refine ⟨(terminatorAt_append h).1 hat, fun other hlt hat => ?_⟩
    exact hfirst other hlt ((hother hlt).2 hat)
  · rintro ⟨hat, hfirst⟩
    refine ⟨(terminatorAt_append h).2 hat, fun other hlt hat => ?_⟩
    exact hfirst other hlt ((hother hlt).1 hat)

/-- If there is a terminator, there is a first one. -/
theorem TerminatorAt.exists_first (h : wire.TerminatorAt data offset) :
    ∃ first ≤ offset, wire.FirstTerminator data first := by
  classical
  have hexists : ∃ offset, wire.TerminatorAt data offset := ⟨offset, h⟩
  exact ⟨Nat.find hexists, Nat.find_min' hexists h, Nat.find_spec hexists,
    fun _ hlt => Nat.find_min hexists hlt⟩

/-- The first unit is a terminator exactly if it is zero. -/
theorem terminatorAt_zero (hpart : part.length = wire.terminatorSize) :
    wire.TerminatorAt (part ++ rest) 0 ↔ part = Bytes.zeros wire.terminatorSize := by
  rw [terminatorAt_append (by omega)]
  constructor
  · rintro ⟨-, hzeros⟩
    exact (hzeros.eq_of_length (by rw [Bytes.length_zeros, List.drop_zero, hpart])).symm
  · rintro rfl
    exact ⟨dvd_zero _, List.prefix_rfl⟩

/-- Behind the first unit, terminators are those of the rest. -/
theorem terminatorAt_add (hpart : part.length = wire.terminatorSize) :
    wire.TerminatorAt (part ++ rest) (offset + wire.terminatorSize) ↔
      wire.TerminatorAt rest offset := by
  have hdrop : (part ++ rest).drop (offset + wire.terminatorSize) = rest.drop offset := by
    rw [← hpart, Nat.add_comm, List.drop_length_add_append]
  constructor
  · rintro ⟨haligned, hzeros⟩
    exact ⟨Nat.dvd_add_self_right.1 haligned, hdrop ▸ hzeros⟩
  · rintro ⟨haligned, hzeros⟩
    exact ⟨Nat.dvd_add_self_right.2 haligned, hdrop ▸ hzeros⟩

/-- The first terminator is the first unit, if that is one, or else the first one behind it. -/
theorem firstTerminator_unit (hpart : part.length = wire.terminatorSize) :
    wire.FirstTerminator (part ++ rest) offset ↔
      part = Bytes.zeros wire.terminatorSize ∧ offset = 0 ∨
        part ≠ Bytes.zeros wire.terminatorSize ∧
          ∃ behind, wire.FirstTerminator rest behind ∧ behind + wire.terminatorSize = offset := by
  have hpos := wire.terminatorSize_pos
  constructor
  · rintro ⟨hat, hfirst⟩
    rcases Nat.eq_zero_or_pos offset with rfl | hoffset
    · exact .inl ⟨(terminatorAt_zero hpart).1 hat, rfl⟩
    · have hle := Nat.le_of_dvd hoffset hat.aligned
      obtain ⟨behind, rfl⟩ := Nat.exists_eq_add_of_le' hle
      refine .inr ⟨fun hzeros => hfirst 0 hoffset ((terminatorAt_zero hpart).2 hzeros), behind,
        ⟨(terminatorAt_add hpart).1 hat, fun other hlt hother => ?_⟩, rfl⟩
      exact hfirst _ (Nat.add_lt_add_right hlt _) ((terminatorAt_add hpart).2 hother)
  · rintro (⟨hzeros, rfl⟩ | ⟨hne, behind, ⟨hat, hfirst⟩, rfl⟩)
    · exact ⟨(terminatorAt_zero hpart).2 hzeros, fun _ hlt => absurd hlt (Nat.not_lt_zero _)⟩
    · refine ⟨(terminatorAt_add hpart).2 hat, fun other hlt hother => ?_⟩
      rcases Nat.eq_zero_or_pos other with rfl | hother'
      · exact hne ((terminatorAt_zero hpart).1 hother)
      · obtain ⟨other, rfl⟩ := Nat.exists_eq_add_of_le' (Nat.le_of_dvd hother' hother.aligned)
        exact hfirst other (by omega) ((terminatorAt_add hpart).1 hother)

/-- The search sees the first unit, and goes on behind it if that is no terminator. -/
theorem terminatorIn_unit (hwire : wire = .zstring ∨ wire = .z16string)
    (hpart : part.length = wire.terminatorSize) :
    wire.terminatorIn (part ++ rest) =
      if part = Bytes.zeros wire.terminatorSize then some 0
      else (wire.terminatorIn rest).map (· + wire.terminatorSize) := by
  rcases hwire with rfl | rfl
  · obtain ⟨byte, rfl⟩ := List.length_eq_one_iff.1 hpart
    show (byte :: rest).findIdx? (· == 0) =
      if [byte] = [0] then some 0 else (rest.findIdx? (· == 0)).map (· + 1)
    simp [List.findIdx?_cons]
  · obtain ⟨first, second, rfl⟩ := List.length_eq_two.1 hpart
    show (if first = 0 ∧ second = 0 then some 0 else (zeroWordIn rest).map (· + 2)) =
      if [first, second] = [0, 0] then some 0 else (zeroWordIn rest).map (· + 2)
    simp

/-- In less than a unit there is no terminator. -/
theorem terminatorIn_of_short (hwire : wire = .zstring ∨ wire = .z16string)
    (hdata : data.length < wire.terminatorSize) : wire.terminatorIn data = none := by
  rcases hwire with rfl | rfl
  · rw [List.eq_nil_of_length_eq_zero (Nat.lt_one_iff.1 hdata)]
    rfl
  · match data, hdata with
    | [], _ => rfl
    | [_], _ => rfl
    | _ :: _ :: _, hdata => exact absurd hdata (by simp [terminatorSize])

/-- The search finds the first terminator. -/
theorem terminatorIn_eq_some_iff (hwire : wire = .zstring ∨ wire = .z16string) :
    wire.terminatorIn data = some offset ↔ wire.FirstTerminator data offset := by
  induction data using Bytes.unit_induction wire.terminatorSize_pos generalizing offset with
  | short data hdata =>
      rw [terminatorIn_of_short hwire hdata]
      refine iff_of_false nofun fun hfirst => ?_
      have hle := hfirst.add_le
      omega
  | unit part rest hpart ih =>
      rw [terminatorIn_unit hwire hpart, firstTerminator_unit hpart]
      by_cases hzeros : part = Bytes.zeros wire.terminatorSize
      · simp [hzeros, eq_comm]
      · simp [hzeros, ih]

/-- The search finds nothing if there is nothing to find. -/
theorem terminatorIn_eq_none_iff (hwire : wire = .zstring ∨ wire = .z16string) :
    wire.terminatorIn data = none ↔ ∀ offset, ¬ wire.TerminatorAt data offset := by
  rw [Option.eq_none_iff_forall_ne_some]
  constructor
  · intro h offset hat
    obtain ⟨first, -, hfirst⟩ := hat.exists_first
    exact h first ((terminatorIn_eq_some_iff hwire).2 hfirst)
  · intro h offset hfound
    exact h offset ((terminatorIn_eq_some_iff hwire).1 hfound).toTerminatorAt

/-- Where no terminator is in the whole, none is in its front. -/
theorem terminatorIn_eq_none_of_append (hwire : wire = .zstring ∨ wire = .z16string)
    (h : wire.terminatorIn (front ++ back) = none) : wire.terminatorIn front = none := by
  rw [terminatorIn_eq_none_iff hwire] at h ⊢
  exact fun offset hat => h offset ((terminatorAt_append hat.add_le).2 hat)

/-- In front of the first terminator there is none. -/
theorem FirstTerminator.terminatorIn_take (hwire : wire = .zstring ∨ wire = .z16string)
    (h : wire.FirstTerminator data offset) : wire.terminatorIn (data.take offset) = none := by
  rw [terminatorIn_eq_none_iff hwire]
  intro other hat
  have hle := hat.add_le
  have hpos := wire.terminatorSize_pos
  have hwhole : wire.TerminatorAt (data.take offset ++ data.drop offset) other :=
    (terminatorAt_append hle).2 hat
  rw [List.take_append_drop] at hwhole
  rw [List.length_take] at hle
  exact h.first other (by omega) hwhole

/-- Zeros behind whole units without a terminator begin with the first one. -/
theorem firstTerminator_append_zeros (hwire : wire = .zstring ∨ wire = .z16string)
    (haligned : wire.terminatorSize ∣ data.length) (hnone : wire.terminatorIn data = none)
    {count : Nat} (hcount : wire.terminatorSize ≤ count) :
    wire.FirstTerminator (data ++ Bytes.zeros count) data.length := by
  have hzeros : Bytes.zeros wire.terminatorSize <+: Bytes.zeros count := by
    rw [← Nat.add_sub_cancel' hcount, Bytes.zeros_add]
    exact List.prefix_append _ _
  refine ⟨⟨haligned, by rwa [List.drop_left]⟩, fun other hlt hat => ?_⟩
  -- Both offsets are multiples of the size, so that a unit fits between them.
  obtain ⟨units, hunits⟩ := haligned
  obtain ⟨before, rfl⟩ := hat.aligned
  have hbefore : before < units := by
    rw [hunits] at hlt
    exact Nat.lt_of_mul_lt_mul_left hlt
  have hinside : wire.terminatorSize * before + wire.terminatorSize ≤ data.length := by
    rw [hunits, ← Nat.mul_succ]
    exact Nat.mul_le_mul_left _ hbefore
  exact (terminatorIn_eq_none_iff hwire).1 hnone _ ((terminatorAt_append hinside).1 hat)

end WireType

section read

variable {path : Path} {wire : WireType} {data : Bytes} {offset : Nat}

/-- A unit of zeros ends a string. -/
theorem accepts_readTerminated_end {wire : WireType} {part : Bytes}
    (hsize : part.length = wire.terminatorSize) (hzeros : part.all (· = 0) = true) (room : Nat)
    (got : Bytes) : (readTerminated wire path room got).Accepts part got.reverse := by
  rw [readTerminated]
  refine ⟨part, [], (List.append_nil _).symm, hsize, ?_⟩
  show (if part.all (· = 0) = true then Intake.done got.reverse else _).Accepts [] got.reverse
  rw [if_pos hzeros]
  exact ⟨rfl, rfl⟩

/-- Any other unit belongs to the string. -/
theorem accepts_readTerminated_step {wire : WireType} {rest got result : Bytes} {room : Nat}
    (part : Bytes) (hsize : part.length = wire.terminatorSize) (hpart : part.all (· = 0) = false)
    (hroom : wire.terminatorSize ≤ room)
    (hrest : (readTerminated wire path (room - wire.terminatorSize)
      (part.reverseAux got)).Accepts rest result) :
    (readTerminated wire path room got).Accepts (part ++ rest) result := by
  rw [readTerminated]
  refine ⟨part, rest, rfl, hsize, ?_⟩
  show (if part.all (· = 0) = true then Intake.done got.reverse
    else if _h : room < wire.terminatorSize then _ else _).Accepts rest result
  rw [hpart, if_neg Bool.false_ne_true, dif_neg (Nat.not_lt.2 hroom)]
  exact hrest

/-- A stream is read up to its first terminator, if there is room for what stands in front. -/
theorem accepts_readTerminated (h : wire.FirstTerminator data offset) {room : Nat}
    (hroom : offset ≤ room) (got : Bytes) :
    (readTerminated wire path room got).Accepts (data.take (offset + wire.terminatorSize))
      (got.reverse ++ data.take offset) := by
  induction data using Bytes.unit_induction wire.terminatorSize_pos
    generalizing offset room got with
  | short data hdata =>
      have hle := h.add_le
      omega
  | unit part rest hpart ih =>
      rcases (WireType.firstTerminator_unit hpart).1 h with
        ⟨hzeros, rfl⟩ | ⟨hne, behind, hbehind, rfl⟩
      · have hall : part.all (· = 0) = true := by rw [Bytes.all_zero_iff, hpart, hzeros]
        rw [Nat.zero_add, ← hpart, List.take_left, List.take_zero, List.append_nil]
        exact accepts_readTerminated_end hpart hall room got
      · have hall : part.all (· = 0) = false := by
          rw [← Bool.not_eq_true, Bytes.all_zero_iff, hpart]
          exact hne
        have hrest := ih hbehind (show behind ≤ room - wire.terminatorSize by omega)
          (part.reverseAux got)
        have htake (count : Nat) :
            (part ++ rest).take (count + wire.terminatorSize) = part ++ rest.take count := by
          rw [← hpart, Nat.add_comm, List.take_length_add_append]
        rw [List.reverseAux_eq, List.reverse_append, List.reverse_reverse, List.append_assoc,
          ← List.reverseAux_eq] at hrest
        rw [htake, htake]
        exact accepts_readTerminated_step part hpart hall (by omega) hrest

/-- Whole units without a terminator are read up to the one behind them. -/
theorem accepts_readTerminated_zeros (hwire : wire = .zstring ∨ wire = .z16string)
    (haligned : wire.terminatorSize ∣ data.length) (hnone : wire.terminatorIn data = none)
    {room : Nat} (hroom : data.length ≤ room) (got : Bytes) :
    (readTerminated wire path room got).Accepts (data ++ Bytes.zeros wire.terminatorSize)
      (got.reverse ++ data) := by
  have hfirst := WireType.firstTerminator_append_zeros hwire haligned hnone le_rfl
  have hlength : (data ++ Bytes.zeros wire.terminatorSize).length =
      data.length + wire.terminatorSize := by rw [List.length_append, Bytes.length_zeros]
  have hread : (readTerminated wire path room got).Accepts _ _ :=
    accepts_readTerminated hfirst hroom got
  rwa [List.take_left, List.take_of_length_le hlength.le] at hread

end read

end PackedRecord
