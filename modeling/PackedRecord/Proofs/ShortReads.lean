import PackedRecord.Proofs.Calls
import PackedRecord.Proofs.ReadyBytes

/-!
# Short reads

A source may deliver the bytes that are asked for in as many parts as it likes, and interrupt calls
in between, without any influence on what is decoded. `Source.Fills` and `Source.Answers` say how a
request and an intake fare on such a source: as on one without hindrance, or up to where the source
fails. `Decoder.decodeEachNext_short_reads` compares whole sequences of calls.
-/

namespace PackedRecord

namespace Source

/-- The source does not fail before it delivered `count` bytes, or all that there are. -/
def Lasts (source : Source) (count : Nat) : Prop :=
  ∀ bound fault, source.failure = some (bound, fault) →
    source.position + count ≤ bound ∨ source.position + source.data.length < bound

variable {source middle after : Source} {count more : Nat}

/-- Behind the bytes that it delivered, a source lasts for as many more as it would have. -/
theorem Gave.lasts_iff (h : source.Gave count middle) :
    middle.Lasts more ↔ source.Lasts (count + more) := by
  have hle := h.le
  unfold Lasts
  rw [h.failure_eq, h.position_eq, h.data_eq, List.length_drop]
  refine forall_congr' fun bound => forall_congr' fun fault => imp_congr_right fun _ => ?_
  omega

/-- A source without a failure lasts. -/
theorem lasts_of_none (h : source.failure = none) : source.Lasts count := by
  intro bound fault hfailure
  cases h.symm.trans hfailure

/-- A source that lasts for more bytes lasts for less. -/
theorem Lasts.mono (h : source.Lasts more) (hle : count ≤ more) : source.Lasts count := by
  intro bound fault hfailure
  rcases h bound fault hfailure with hwithin | hend
  · exact .inl (by omega)
  · exact .inr hend

/-- A request for bytes in front of which `got` are there, in reverse. It gets what a source without
hindrance would deliver, or what there is in front of the place where the source fails. -/
inductive Fills (source : Source) (wanted : Nat) (got : Bytes) : Filled → Prop where
  | whole {after : Source} (hlasts : source.Lasts wanted)
      (hgave : source.Gave (min wanted source.data.length) after) :
      Fills source wanted got ⟨got.reverse ++ source.data.take wanted, none, after⟩
  | torn {bound taken : Nat} {fault : TransferFault} {bytes : Bytes} {after : Source}
      (hfailure : source.failure = some (bound, fault)) (hfails : ¬ source.Lasts wanted)
      (hgave : source.Gave taken after) (hposition : after.position = bound) :
      Fills source wanted got ⟨bytes, some fault, after⟩

/-- A source that lasts is held up by the end of its data only. -/
theorem Lasts.min_ready (h : source.Lasts count) :
    min count source.ready = min count source.data.length := by
  unfold ready
  cases hfailure : source.failure with
  | none => rfl
  | some failure =>
      have hlasts := h failure.1 failure.2 hfailure
      simp only
      omega

/-- A source that lasts and has too few bytes ready is out of data, but it does not fail. -/
theorem Lasts.breaks_eq (h : source.Lasts count) (hshort : source.ready < count)
    (hgave : source.Gave source.ready after) : after.breaks = none := by
  have hmin := h.min_ready
  have hposition := hgave.position_eq
  unfold breaks
  rw [hgave.failure_eq]
  cases hfailure : source.failure with
  | none => rfl
  | some failure =>
      have hlasts := h failure.1 failure.2 hfailure
      exact if_neg (by omega)

/-- A source that does not last has the bytes in front of the place where it fails. -/
theorem exists_of_not_lasts (h : ¬ source.Lasts count) (hsound : source.Lasts 0) :
    ∃ bound fault, source.failure = some (bound, fault) ∧ source.ready < count ∧
      source.position + source.ready = bound := by
  unfold Lasts at h
  push Not at h
  obtain ⟨bound, fault, hfailure, hwithin, hend⟩ := h
  have hstart := hsound bound fault hfailure
  refine ⟨bound, fault, hfailure, ?_⟩
  simp only [ready, hfailure]
  omega

/-- A request is filled up to its end, the end of the data or the place where the source fails,
however short the reads are. -/
theorem fills_fill (source : Source) (wanted : Nat) (h : source.pace.Progresses)
    (hsound : source.Lasts 0) : source.Fills wanted [] (source.fill wanted) := by
  obtain ⟨after, hgave, hfilled⟩ := source.exists_fillUp wanted [] h
  rw [fill, hfilled]
  by_cases hlasts : source.Lasts wanted
  · have hfault : (if wanted ≤ source.ready then none else after.breaks) = none := by
      split
      · rfl
      next hshort =>
        have hready := Nat.lt_of_not_le hshort
        rw [Nat.min_eq_right hready.le] at hgave
        exact hlasts.breaks_eq hready hgave
    rw [hlasts.min_ready] at hgave ⊢
    rw [hfault, ← List.take_take, List.take_length]
    exact .whole hlasts hgave
  · obtain ⟨bound, fault, hfailure, hready, hbound⟩ := exists_of_not_lasts hlasts hsound
    rw [Nat.min_eq_right hready.le] at hgave ⊢
    have hposition : after.position = bound := hgave.position_eq.trans hbound
    have hbreaks : after.breaks = some fault := by
      rw [breaks, hgave.failure_eq, hfailure]
      exact if_pos hposition.ge
    rw [if_neg (Nat.not_le.2 hready), hbreaks]
    exact .torn hfailure hlasts hgave hposition

end Source

/-- The number of bytes that the intake asks for if it is answered from the data. -/
def Intake.reach {α β : Type} : Intake β α → (data : Bytes) → Nat
  | .done _, _ => 0
  | .fail _ _, _ => 0
  | .read _ count _ next, data =>
      if data.length < count then count
      else count + (next (data.take count)).reach (data.drop count)

namespace Source

variable {α β : Type}

/-- What becomes of an intake: it ends as it would on a source without hindrance, which is given
here, or where the source fails. -/
inductive Answers (source : Source) (reach : Nat) (free : Except (Error × β) α) :
    Except (Error × β) α × Source → Prop where
  | same {after : Source} (hlasts : source.Lasts reach)
      (hgave : source.Gave (min reach source.data.length) after) :
      Answers source reach free (free, after)
  | torn {bound taken : Nat} {fault : TransferFault} {path : Path} {left : β} {after : Source}
      (hfailure : source.failure = some (bound, fault)) (hfails : ¬ source.Lasts reach)
      (hgave : source.Gave taken after) (hposition : after.position = bound) :
      Answers source reach free (.error (.located path (.transfer fault), left), after)

/-- Bytes that the source delivered count towards what an intake asks for. -/
theorem Answers.prepend {source middle : Source} {count reach : Nat}
    {free : Except (Error × β) α} {run : Except (Error × β) α × Source}
    (hgave : source.Gave count middle) (h : middle.Answers reach free run) :
    source.Answers (count + reach) free run := by
  have hle := hgave.le
  cases h with
  | same hlasts hafter =>
      have hboth := hgave.trans hafter
      have hmin : count + min reach middle.data.length =
          min (count + reach) source.data.length := by
        rw [hgave.data_eq, List.length_drop]
        omega
      rw [hgave.lasts_iff] at hlasts
      rw [hmin] at hboth
      exact .same hlasts hboth
  | torn hfailure hfails hafter hposition =>
      rw [hgave.failure_eq] at hfailure
      rw [hgave.lasts_iff] at hfails
      exact .torn hfailure hfails (hgave.trans hafter) hposition

/-- The bytes that were asked for are taken, and the source goes on from there. -/
theorem Answers.gave {source : Source} {reach : Nat} {free : Except (Error × β) α}
    {run : Except (Error × β) α × Source} (h : source.Answers reach free run) :
    ∃ count, source.Gave count run.2 ∧ run.2.Lasts 0 := by
  cases h with
  | same hlasts hgave =>
      exact ⟨_, hgave, hgave.lasts_iff.2 (hlasts.mono (Nat.min_le_left _ _))⟩
  | torn hfailure hfails hgave hposition =>
      refine ⟨_, hgave, ?_⟩
      intro bound' fault' hfailure'
      rw [hgave.failure_eq, hfailure] at hfailure'
      cases hfailure'
      exact .inl (Nat.le_of_eq hposition)

/-- An intake is answered up to its end or up to where the source fails, however short the reads
are. -/
theorem answers_supply (boundary : Nat) (intake : Intake β α) (source : Source)
    (h : source.pace.Progresses) (hsound : source.Lasts 0) :
    source.Answers (intake.reach source.data)
      ((steady source.data source.position).supply boundary intake).1
      (source.supply boundary intake) := by
  induction intake generalizing source with
  | done result =>
      refine .same hsound ?_
      rw [Intake.reach, Nat.zero_min]
      exact .none h
  | fail error left =>
      refine .same hsound ?_
      rw [Intake.reach, Nat.zero_min]
      exact .none h
  | read path count torn next ih =>
      have hfirst := fills_fill source count h hsound
      rw [supply_read_steady, supply, Intake.reach]
      generalize source.fill count = filled at hfirst ⊢
      cases hfirst with
      | @whole after hcount hgave =>
          simp only [List.reverse_nil, List.nil_append, List.length_take]
          by_cases hshort : source.data.length < count
          · rw [if_pos hshort, if_pos hshort, if_pos (by omega)]
            have hposition := hgave.position_eq
            rw [Nat.min_eq_right (Nat.le_of_lt hshort)] at hposition
            have hend : after.shortage boundary path =
                (steady [] (source.position + source.data.length)).shortage boundary path := by
              unfold shortage
              rw [hposition]
              rfl
            rw [hend, List.take_of_length_le (Nat.le_of_lt hshort)]
            exact .same hcount hgave
          · rw [if_neg hshort, if_neg hshort, if_neg (by omega)]
            rw [Nat.min_eq_left (Nat.not_lt.1 hshort)] at hgave
            have hrest := ih (source.data.take count) after hgave.progresses
              (hgave.lasts_iff.2 hcount)
            rw [hgave.data_eq, hgave.position_eq] at hrest
            exact hrest.prepend hgave
      | @torn bound taken fault bytes after hfailure hfails hgave hposition =>
          refine .torn hfailure ?_ hgave hposition
          split
          next => exact hfails
          next => exact fun hall => hfails (hall.mono (Nat.le_add_right _ _))

/-- An intake that asks for no byte ends in the same way on any source, and takes nothing. -/
theorem supply_of_reach_eq_zero {intake : Intake β α} {data : Bytes} (h : intake.reach data = 0) :
    ∃ result, ∀ (boundary : Nat) (source : Source),
      source.supply boundary intake = (result, source) := by
  induction intake generalizing data with
  | done result => exact ⟨.ok result, fun _ _ => rfl⟩
  | fail error left => exact ⟨.error (error, left), fun _ _ => rfl⟩
  | read path count torn next ih =>
      rw [Intake.reach] at h
      split at h
      next hshort => omega
      next =>
        obtain ⟨rfl, hrest⟩ := Nat.add_eq_zero_iff.1 h
        obtain ⟨result, hresult⟩ := ih (data.take 0) hrest
        refine ⟨result, fun boundary source => ?_⟩
        rw [supply, fill, fillUp, if_pos rfl]
        exact hresult boundary source

end Source

namespace Decoder

/-- Decodes into a value as its tag says, or without a tag into one that begins at a boundary. -/
def decodeNext (decoder : Decoder) (tag : Option Tag) (value : Value) : Decoded × Decoder :=
  match tag with
  | none => decoder.decode value
  | some tag => decoder.decodeAs tag value

/-- Decodes into values one after the other, and goes on behind those that fail. -/
def decodeEachNext (decoder : Decoder) : List (Option Tag × Value) → List Decoded × Decoder
  | [] => ([], decoder)
  | (tag, value) :: calls =>
      let (decoded, decoder) := decoder.decodeNext tag value
      let (others, decoder) := decoder.decodeEachNext calls
      (decoded :: others, decoder)

/-- What decoding into a value asks for. -/
def intake (decoder : Decoder) (tag : Option Tag) (value : Value) : Intake Value Value :=
  decodeTagged decoder.schema decoder.settings (tag.getD .empty) value

/-- The number of bytes that decoding into a value needs. -/
def reach (decoder : Decoder) (tag : Option Tag) (value : Value) : Nat :=
  (decoder.intake tag value).reach decoder.source.data

/-- None of the calls needs a byte behind the first `bound` ones. -/
def StaysWithin (bound : Nat) (decoder : Decoder) : List (Option Tag × Value) → Prop
  | [] => True
  | (tag, value) :: calls =>
      decoder.position + decoder.reach tag value ≤ bound ∧
        StaysWithin bound (decoder.decodeNext tag value).2 calls

/-- The decoder has taken as many bytes from the data as it counts. -/
structure HasTaken (decoder : Decoder) (data : Bytes) : Prop where
  position_le : decoder.position ≤ data.length
  data_eq : decoder.source.data = data.drop decoder.position

/-- Where the source may end cleanly in a call. -/
def boundaryFor (decoder : Decoder) : (tag : Option Tag) → Nat
  | none => decoder.position
  | some _ => decoder.boundary

/-- A call supplies its intake from where the source may end cleanly, and concludes it. -/
theorem decodeNext_eq (decoder : Decoder) (tag : Option Tag) (value : Value) :
    decoder.decodeNext tag value =
      decoder.conclude (decoder.boundaryFor tag)
        (decoder.source.supply (decoder.boundaryFor tag) (decoder.intake tag value)) := by
  cases tag with
  | none => exact decodeAs_eq { decoder with boundary := decoder.position } .empty value
  | some tag => exact decodeAs_eq decoder tag value

/-- Two decoders at one place of the same data. The source of the second one does not fail. -/
structure Follows (decoder free : Decoder) : Prop where
  schema_eq : decoder.schema = free.schema
  settings_eq : decoder.settings = free.settings
  boundary_eq : decoder.boundary = free.boundary
  position_eq : decoder.position = free.position
  data_eq : decoder.source.data = free.source.data
  progresses : decoder.source.pace.Progresses
  lasts : decoder.source.Lasts 0
  free_progresses : free.source.pace.Progresses
  free_failure : free.source.failure = none

variable {decoder free : Decoder}

/-- The source of the decoder that is followed lasts for any number of bytes. -/
theorem Follows.free_lasts (h : decoder.Follows free) {count : Nat} : free.source.Lasts count :=
  Source.lasts_of_none h.free_failure

/-- What a call does on a slow source: the same as without hindrance, or it fails with the
source. -/
theorem Follows.decodeNext (h : decoder.Follows free) (tag : Option Tag) (value : Value) :
    (decoder.source.Lasts (free.reach tag value) ∧
      (decoder.decodeNext tag value).1 = (free.decodeNext tag value).1 ∧
      (decoder.decodeNext tag value).2.source.failure = decoder.source.failure ∧
      (decoder.decodeNext tag value).2.Follows (free.decodeNext tag value).2) ∨
    (¬ decoder.source.Lasts (free.reach tag value) ∧
      ∃ bound fault path left, decoder.source.failure = some (bound, fault) ∧
        (decoder.decodeNext tag value).1 = ⟨left, .error (.located path (.transfer fault))⟩ ∧
        (decoder.decodeNext tag value).2.position = bound) := by
  have hintake : decoder.intake tag value = free.intake tag value := by
    unfold intake
    rw [h.schema_eq, h.settings_eq]
  have hboundary : decoder.boundaryFor tag = free.boundaryFor tag := by
    cases tag with
    | none => exact h.position_eq
    | some tag => exact h.boundary_eq
  have hslow := Source.answers_supply (decoder.boundaryFor tag) (decoder.intake tag value)
    decoder.source h.progresses h.lasts
  have hfree := Source.answers_supply (free.boundaryFor tag) (free.intake tag value)
    free.source h.free_progresses h.free_lasts
  have hplace : decoder.source.position = free.source.position := h.position_eq
  rw [hintake, hboundary, h.data_eq, hplace] at hslow
  rw [decodeNext_eq, decodeNext_eq, hintake, hboundary]
  unfold reach
  generalize free.source.supply _ _ = freeRun at hfree ⊢
  generalize decoder.source.supply _ _ = run at hslow ⊢
  cases hfree with
  | torn hfailure hfails => exact absurd h.free_lasts hfails
  | @same freeAfter _ hfreegave =>
      cases hslow with
      | @torn bound taken fault path left after hfailure hfails hgave hposition =>
          exact .inr ⟨hfails, bound, fault, path, left, hfailure, rfl, hposition⟩
      | @same after hlasts hgave =>
          rw [h.data_eq] at hgave
          have hend : after.position = freeAfter.position := by
            rw [hgave.position_eq, hfreegave.position_eq, hplace]
          refine .inl ⟨hlasts, conclude_congr _ h.position_eq hend, ?_, ?_⟩
          · rw [source_conclude]
            exact hgave.failure_eq
          · constructor
            case schema_eq => rw [schema_conclude, schema_conclude, h.schema_eq]
            case settings_eq => rw [settings_conclude, settings_conclude, h.settings_eq]
            case boundary_eq => rw [boundary_conclude, boundary_conclude]
            case position_eq => rw [position, position, source_conclude, source_conclude, hend]
            case data_eq =>
              rw [source_conclude, source_conclude, hgave.data_eq, hfreegave.data_eq, h.data_eq]
            case progresses => rw [source_conclude]; exact hgave.progresses
            case lasts =>
              rw [source_conclude]
              exact hgave.lasts_iff.2 (hlasts.mono (Nat.min_le_left _ _))
            case free_progresses => rw [source_conclude]; exact hfreegave.progresses
            case free_failure =>
              rw [source_conclude]
              exact hfreegave.failure_eq.trans h.free_failure

variable {data : Bytes}

/-- What a decoder counted and what its source still holds are the whole data. -/
theorem HasTaken.length_eq (h : decoder.HasTaken data) :
    decoder.position + decoder.source.data.length = data.length := by
  rw [h.data_eq, List.length_drop, Nat.add_sub_cancel' h.position_le]

/-- No call takes a byte that it does not count. -/
theorem HasTaken.decodeNext (h : decoder.HasTaken data) (hpace : decoder.source.pace.Progresses)
    (hlasts : decoder.source.Lasts 0) (tag : Option Tag) (value : Value) :
    (decoder.decodeNext tag value).2.HasTaken data ∧
      (decoder.decodeNext tag value).2.source.pace.Progresses ∧
      (decoder.decodeNext tag value).2.source.Lasts 0 := by
  have hanswers := Source.answers_supply (decoder.boundaryFor tag) (decoder.intake tag value)
    decoder.source hpace hlasts
  obtain ⟨count, hgave, hafter⟩ := hanswers.gave
  have hle := hgave.le
  have hposition : decoder.source.position ≤ data.length := h.position_le
  have hdata : decoder.source.data = data.drop decoder.source.position := h.data_eq
  rw [hdata, List.length_drop] at hle
  rw [decodeNext_eq, source_conclude]
  refine ⟨⟨?_, ?_⟩, hgave.progresses, hafter⟩
  · rw [position, source_conclude, hgave.position_eq]
    omega
  · rw [position, source_conclude, hgave.data_eq, hgave.position_eq, hdata, List.drop_drop]

/-- A decoder that took what it counts does so after any number of calls. -/
theorem HasTaken.decodeEachNext (h : decoder.HasTaken data)
    (hpace : decoder.source.pace.Progresses) (hlasts : decoder.source.Lasts 0)
    (calls : List (Option Tag × Value)) : (decoder.decodeEachNext calls).2.HasTaken data := by
  induction calls generalizing decoder with
  | nil => exact h
  | cons call calls ih =>
      obtain ⟨hafter, hpace, hlasts⟩ := h.decodeNext hpace hlasts call.1 call.2
      exact ih hafter hpace hlasts

/-- As long as no call needs a byte behind the place where the source fails, calls on a slow source
do the same as without hindrance. -/
theorem Follows.decodeEachNext (h : decoder.Follows free) (htaken : free.HasTaken data)
    (calls : List (Option Tag × Value))
    (hwithin : ∀ bound fault, decoder.source.failure = some (bound, fault) →
      data.length < bound ∨ free.StaysWithin bound calls) :
    (decoder.decodeEachNext calls).1 = (free.decodeEachNext calls).1 ∧
      (decoder.decodeEachNext calls).2.source.failure = decoder.source.failure ∧
      (decoder.decodeEachNext calls).2.Follows (free.decodeEachNext calls).2 := by
  induction calls generalizing decoder free with
  | nil => exact ⟨rfl, rfl, h⟩
  | cons call calls ih =>
      obtain ⟨tag, value⟩ := call
      have hlasts : decoder.source.Lasts (free.reach tag value) := by
        intro bound fault hfailure
        have hplace : decoder.source.position = free.position := h.position_eq
        rw [hplace, h.data_eq, htaken.length_eq]
        rcases hwithin bound fault hfailure with hend | ⟨hreach, -⟩
        · exact .inr hend
        · exact .inl hreach
      rcases h.decodeNext tag value with ⟨-, hresult, hkept, hafter⟩ | ⟨hfails, -⟩
      · have hlater : ∀ bound fault,
            (decoder.decodeNext tag value).2.source.failure = some (bound, fault) →
              data.length < bound ∨ (free.decodeNext tag value).2.StaysWithin bound calls := by
          intro bound fault hfailure
          rw [hkept] at hfailure
          exact (hwithin bound fault hfailure).imp_right And.right
        have hnext := (htaken.decodeNext h.free_progresses h.free_lasts tag value).1
        obtain ⟨hresults, hfailure, hlast⟩ := ih hafter hnext hlater
        refine ⟨?_, hfailure.trans hkept, hlast⟩
        simp only [Decoder.decodeEachNext, hresult, hresults]
      · exact absurd hlasts hfails

/-- A call takes the bytes that it needs, or all that there are, if the source does not fail. -/
theorem position_decodeNext (hpace : decoder.source.pace.Progresses)
    (hfailure : decoder.source.failure = none) (tag : Option Tag) (value : Value) :
    (decoder.decodeNext tag value).2.position =
      decoder.position + min (decoder.reach tag value) decoder.source.data.length := by
  have hanswers := Source.answers_supply (decoder.boundaryFor tag) (decoder.intake tag value)
    decoder.source hpace (Source.lasts_of_none hfailure)
  rw [decodeNext_eq, position, source_conclude]
  generalize decoder.source.supply _ _ = run at hanswers ⊢
  cases hanswers with
  | same _ hgave => exact hgave.position_eq
  | torn _ hfails => exact absurd (Source.lasts_of_none hfailure) hfails

/-- Any number of calls leave the schema and the settings as they are. -/
theorem setup_decodeEachNext (decoder : Decoder) (calls : List (Option Tag × Value)) :
    (decoder.decodeEachNext calls).2.schema = decoder.schema ∧
      (decoder.decodeEachNext calls).2.settings = decoder.settings := by
  induction calls generalizing decoder with
  | nil => exact ⟨rfl, rfl⟩
  | cons call calls ih =>
      obtain ⟨hschema, hsettings⟩ := ih (decoder.decodeNext call.1 call.2).2
      rw [decodeNext_eq, schema_conclude] at hschema
      rw [decodeNext_eq, settings_conclude] at hsettings
      simp only [Decoder.decodeEachNext, decodeNext_eq]
      exact ⟨hschema, hsettings⟩

/-- A call that needs no byte gives the same on any source. -/
theorem fst_decodeNext_of_reach (hschema : decoder.schema = free.schema)
    (hsettings : decoder.settings = free.settings) {tag : Option Tag} {value : Value}
    (h : free.reach tag value = 0) :
    (decoder.decodeNext tag value).1 = (free.decodeNext tag value).1 := by
  obtain ⟨result, hresult⟩ := Source.supply_of_reach_eq_zero h
  have hintake : decoder.intake tag value = free.intake tag value := by
    unfold intake
    rw [hschema, hsettings]
  rw [decodeNext_eq, decodeNext_eq, hintake, hresult, hresult]
  cases result with
  | error => rfl
  | ok value =>
      show Decoded.mk value (.ok (decoder.source.position - decoder.source.position)) =
        Decoded.mk value (.ok (free.source.position - free.source.position))
      rw [Nat.sub_self, Nat.sub_self]

/-- Short reads do not change what is decoded. A source of which every call delivers some bytes, or
is interrupted, is taken from as many bytes as are counted. If it does not fail, all results and all
places are those of a decoder of the data as a whole. If it fails behind `bound` bytes, the same
holds as long as no call needs a byte behind them, and the first call that does fails with the
source, at this place. A call that needs no byte at all is not touched by that. -/
theorem decodeEachNext_short_reads {pace : Pace} (hpace : pace.Progresses) (schema : Schema)
    (settings : Settings) (data : Bytes) :
    let slice : Decoder := ⟨schema, settings, .ofData data, 0⟩
    let slow (failure : Option (Nat × TransferFault)) : Decoder :=
      ⟨schema, settings, ⟨pace, failure, data, 0⟩, 0⟩
    (∀ failure calls, ((slow failure).decodeEachNext calls).2.HasTaken data) ∧
    (∀ calls,
      ((slow none).decodeEachNext calls).1 = (slice.decodeEachNext calls).1 ∧
      ((slow none).decodeEachNext calls).2.position = (slice.decodeEachNext calls).2.position) ∧
    ∀ bound fault calls,
      let failing := (slow (some (bound, fault))).decodeEachNext calls
      let whole := slice.decodeEachNext calls
      (data.length < bound ∨ slice.StaysWithin bound calls →
        failing.1 = whole.1 ∧ failing.2.position = whole.2.position) ∧
      (bound ≤ data.length → slice.StaysWithin bound calls →
        ∀ tag value, bound < whole.2.position + whole.2.reach tag value →
          ∃ path left,
            (failing.2.decodeNext tag value).1 =
              ⟨left, .error (.located path (.transfer fault))⟩ ∧
            (failing.2.decodeNext tag value).2.position = bound) ∧
      ∀ tag value, whole.2.reach tag value = 0 →
        (failing.2.decodeNext tag value).1 = (whole.2.decodeNext tag value).1 := by
  intro slice slow
  have hlasts (failure : Option (Nat × TransferFault)) : (slow failure).source.Lasts 0 :=
    fun _ _ _ => .inl (Nat.zero_le _)
  have hfollows (failure : Option (Nat × TransferFault)) : (slow failure).Follows slice :=
    ⟨rfl, rfl, rfl, rfl, rfl, hpace, hlasts failure, Pace.unlimited_progresses, rfl⟩
  have htaken : slice.HasTaken data := ⟨Nat.zero_le _, rfl⟩
  refine ⟨?_, ?_, ?_⟩
  · intro failure calls
    have hstart : (slow failure).HasTaken data := ⟨Nat.zero_le _, rfl⟩
    exact hstart.decodeEachNext hpace (hlasts failure) calls
  · intro calls
    obtain ⟨hresults, -, hafter⟩ := (hfollows none).decodeEachNext htaken calls nofun
    exact ⟨hresults, hafter.position_eq⟩
  · intro bound fault calls failing whole
    have hrun (hwithin : data.length < bound ∨ slice.StaysWithin bound calls) :=
      (hfollows (some (bound, fault))).decodeEachNext htaken calls
        fun _ _ hfailure => by cases hfailure; exact hwithin
    refine ⟨?_, ?_, ?_⟩
    · intro hwithin
      obtain ⟨hresults, -, hafter⟩ := hrun hwithin
      exact ⟨hresults, hafter.position_eq⟩
    · intro hbound hwithin tag value hneeds
      obtain ⟨-, hfailure, hafter⟩ := hrun (.inr hwithin)
      rcases hafter.decodeNext tag value with ⟨hfits, -⟩ | ⟨-, _, _, path, left, hfault, h⟩
      · -- What there is reaches at least to `bound`, so the source lasts only for what lies within.
        have hplace : failing.2.source.position = whole.2.position := hafter.position_eq
        have hleft : failing.2.source.data = whole.2.source.data := hafter.data_eq
        have hend : whole.2.position + whole.2.source.data.length = data.length :=
          (htaken.decodeEachNext Pace.unlimited_progresses (hfollows none).free_lasts
            calls).length_eq
        have hcases : failing.2.source.position + whole.2.reach tag value ≤ bound ∨
            failing.2.source.position + failing.2.source.data.length < bound :=
          hfits bound fault hfailure
        rw [hplace, hleft] at hcases
        omega
      · cases hfailure.symm.trans hfault
        exact ⟨path, left, h⟩
    · intro tag value hnone
      obtain ⟨hschema, hsettings⟩ := setup_decodeEachNext (slow (some (bound, fault))) calls
      obtain ⟨hschema', hsettings'⟩ := setup_decodeEachNext slice calls
      exact fst_decodeNext_of_reach (hschema.trans hschema'.symm)
        (hsettings.trans hsettings'.symm) hnone

/-- A pace with short calls and interruptions. -/
def halting : Pace := ⟨[.atMost 1, .interrupted, .interrupted, .atMost 2], some 1⟩

/-- The halting pace moves bytes in every call that it does not interrupt. -/
theorem halting_progresses : halting.Progresses where
  script_pos := by
    intro limit hlimit
    have hcases : limit = 1 ∨ limit = 2 := by simpa [halting] using hlimit
    omega
  chunk_pos := by
    intro limit hlimit
    cases hlimit
    exact Nat.one_pos

/-- An unsigned 32-bit number. -/
def uint32 (value : Int) (h : IntType.u32.Holds value) : Value :=
  .scalar (.int ⟨.u32, value, h⟩)

/-- Two numbers from a source that fails in the second one. -/
theorem decodeEachNext_short_reads_numbers :
    let blank := uint32 0 (by decide)
    let slice : Decoder := ⟨[], ⟨.bigEndian, {}, .empty⟩, .ofData [0, 0, 0, 1, 0, 0, 0, 2], 0⟩
    let failing : Decoder :=
      { slice with
        source := ⟨halting, some (6, .device "lost"), [0, 0, 0, 1, 0, 0, 0, 2], 0⟩ }
    halting.Progresses ∧
    slice.StaysWithin 6 [(none, blank)] ∧
    (failing.decodeEachNext [(none, blank)]).1 = [⟨uint32 1 (by decide), .ok 4⟩] ∧
    ∃ path left,
      ((failing.decodeEachNext [(none, blank)]).2.decodeNext none blank).1 =
        ⟨left, .error (.located path (.transfer (.device "lost")))⟩ ∧
      ((failing.decodeEachNext [(none, blank)]).2.decodeNext none blank).2.position = 6 := by
  intro blank slice failing
  have hwithin : slice.StaysWithin 6 [(none, blank)] := ⟨by cbv, trivial⟩
  have hslice : (slice.decodeEachNext [(none, blank)]).1 =
      [⟨uint32 1 (by decide), .ok 4⟩] := by cbv
  have hneeds : 6 < (slice.decodeEachNext [(none, blank)]).2.position +
      (slice.decodeEachNext [(none, blank)]).2.reach none blank := by cbv
  obtain ⟨-, -, hfailing⟩ := decodeEachNext_short_reads halting_progresses [] slice.settings
    [0, 0, 0, 1, 0, 0, 0, 2]
  obtain ⟨hsame, htorn, -⟩ := hfailing 6 (.device "lost") [(none, blank)]
  exact ⟨halting_progresses, hwithin, (hsame (.inr hwithin)).1.trans hslice,
    htorn (by decide) hwithin none blank hneeds⟩

end Decoder

end PackedRecord
