import Mathlib
import PackedRecord.Proofs.Calls
import PackedRecord.Proofs.Yields

/-!
# Short writes

A sink may take a run of bytes in as many parts as it likes, and interrupt calls in between, without
any influence on what is encoded. `Sink.Stores` says how a run fares on such a sink: all bytes are
taken, or those for which there is room. `Encoder.encodeEachAs_short_writes` compares a whole
sequence of values that is written to such a sink with the same sequence written to one without
hindrance.
-/

namespace PackedRecord

namespace Sink

/-- So many more bytes find room in the sink. -/
def Fits (sink : Sink) (count : Nat) : Prop :=
  ∀ room ∈ sink.room, count ≤ room

/-- The bytes in front for which there is room. -/
def admitted (sink : Sink) (bytes : Bytes) : Bytes :=
  match sink.room with
  | none => bytes
  | some room => bytes.take room

/-- The second sink is the first one after it took and counted these bytes, at whatever pace. -/
structure Took (sink : Sink) (bytes : Bytes) (after : Sink) : Prop where
  progresses : after.pace.Progresses
  capacity_eq : after.capacity = sink.capacity
  refusal_eq : after.refusal = sink.refusal
  held_eq : after.held.toList = sink.held.toList ++ bytes
  position_eq : after.position = sink.position + bytes.length

/-- A run of bytes ends with all of them taken, or where the sink is full. -/
inductive Stores {ε : Type} (Refused : ε → Prop) (sink : Sink) (bytes : Bytes) :
    Except ε Unit × Sink → Prop where
  | whole {after : Sink} (hfits : sink.Fits bytes.length) (htook : sink.Took bytes after) :
      Stores Refused sink bytes (.ok (), after)
  | torn {error : ε} {after : Sink} (herror : Refused error) (hfull : ¬ sink.Fits bytes.length)
      (htook : sink.Took (sink.admitted bytes) after) :
      Stores Refused sink bytes (.error error, after)

variable {sink middle after : Sink} {bytes first second : Bytes}

/-- A sink took nothing before it is written to. -/
theorem Took.refl (h : sink.pace.Progresses) : sink.Took [] sink :=
  ⟨h, rfl, rfl, (List.append_nil _).symm, rfl⟩

/-- What a sink took in two parts it took together. -/
theorem Took.trans (hfirst : sink.Took first middle) (hsecond : middle.Took second after) :
    sink.Took (first ++ second) after where
  progresses := hsecond.progresses
  capacity_eq := hsecond.capacity_eq.trans hfirst.capacity_eq
  refusal_eq := hsecond.refusal_eq.trans hfirst.refusal_eq
  held_eq := by rw [hsecond.held_eq, hfirst.held_eq, List.append_assoc]
  position_eq := by
    rw [hsecond.position_eq, hfirst.position_eq, List.length_append, Nat.add_assoc]

/-- A sink holds as many more bytes as it took. -/
theorem Took.size_eq (h : sink.Took bytes after) :
    after.held.size = sink.held.size + bytes.length := by
  rw [← Array.length_toList, h.held_eq, List.length_append, Array.length_toList]

/-- A sink that counted all bytes that it held goes on doing so. -/
theorem Took.counted (h : sink.Took bytes after) (hcounted : sink.position = sink.held.size) :
    after.position = after.held.size := by
  rw [h.position_eq, h.size_eq, hcounted]

/-- A sink has room for as many bytes less as it took. -/
theorem Took.room_eq (h : sink.Took bytes after) :
    after.room = sink.room.map (· - bytes.length) := by
  unfold room
  rw [h.capacity_eq, h.size_eq, Option.map_map]
  congr 1
  funext capacity
  exact (Nat.sub_sub capacity sink.held.size bytes.length).symm

/-- Behind bytes that find room, further ones find room if all of them do together. -/
theorem Took.fits_iff (h : sink.Took first middle) (hfits : sink.Fits first.length) :
    middle.Fits second.length ↔ sink.Fits (first ++ second).length := by
  unfold Fits at *
  rw [h.room_eq, List.length_append]
  cases hroom : sink.room with
  | none => exact ⟨nofun, nofun⟩
  | some room =>
      have hfirst := hfits room hroom
      simp only [Option.map_some, Option.mem_some_iff, forall_eq']
      omega

/-- A full sink admits nothing. -/
theorem admitted_of_full (h : sink.room = some 0) (bytes : Bytes) : sink.admitted bytes = [] := by
  unfold admitted
  rw [h]
  rfl

/-- Bytes that find room are admitted as a whole. -/
theorem admitted_of_fits (h : sink.Fits bytes.length) : sink.admitted bytes = bytes := by
  unfold admitted
  split
  next => rfl
  next room hroom => exact List.take_of_length_le (h room hroom)

/-- After bytes that find room, what is admitted is what the rest of the room admits. -/
theorem Took.admitted_append (h : sink.Took first middle) (hfits : sink.Fits first.length) :
    sink.admitted (first ++ second) = first ++ middle.admitted second := by
  unfold admitted
  rw [h.room_eq]
  cases hroom : sink.room with
  | none => rfl
  | some room =>
      have hfirst := hfits room hroom
      show (first ++ second).take room = first ++ second.take (room - first.length)
      rw [List.take_append, List.take_of_length_le hfirst]

/-- What finds no room is more than the limited room there is. -/
theorem exists_of_not_fits {count : Nat} (h : ¬ sink.Fits count) :
    ∃ room, sink.room = some room ∧ room < count := by
  unfold Fits at h
  cases hroom : sink.room with
  | none =>
      rw [hroom] at h
      exact absurd nofun h
  | some room =>
      rw [hroom] at h
      refine ⟨room, rfl, Nat.lt_of_not_le fun hle => h ?_⟩
      intro room' hroom'
      cases hroom'
      exact hle

/-- Where the first bytes find no room, those behind them do not count. -/
theorem admitted_append_of_full (h : ¬ sink.Fits first.length) :
    sink.admitted (first ++ second) = sink.admitted first := by
  obtain ⟨room, hroom, hover⟩ := exists_of_not_fits h
  unfold admitted
  rw [hroom]
  exact List.take_append_of_le_length (Nat.le_of_lt hover)

/-- Where the first bytes find no room, more bytes find none either. -/
theorem not_fits_append (h : ¬ sink.Fits first.length) :
    ¬ sink.Fits (first ++ second).length := by
  intro hall
  refine h fun room hroom => ?_
  have := hall room hroom
  rw [List.length_append] at this
  omega

/-- A sink that took all for which it had room, and not all that there was, is full. -/
theorem Took.room_eq_zero (h : sink.Took (sink.admitted bytes) after)
    (hfull : ¬ sink.Fits bytes.length) : after.room = some 0 := by
  obtain ⟨room, hroom, hover⟩ := exists_of_not_fits hfull
  have hadmitted : sink.admitted bytes = bytes.take room := by
    unfold admitted
    rw [hroom]
  rw [h.room_eq, hroom, hadmitted, List.length_take, Nat.min_eq_left (Nat.le_of_lt hover)]
  show some (room - room) = some 0
  rw [Nat.sub_self]

/-- An empty sink admits the first bytes, as many as it has room for. -/
theorem admitted_of_empty (h : sink.held = #[]) (bytes : Bytes) :
    (∀ cap ∈ sink.capacity, sink.admitted bytes = bytes.take cap) ∧
      (sink.Fits bytes.length ↔ ∀ cap ∈ sink.capacity, bytes.length ≤ cap) := by
  have hroom : sink.room = sink.capacity := by
    unfold room
    rw [h]
    exact congrFun Option.map_id sink.capacity
  unfold admitted Fits
  rw [hroom]
  refine ⟨?_, Iff.rfl⟩
  intro cap hcap
  rw [hcap]

namespace Stores

variable {ε : Type} {Refused : ε → Prop} {run : Except ε Unit × Sink}

/-- More bytes behind those that were taken. -/
theorem prepend (hfits : sink.Fits first.length) (htook : sink.Took first middle)
    (h : middle.Stores Refused second run) : sink.Stores Refused (first ++ second) run := by
  cases h with
  | whole hsecond hafter => exact .whole ((htook.fits_iff hfits).1 hsecond) (htook.trans hafter)
  | torn herror hfull hafter =>
      refine .torn herror (fun hall => hfull ((htook.fits_iff hfits).2 hall)) ?_
      rw [htook.admitted_append hfits]
      exact htook.trans hafter

/-- Bytes that are not written any more behind those for which there was no room. -/
theorem append {error : ε} (h : sink.Stores Refused first (.error error, after)) (second : Bytes) :
    sink.Stores Refused (first ++ second) (.error error, after) := by
  cases h with
  | torn herror hfull htook =>
      refine .torn herror (not_fits_append hfull) ?_
      rw [admitted_append_of_full hfull]
      exact htook

end Stores

/-- A sink that takes bytes in every call takes some in this one, unless it is full. -/
theorem accept_cases {limit : Option Nat} {count : Nat} (sink : Sink)
    (hlimit : ∀ bound ∈ limit, 0 < bound) (hcount : 0 < count) :
    (sink.accept limit count = .error sink.refusal ∧ sink.room = some 0) ∨
      ∃ accepted, sink.accept limit count = .ok accepted ∧ accepted ≤ count ∧
        sink.Fits accepted := by
  unfold accept
  by_cases hfull : sink.room = some 0
  · exact .inl ⟨if_pos hfull, hfull⟩
  · rw [if_neg hfull]
    have hroom : ∀ room ∈ sink.room, 0 < room := by
      intro room hroom
      refine Nat.pos_of_ne_zero fun hzero => hfull ?_
      rw [← hzero]
      exact hroom
    have hpos := Pace.limited_pos hroom (Pace.limited_pos hlimit hcount)
    have hle := Nat.le_trans (Pace.limited_le sink.room _) (Pace.limited_le limit count)
    have hfits : sink.Fits (Pace.limited sink.room (Pace.limited limit count)) := by
      intro room hmem
      rw [hmem]
      exact Nat.min_le_left _ _
    split
    next hzero =>
      rw [hzero] at hpos
      exact absurd hpos (Nat.lt_irrefl 0)
    next => exact .inr ⟨_, rfl, hle, hfits⟩

/-- A run is taken up to its end or until the sink is full, however short the writes are. -/
theorem stores_writeRun (chunk : Chunk) (sink : Sink) (h : sink.pace.Progresses) :
    sink.Stores (· = sink.refusal) chunk.bytes (sink.writeRun chunk) := by
  fun_induction writeRun chunk sink
  case case1 chunk sink hzero =>
    have hempty : chunk.bytes = [] := by
      rw [← List.length_eq_zero_iff, Chunk.length_bytes, hzero]
    rw [hempty]
    exact .whole (fun _ _ => Nat.zero_le _) (.refl h)
  case case2 chunk sink hsize limit pace hnext fault haccept =>
    obtain ⟨hlimit, hlater⟩ := Pace.next_progresses h hnext
    rcases accept_cases { sink with pace } hlimit (Nat.pos_of_ne_zero hsize) with
      ⟨hrefused, hroom⟩ | ⟨accepted, haccepted, -⟩
    · cases haccept.symm.trans hrefused
      refine .torn rfl ?_ ?_
      · intro hfits
        have := hfits 0 hroom
        rw [Chunk.length_bytes] at this
        omega
      · rw [admitted_of_full (show sink.room = some 0 from hroom)]
        exact ⟨hlater, rfl, rfl, (List.append_nil _).symm, rfl⟩
    · cases haccept.symm.trans haccepted
  case case3 chunk sink hsize limit pace hnext count haccept hpos ih =>
    obtain ⟨hlimit, hlater⟩ := Pace.next_progresses h hnext
    rcases accept_cases { sink with pace } hlimit (Nat.pos_of_ne_zero hsize) with
      ⟨hrefused, -⟩ | ⟨accepted, haccepted, hle, hfits⟩
    · cases haccept.symm.trans hrefused
    · cases haccept.symm.trans haccepted
      have hlength : (chunk.take count).bytes.length = count := by
        rw [Chunk.bytes_take, List.length_take, Chunk.length_bytes, Nat.min_eq_left hle]
      have hparts : (chunk.take count).bytes ++ (chunk.drop count).bytes = chunk.bytes := by
        rw [Chunk.bytes_take, Chunk.bytes_drop, List.take_append_drop]
      have htook : sink.Took (chunk.take count).bytes
          { sink with
            pace
            held := sink.held ++ (chunk.take count).bytes
            position := sink.position + count } :=
        ⟨hlater, rfl, rfl, Array.toList_appendList, by rw [hlength]⟩
      rw [← hparts]
      refine .prepend ?_ htook (ih hlater)
      rw [hlength]
      exact hfits

/-- Zeros are stored in full, or up to where the sink is full. -/
theorem stores_zeroFill (count : Nat) (sink : Sink) (h : sink.pace.Progresses) :
    sink.Stores (· = sink.refusal) (Chunk.zeros count).bytes (sink.zeroFill count) := by
  have hparts {count : Nat} (hcount : count ≠ 0) :
      (Chunk.zeros (min count scratchSize)).bytes ++
        (Chunk.zeros (count - min count scratchSize)).bytes = (Chunk.zeros count).bytes := by
    rw [Chunk.zeros_append]
    congr 2
    omega
  fun_induction zeroFill count sink
  case case1 => exact .whole (fun _ _ => Nat.zero_le _) (.refl h)
  case case2 count sink hcount fault after hrun =>
    have hfirst := stores_writeRun (.zeros (min count scratchSize)) sink h
    rw [hrun] at hfirst
    rw [← hparts hcount]
    exact hfirst.append _
  case case3 count sink hcount middle hrun ih =>
    have hfirst := stores_writeRun (.zeros (min count scratchSize)) sink h
    rw [hrun] at hfirst
    cases hfirst with
    | whole hfits htook =>
        have hrest := ih htook.progresses
        rw [htook.refusal_eq] at hrest
        rw [← hparts hcount]
        exact hrest.prepend hfits htook

/-- A chunk is stored in full, or up to where the sink is full. -/
theorem stores_write (chunk : Chunk) (sink : Sink) (h : sink.pace.Progresses) :
    sink.Stores (· = sink.refusal) chunk.bytes (sink.write chunk) := by
  cases chunk with
  | data content => exact stores_writeRun (.data content) sink h
  | zeros count => exact stores_zeroFill count sink h

/-- The error is that the sink refused a write. -/
def IsRefusal (refusal : TransferFault) (error : Error) : Prop :=
  ∃ path, error = .located path (.transfer refusal)

/-- Writes are carried out up to the last one or until the sink is full. -/
theorem stores_absorb (writes : List Write) (sink : Sink) (h : sink.pace.Progresses) :
    sink.Stores (IsRefusal sink.refusal) (writes.flatMap (·.chunk.bytes)) (sink.absorb writes) := by
  induction writes generalizing sink with
  | nil => exact .whole (fun _ _ => Nat.zero_le _) (.refl h)
  | cons write writes ih =>
      have hfirst := stores_write write.chunk sink h
      rw [List.flatMap_cons, absorb]
      split
      next fault after hwrite =>
        rw [hwrite] at hfirst
        cases hfirst with
        | torn hfault hfull htook =>
            refine Stores.append (.torn ⟨write.path, ?_⟩ hfull htook) _
            rw [hfault]
      next middle hwrite =>
        rw [hwrite] at hfirst
        cases hfirst with
        | whole hfits htook =>
            have hrest := ih middle htook.progresses
            rw [htook.refusal_eq] at hrest
            exact hrest.prepend hfits htook

end Sink

namespace Encoder

/-- The bytes that the sink holds. -/
def output (encoder : Encoder) : Bytes := encoder.sink.held.toList

/-- Encodes values as their tags say, one after the other. -/
def encodeEachAs (encoder : Encoder) : List (Tag × Value) → List (Except Error Nat) × Encoder
  | [] => ([], encoder)
  | (tag, value) :: calls =>
      let (outcome, encoder) := encoder.encodeAs tag value
      let (outcomes, encoder) := encoder.encodeEachAs calls
      (outcome :: outcomes, encoder)

/-- Carries out emissions, one after the other. -/
def runEach {α : Type} (encoder : Encoder) : List (Emission α) → List (Except Error α) × Encoder
  | [] => ([], encoder)
  | emission :: emissions =>
      let (outcome, encoder) := encoder.run emission
      let (outcomes, encoder) := encoder.runEach emissions
      (outcome :: outcomes, encoder)

/-- Carrying out an emission leaves the settings as they are. -/
theorem settings_run {α : Type} (encoder : Encoder) (emission : Emission α) :
    (encoder.run emission).2.settings = encoder.settings := by
  unfold run
  split <;> rfl

/-- What the calls emit. It depends on the settings only, not on what becomes of it. -/
def emissions (settings : Settings) (calls : List (Tag × Value)) : List (Emission Nat) :=
  calls.map fun call => (encodeTagged settings call.1 call.2).sized

/-- Encoding values one after the other carries out what the calls emit. -/
theorem encodeEachAs_eq_runEach (encoder : Encoder) (calls : List (Tag × Value)) :
    encoder.encodeEachAs calls = encoder.runEach (emissions encoder.settings calls) := by
  induction calls generalizing encoder with
  | nil => rfl
  | cons call calls ih =>
      have hrest := ih (encoder.encodeAs call.1 call.2).2
      rw [encodeAs, settings_run] at hrest
      simp only [encodeEachAs, encodeAs, emissions, List.map_cons, runEach, hrest]

/-- A call that succeeds without hindrance leaves the bytes of its emission. -/
theorem yields_of_encodeAt {settings : Settings} {path : Path} {record : Option Record}
    {tag : Tag} {value : Value} {count : Nat} {after : Encoder}
    (h : (Encoder.mk settings .unbounded).encodeAt path record tag value = (.ok count, after)) :
    (PackedRecord.encodeAt settings path record tag value).Yields after.output () ∧
      after.output.length = count := by
  simp only [encodeAt, run, Sink.unbounded, Sink.absorb_willing, Emission.sized] at h
  cases houtcome : (PackedRecord.encodeAt settings path record tag value).outcome with
  | error error =>
      rw [houtcome] at h
      cases h
  | ok result =>
      rw [houtcome] at h
      obtain ⟨hcount, rfl⟩ := Prod.mk.inj h
      have houtput : Encoder.output ⟨settings, .willing (#[] ++
          (PackedRecord.encodeAt settings path record tag value).bytes)⟩ =
            (PackedRecord.encodeAt settings path record tag value).bytes :=
        Array.toList_appendList.trans (List.nil_append _)
      have hyields : (PackedRecord.encodeAt settings path record tag value).Yields
          (PackedRecord.encodeAt settings path record tag value).bytes () := ⟨houtcome, rfl⟩
      show Emission.Yields _ (Encoder.output ⟨settings, .willing (#[] ++ Emission.bytes _)⟩) _ ∧
        (Encoder.output ⟨settings, .willing (#[] ++ Emission.bytes _)⟩).length = _
      rw [houtput]
      exact ⟨hyields, (Emission.size_of_yields hyields).symm.trans (Except.ok.inj hcount)⟩

/-- A sink without hindrance takes all emissions and gives the results of each. -/
theorem runEach_willing {α : Type} (settings : Settings) (emissions : List (Emission α))
    (held : Array UInt8) :
    (Encoder.mk settings (.willing held)).runEach emissions =
      (emissions.map (·.outcome),
        ⟨settings, .willing (held ++ emissions.flatMap (·.bytes))⟩) := by
  induction emissions generalizing held with
  | nil => simp [runEach]
  | cons emission emissions ih =>
      have hheld : held ++ emission.bytes ++ emissions.flatMap (·.bytes) =
          held ++ (emission :: emissions).flatMap (·.bytes) := Array.toList_inj.1 (by simp)
      simp only [runEach, run, Sink.absorb_willing]
      rw [← hheld]
      exact congrArg (fun rest => (emission.outcome :: rest.1, rest.2)) (ih _)

/-- The results of emissions to a sink: all of them are taken, or the sink becomes full in one. -/
inductive Results {α : Type} (sink : Sink) :
    List (Emission α) → List (Except Error α) → Prop where
  | all {emissions : List (Emission α)} (hfits : sink.Fits (emissions.flatMap (·.bytes)).length) :
      Results sink emissions (emissions.map (·.outcome))
  | upTo (before : List (Emission α)) (torn : Emission α) (behind : List (Emission α))
      {error : Error} {others : List (Except Error α)} (herror : Sink.IsRefusal sink.refusal error)
      (hfits : sink.Fits (before.flatMap (·.bytes)).length)
      (hfull : ¬ sink.Fits ((before ++ [torn]).flatMap (·.bytes)).length) :
      Results sink (before ++ torn :: behind) (before.map (·.outcome) ++ .error error :: others)

/-- An emission that finds room comes in front of the results of those behind it. -/
theorem Results.cons {α : Type} {sink middle : Sink} {emission : Emission α}
    {emissions : List (Emission α)} {results : List (Except Error α)}
    (hfits : sink.Fits emission.bytes.length) (htook : sink.Took emission.bytes middle)
    (h : Results middle emissions results) :
    Results sink (emission :: emissions) (emission.outcome :: results) := by
  cases h with
  | all hrest => exact .all ((htook.fits_iff hfits).1 hrest)
  | upTo before torn behind herror hbefore hfull =>
      rw [htook.refusal_eq] at herror
      exact .upTo (emission :: before) torn behind herror ((htook.fits_iff hfits).1 hbefore)
        fun hall => hfull ((htook.fits_iff hfits).2 hall)

/-- If there is room for everything, nothing is refused. -/
theorem Results.eq_of_fits {α : Type} {sink : Sink} {emissions : List (Emission α)}
    {results : List (Except Error α)} (h : Results sink emissions results)
    (hfits : sink.Fits (emissions.flatMap (·.bytes)).length) :
    results = emissions.map (·.outcome) := by
  cases h with
  | all => rfl
  | upTo before torn behind _ _ hfull =>
      rw [← List.singleton_append, ← List.append_assoc, List.flatMap_append] at hfits
      exact absurd hfits (Sink.not_fits_append hfull)

/-- If there is not, the sink becomes full in one of the emissions. -/
theorem Results.exists_of_full {α : Type} {sink : Sink} {emissions : List (Emission α)}
    {results : List (Except Error α)} (h : Results sink emissions results)
    (hfull : ¬ sink.Fits (emissions.flatMap (·.bytes)).length) :
    ∃ before torn behind path others, emissions = before ++ torn :: behind ∧
      sink.Fits (before.flatMap (·.bytes)).length ∧
      ¬ sink.Fits ((before ++ [torn]).flatMap (·.bytes)).length ∧
      results =
        before.map (·.outcome) ++ .error (.located path (.transfer sink.refusal)) :: others := by
  cases h with
  | all hfits => exact absurd hfits hfull
  | upTo before torn behind herror hfits hover =>
      obtain ⟨path, rfl⟩ := herror
      exact ⟨before, torn, behind, path, _, rfl, hfits, hover, rfl⟩

/-- Emissions are carried out up to the end of the last one or until the sink is full. After that,
it takes nothing any more. -/
theorem results_runEach {α : Type} (settings : Settings) (emissions : List (Emission α))
    (sink : Sink) (h : sink.pace.Progresses) :
    Results sink emissions ((Encoder.mk settings sink).runEach emissions).1 ∧
      sink.Took (sink.admitted (emissions.flatMap (·.bytes)))
        ((Encoder.mk settings sink).runEach emissions).2.sink := by
  induction emissions generalizing sink with
  | nil =>
      have hfits : sink.Fits ([] : Bytes).length := fun _ _ => Nat.zero_le _
      refine ⟨.all hfits, ?_⟩
      show sink.Took (sink.admitted []) sink
      rw [Sink.admitted_of_fits hfits]
      exact .refl h
  | cons emission emissions ih =>
      have hfirst : sink.Stores (Sink.IsRefusal sink.refusal) emission.bytes
          (sink.absorb emission.writes) := Sink.stores_absorb emission.writes sink h
      simp only [runEach, run, List.flatMap_cons]
      generalize sink.absorb emission.writes = absorbed at hfirst
      cases hfirst with
      | @whole middle hfits htook =>
          obtain ⟨hresults, hafter⟩ := ih middle htook.progresses
          refine ⟨hresults.cons hfits htook, ?_⟩
          rw [htook.admitted_append hfits]
          exact htook.trans hafter
      | @torn error middle herror hfull htook =>
          obtain ⟨-, hafter⟩ := ih middle htook.progresses
          rw [Sink.admitted_of_full (htook.room_eq_zero hfull)] at hafter
          refine ⟨.upTo [] emission emissions herror (fun _ _ => Nat.zero_le _) ?_, ?_⟩
          · rw [List.nil_append, List.flatMap_singleton]
            exact hfull
          · rw [Sink.admitted_append_of_full hfull]
            have hboth := htook.trans hafter
            rwa [List.append_nil] at hboth

/-- An empty sink without hindrance ends up with the bytes of all calls. -/
theorem encodeEachAs_unbounded (settings : Settings) (calls : List (Tag × Value)) :
    ((Encoder.mk settings .unbounded).encodeEachAs calls).1 =
        (emissions settings calls).map (·.outcome) ∧
      ((Encoder.mk settings .unbounded).encodeEachAs calls).2.output =
        (emissions settings calls).flatMap (·.bytes) := by
  rw [encodeEachAs_eq_runEach, Sink.unbounded, runEach_willing]
  exact ⟨rfl, Array.toList_appendList.trans (List.nil_append _)⟩

/-- The size that an emission reports is the distance by which it moves the position of a sink. -/
theorem position_of_encodeAs {encoder after : Encoder} {tag : Tag} {value : Value} {count : Nat}
    (h : encoder.sink.pace.Progresses) (hok : encoder.encodeAs tag value = (.ok count, after)) :
    after.position = encoder.position + count := by
  have hstores := Sink.stores_absorb (encodeTagged encoder.settings tag value).writes encoder.sink h
  unfold encodeAs run Emission.sized at hok
  generalize Sink.absorb _ encoder.sink = absorbed at hok hstores
  cases hstores with
  | torn => cases hok
  | @whole middle hfits htook =>
      obtain ⟨houtcome, rfl⟩ := Prod.mk.inj hok
      cases hresult : (encodeTagged encoder.settings tag value).outcome with
      | error => rw [hresult] at houtcome; cases houtcome
      | ok =>
          rw [hresult] at houtcome
          cases houtcome
          rw [Emission.size_of_yields ⟨hresult, rfl⟩]
          exact htook.position_eq

/-- Short writes do not change what is encoded. A sink of which every call takes some bytes, or is
interrupted, counts the bytes that it holds. If all fit into it, it holds what a sink without
hindrance would, and all results are the same. Otherwise it holds the first of these bytes, as many
as it can, and the call that would need more fails, behind calls with the same results. -/
theorem encodeEachAs_short_writes {pace : Pace} (hpace : pace.Progresses) (settings : Settings)
    (capacity : Option Nat) (refusal : TransferFault) (flushFault : Option TransferFault)
    (calls : List (Tag × Value)) :
    let hindered : Encoder := ⟨settings, ⟨pace, capacity, refusal, flushFault, #[], 0⟩⟩
    let free : Encoder := ⟨settings, .unbounded⟩
    (∀ count,
      (hindered.encodeEachAs (calls.take count)).2.position =
        (hindered.encodeEachAs (calls.take count)).2.output.length) ∧
    ((∀ cap ∈ capacity, (free.encodeEachAs calls).2.output.length ≤ cap) →
      (hindered.encodeEachAs calls).1 = (free.encodeEachAs calls).1 ∧
      (hindered.encodeEachAs calls).2.output = (free.encodeEachAs calls).2.output) ∧
    ∀ cap ∈ capacity, cap < (free.encodeEachAs calls).2.output.length →
      (hindered.encodeEachAs calls).2.output = (free.encodeEachAs calls).2.output.take cap ∧
      ∃ before call behind path others,
        calls = before ++ call :: behind ∧
        (free.encodeEachAs before).2.output.length ≤ cap ∧
        cap < (free.encodeEachAs (before ++ [call])).2.output.length ∧
        (hindered.encodeEachAs calls).1 =
          (free.encodeEachAs before).1 ++ .error (.located path (.transfer refusal)) :: others := by
  intro hindered free
  have hheld : hindered.sink.held = #[] := rfl
  have hrun (calls : List (Tag × Value)) :
      Results hindered.sink (emissions settings calls) (hindered.encodeEachAs calls).1 ∧
        hindered.sink.Took (hindered.sink.admitted ((emissions settings calls).flatMap (·.bytes)))
          (hindered.encodeEachAs calls).2.sink := by
    rw [encodeEachAs_eq_runEach]
    exact results_runEach settings _ _ hpace
  have hfree (calls : List (Tag × Value)) := encodeEachAs_unbounded settings calls
  obtain ⟨hresults, htook⟩ := hrun calls
  refine ⟨?_, ?_, ?_⟩
  · intro count
    exact (hrun (calls.take count)).2.counted rfl
  · intro hcap
    rw [(hfree calls).2] at hcap ⊢
    have hfits := (Sink.admitted_of_empty hheld _).2.2 hcap
    rw [Sink.admitted_of_fits hfits] at htook
    exact ⟨(hresults.eq_of_fits hfits).trans (hfree calls).1.symm, htook.held_eq⟩
  · intro cap hcap hover
    rw [(hfree calls).2] at hover ⊢
    refine ⟨htook.held_eq.trans ((Sink.admitted_of_empty hheld _).1 cap hcap), ?_⟩
    have hiff (bytes : Bytes) : hindered.sink.Fits bytes.length ↔ bytes.length ≤ cap := by
      rw [(Sink.admitted_of_empty hheld bytes).2]
      refine ⟨fun hall => hall cap hcap, fun hle cap' hcap' => ?_⟩
      cases hcap.symm.trans hcap'
      exact hle
    have hfull : ¬ hindered.sink.Fits ((emissions settings calls).flatMap (·.bytes)).length :=
      fun hfits => Nat.not_le.2 hover ((hiff _).1 hfits)
    obtain ⟨before, torn, behind, path, others, hemissions, hfits, hover', hends⟩ :=
      hresults.exists_of_full hfull
    obtain ⟨front, rest, rfl, rfl, hrest⟩ := List.map_eq_append_iff.1 hemissions
    obtain ⟨call, back, rfl, rfl, -⟩ := List.map_eq_cons_iff.1 hrest
    refine ⟨front, call, back, path, others, rfl, ?_, ?_, ?_⟩
    · rw [(hfree front).2]
      exact (hiff _).1 hfits
    · rw [(hfree (front ++ [call])).2]
      refine Nat.not_le.1 fun hle => hover' ((hiff _).2 ?_)
      simpa [emissions] using hle
    · rw [(hfree front).1]
      exact hends

/-- A pace with interruptions and short calls. -/
def dripping : Pace := ⟨[.interrupted, .atMost 1, .interrupted], some 3⟩

/-- The dripping pace moves bytes in every call that it does not interrupt. -/
theorem dripping_progresses : dripping.Progresses where
  script_pos := by
    intro limit hlimit
    have hone : limit = 1 := by simpa [dripping] using hlimit
    rw [hone]
    exact Nat.one_pos
  chunk_pos := by
    intro limit hlimit
    cases hlimit
    exact Nat.succ_pos 2

/-- Two texts, of which a sink with room for seven bytes takes the second one in part. -/
theorem encodeEachAs_short_writes_texts :
    let hindered : Encoder :=
      ⟨⟨.bigEndian, {}, .empty⟩, ⟨dripping, some 7, .device "full", none, #[], 0⟩⟩
    let calls : List (Tag × Value) := [(.empty, .text "salt"), (.empty, .text "pepper")]
    dripping.Progresses ∧
    (hindered.encodeEachAs calls).2.output = [115, 97, 108, 116, 112, 101, 112] ∧
    (hindered.encodeEachAs calls).2.position = 7 := by
  intro hindered calls
  have hwritten : ((Encoder.mk hindered.settings .unbounded).encodeEachAs calls).2.output =
      [115, 97, 108, 116, 112, 101, 112, 112, 101, 114] := by cbv
  obtain ⟨hposition, -, htorn⟩ := encodeEachAs_short_writes dripping_progresses hindered.settings
    (some 7) (.device "full") none calls
  have htaken := (htorn 7 rfl (by rw [hwritten]; decide)).1
  rw [hwritten] at htaken
  have hcounted := hposition 2
  rw [show calls.take 2 = calls from rfl, htaken] at hcounted
  exact ⟨dripping_progresses, htaken, hcounted⟩

end Encoder

end PackedRecord
