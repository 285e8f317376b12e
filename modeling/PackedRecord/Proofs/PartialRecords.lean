import PackedRecord.Proofs.Frame

/-!
# Records that are decoded in part

A record is decoded field by field. `Decoder.frame_of_decode` says what it looks like afterwards,
whether decoding came to its end or not: fields that are not coded are untouched at every depth, the
fields in front of the one that stopped the decoding hold what was decoded for them, those behind it
are untouched, and so is that one itself if it is decoded at once.
-/

namespace PackedRecord

open Intake

section fields

variable {child : Option ChildDecoder} {path : Path} {layout : Layout} {boundary index : Nat}
  {source source' : Source} {values result : List Value}

/-- Fields in two parts are decoded one part after the other. -/
theorem decodeFields_append (child : Option ChildDecoder) (path : Path) (layout : Layout)
    (index : Nat) (first second : List FieldLayout) (values : List Value) :
    decodeFields child path layout index (first ++ second) values =
      decodeFields child path layout index first values >>=
        decodeFields child path layout (index + first.length) second := by
  induction first generalizing index values with
  | nil => rfl
  | cons field first ih =>
      simp only [List.cons_append, decodeFields, ih, bind_assoc, List.length_cons]
      rw [Nat.add_right_comm, Nat.add_assoc]

/-- The turn of the field at `index`, when the fields of a record are decoded from a source: those
in front of it have been decoded. -/
structure FieldTurn (child : Option ChildDecoder) (path : Path) (layout : Layout) (boundary : Nat)
    (source : Source) (values : List Value) (index : Nat) where
  field : FieldLayout
  /-- The values of the fields by now. -/
  half : List Value
  /-- What is left of the source. -/
  rest : Source
  field_eq : layout.fields[index]? = some field
  supply_eq : source.supply boundary
    (decodeFields child path layout 0 (layout.fields.take index) values) = (.ok half, rest)

namespace FieldTurn

/-- How the decoding of the field ends. -/
def run (turn : FieldTurn child path layout boundary source values index) :
    Except (Error × List Value) (List Value) × Source :=
  turn.rest.supply boundary (decodeField child path ⟨layout, turn.half⟩ index turn.field)

/-- Behind a field that is decoded, it is the turn of the next one. -/
theorem supply_succ (turn : FieldTurn child path layout boundary source values index)
    (hrun : turn.run = (.ok result, source')) :
    source.supply boundary (decodeFields child path layout 0 (layout.fields.take (index + 1))
      values) = (.ok result, source') := by
  have hlength : (layout.fields.take index).length = index := by
    obtain ⟨hinside, -⟩ := List.getElem?_eq_some_iff.1 turn.field_eq
    rw [List.length_take]
    omega
  rw [List.take_add_one, turn.field_eq, Option.toList_some, decodeFields_append,
    Source.supply_bind, turn.supply_eq, hlength, Nat.zero_add]
  simp only [decodeFields]
  rw [Source.supply_bind]
  unfold run at hrun
  rw [hrun]
  rfl

/-- Fields whose turn has not come yet are untouched. -/
theorem half_getElem? (turn : FieldTurn child path layout boundary source values index)
    {position : Nat} (hposition : index ≤ position) :
    turn.half[position]? = values[position]? := by
  obtain ⟨bytes, -, haccepts⟩ := Source.accepts_of_supply_ok turn.supply_eq
  refine getElem?_of_accepts_decodeFields (List.take_prefix _ _) haccepts (.inr (.inl ?_))
  rw [List.length_take]
  omega

/-- Every field in front has had its turn, and keeps what was decoded for it. -/
theorem exists_earlier (turn : FieldTurn child path layout boundary source values index)
    {earlier : Nat} (hearlier : earlier < index) :
    ∃ (before : FieldTurn child path layout boundary source values earlier) (after : List Value)
      (rest : Source), before.run = (.ok after, rest) ∧
        turn.half[earlier]? = after[earlier]? := by
  obtain ⟨count, rfl⟩ : ∃ count, index = earlier + (count + 1) :=
    ⟨index - (earlier + 1), by omega⟩
  obtain ⟨hbehind, -⟩ := List.getElem?_eq_some_iff.1 turn.field_eq
  have hinside : earlier < layout.fields.length := by omega
  have hlength : (layout.fields.take earlier).length = earlier := by
    rw [List.length_take]
    omega
  have hsplit : layout.fields.take (earlier + (count + 1)) = layout.fields.take earlier ++
      layout.fields[earlier] :: (layout.fields.drop (earlier + 1)).take count := by
    rw [List.take_add, List.drop_eq_getElem_cons hinside, List.take_succ_cons]
  have hrun := turn.supply_eq
  rw [hsplit, decodeFields_append, Source.supply_bind, hlength, Nat.zero_add] at hrun
  split at hrun
  next half rest hfront =>
    rw [decodeFields, Source.supply_bind] at hrun
    split at hrun
    next after rest' hown =>
      obtain ⟨bytes, -, haccepts⟩ := Source.accepts_of_supply_ok hrun
      exact ⟨⟨_, half, rest, List.getElem?_eq_getElem hinside, hfront⟩, after, rest', hown,
        getElem?_of_accepts_decodeFields (List.take_prefix _ _) haccepts
          (.inl (Nat.lt_succ_self earlier))⟩
    next => cases hrun
  next => cases hrun

end FieldTurn

/-- A field stops the decoding of the fields of a record if that ends with an error. -/
theorem exists_turn_of_error {stop : Error × List Value}
    (h : source.supply boundary (decodeFields child path layout 0 layout.fields values) =
      (.error stop, source')) :
    ∃ index, ∃ turn : FieldTurn child path layout boundary source values index,
      turn.run = (.error stop, source') := by
  have hrun (rest : List FieldLayout) (index : Nat) (half : List Value) (left : Source)
      (hrest : layout.fields.drop index = rest)
      (hfront : source.supply boundary (decodeFields child path layout 0
        (layout.fields.take index) values) = (.ok half, left))
      (hback : left.supply boundary (decodeFields child path layout index rest half) =
        (.error stop, source')) :
      ∃ index, ∃ turn : FieldTurn child path layout boundary source values index,
        turn.run = (.error stop, source') := by
    induction rest generalizing index half left with
    | nil => cases hback
    | cons field rest ih =>
        obtain ⟨hfield, hlater⟩ := Layout.fields_of_drop hrest
        let turn : FieldTurn child path layout boundary source values index :=
          ⟨field, half, left, hfield, hfront⟩
        rw [decodeFields, Source.supply_bind] at hback
        split at hback
        next half' left' hown =>
          exact ih (index + 1) half' left' hlater (turn.supply_succ hown) hback
        next stop' left' hown =>
          cases hback
          exact ⟨index, turn, hown⟩
  exact hrun layout.fields 0 values source List.drop_zero rfl h

end fields

section stays

variable {schema : Schema} {settings : Settings} {child : Option ChildDecoder} {path : Path}
  {plan : Plan} {value : Value} {α β : Type}

/-- An error leaves the value as it is. -/
def Intake.Retracts (value : β) (intake : Intake β α) : Prop :=
  intake.Ensures (fun _ _ left => left = value) fun _ _ => True

/-- Two steps leave a value as it is if errors of both do. -/
theorem retracts_leaving_bind {γ δ : Type} {left : β} (intake : Intake γ δ)
    {following : δ → Intake β α} (hnext : ∀ result, (following result).Retracts left) :
    (Intake.leaving left intake >>= following).Retracts left := by
  have hread : (Intake.leaving left intake).Ensures (fun _ _ kept => kept = left)
      fun _ _ => True :=
    ensures_bimap.2 (intake.ensures_accepts.mono (fun _ _ _ _ => rfl) fun _ _ _ => trivial)
  exact Ensures.bind hread fun _ result _ => hnext result

/-- A text that cannot be read leaves its destination as it is. -/
theorem retracts_putText (intake : Intake Unit String) :
    (putText path value intake).Retracts value := by
  refine retracts_leaving_bind intake ?_
  intro text
  split
  next => exact rfl
  next => trivial

/-- The tag codes the value at once: as a scalar, as a string, or as a string in an array of
numbers. -/
def Tag.CodesAtOnce (tag : Tag) (value : Value) : Prop :=
  (value.form = .scalar ∨ value.form = .text) ∧ tag.brackets = .absent ∨
    value.form = .text ∧ tag.brackets ≠ .absent ∧
      ∃ wire, tag.wire = some wire ∧ wire.isNumeric = true

/-- The plan decodes a value at once, if at all. -/
structure Plan.IsAtOnce (plan : Plan) (value : Value) : Prop where
  indirection_eq : plan.indirection = 0
  form : value.form = .scalar ∨ value.form = .text
  numbers : plan.isArray = true → value.form = .text ∧ plan.wire.isNumeric = true

/-- Scalars and strings are no arrays and do not stand behind references. -/
theorem Value.natural_of_form (h : value.form = .scalar ∨ value.form = .text) :
    value.natural.isArray = false ∧ value.natural.indirection = 0 ∧ value.natural.wire ≠ none := by
  rw [← value.natural_target]
  unfold form at h
  cases htarget : value.target <;> simp_all [natural, Natural.single]

/-- A value that its tag codes at once has a plan that decodes it at once. -/
theorem Plan.isAtOnce_of_resolve {tag : Tag} {record : Option Record}
    (hcodes : tag.CodesAtOnce value) (h : Plan.resolve path value tag record = .ok plan) :
    plan.IsAtOnce value := by
  obtain ⟨hwire, harray, -, hindirection, -⟩ := Plan.parts_of_resolve h
  have hform : value.form = .scalar ∨ value.form = .text :=
    hcodes.elim And.left fun h => .inr h.1
  obtain ⟨hsingle, hdirect, hcoded⟩ := value.natural_of_form hform
  refine ⟨hindirection.trans hdirect, hform, ?_⟩
  intro hisArray
  rcases hcodes with ⟨-, hbrackets⟩ | ⟨htext, -, wire, htagged, hnumeric⟩
  · rw [hbrackets, resolveArray, hsingle] at harray
    cases (congrArg Prod.fst (Except.ok.inj harray)).trans hisArray
  · refine ⟨htext, ?_⟩
    obtain ⟨natural, hnatural⟩ := Option.ne_none_iff_exists'.1 hcoded
    unfold resolveWire at hwire
    rw [htagged, hnatural] at hwire
    have hsame : wire = plan.wire := by
      cases wire with
      | pad => cases hnumeric
      | ignore => cases hnumeric
      | _ => exact Except.ok.inj hwire
    rw [← hsame, hnumeric]

/-- A value that is decoded at once is left as it is by every error. -/
theorem retracts_decodeWith (hplan : plan.IsAtOnce value) :
    (decodeWith schema settings child path value plan).Retracts value := by
  have hform := hplan.form
  unfold Value.form at hform
  unfold decodeWith
  split
  next => trivial
  next => exact retracts_leaving_bind _ fun _ => trivial
  next =>
    rw [hplan.indirection_eq, decodeBehind]
    split
    next harray =>
      obtain ⟨htext, hnumeric⟩ := hplan.numbers harray
      unfold Value.form at htext
      unfold decodeArray
      rw [hnumeric]
      split
      next => exact rfl
      next htarget => simp [htarget] at htext
      next => exact retracts_putText _
      next => exact retracts_putText _
      next => cases htarget : value.target <;> simp_all
    next =>
      unfold decodeLeaf
      simp only
      split
      next => exact rfl
      next =>
        split
        next htarget => simp [htarget] at hform
        next =>
          split
          next => exact retracts_putText _
          next => exact rfl
        next =>
          split
          next => exact retracts_leaving_bind _ fun _ => trivial
          next => exact rfl
        next => exact rfl

end stays

section run

variable {schema : Schema} {settings : Settings} {room : Nat} {path : Path} {layout : Layout}
  {boundary index : Nat} {source source' : Source} {values fields : List Value} {error : Error}

/-- However much room there is, what is decoded one step further down spares its destination. -/
theorem childSpares_below (schema : Schema) (settings : Settings) (room : Nat) :
    ChildSpares (decodeBelow schema settings room) := by
  cases room with
  | zero => exact nofun
  | succ room =>
      intro decode hdecode path value plan
      cases hdecode
      exact framed_decodeIn schema settings room path value plan

/-- An error in a field that is decoded at once leaves the record as it is. -/
theorem retracts_decodeField {field : FieldLayout} {value : Value}
    (hvalue : fields[index]? = some value)
    (hcodes : ∀ tag, field.tag = .ok tag → tag.CodesAtOnce value) :
    (decodeField (decodeBelow schema settings room) path ⟨layout, fields⟩ index field).Retracts
      fields := by
  unfold decodeField
  split
  next => trivial
  next =>
    cases room with
    | zero => exact rfl
    | succ room =>
        simp only [decodeBelow]
        split
        next => exact rfl
        next tag htag =>
          split
          next => trivial
          next =>
            simp only [Record.field, hvalue]
            split
            next => exact rfl
            next plan hplan =>
              have hretracts : (decodeWith schema settings (decodeBelow schema settings room)
                  (.field field.name :: path) value plan).Retracts value :=
                retracts_decodeWith (Plan.isAtOnce_of_resolve (hcodes tag htag) hplan)
              rw [← decodeIn_eq] at hretracts
              refine ensures_bimap.2 (hretracts.mono ?_ fun _ _ h => h)
              intro _ _ left hleft
              obtain ⟨hinside, hat⟩ := List.getElem?_eq_some_iff.1 hvalue
              rw [hleft, ← hat, List.set_getElem_self hinside]

namespace FieldTurn

variable (turn : FieldTurn (decodeBelow schema settings room) path layout boundary source values
  index)
include turn

/-- An error in a field leaves the other ones as they are. -/
theorem getElem?_of_error (hrun : turn.run = (.error (error, fields), source')) {position : Nat}
    (hposition : position ≠ index) : fields[position]? = turn.half[position]? := by
  have hspares := childSpares_below schema settings room
  obtain ⟨taken, -, hleft⟩ := Source.supply_of_ensures
    (frames_decodeField hspares turn.field_eq turn.half) boundary turn.rest
  unfold run at hrun
  rw [hrun] at hleft
  exact hleft.2 position hposition

/-- An error in a field that is decoded at once leaves that as it is as well. -/
theorem getElem?_of_error_at_once {value : Value}
    (hrun : turn.run = (.error (error, fields), source')) (hvalue : values[index]? = some value)
    (hcodes : ∀ tag, turn.field.tag = .ok tag → tag.CodesAtOnce value) :
    fields[index]? = some value := by
  rw [← turn.half_getElem? (Nat.le_refl index)] at hvalue
  obtain ⟨taken, -, hleft⟩ :=
    Source.supply_of_ensures (retracts_decodeField hvalue hcodes) boundary turn.rest
  unfold run at hrun
  rw [hrun] at hleft
  rw [hleft, hvalue]

end FieldTurn

/-- What a decoder leaves of a record is what the decoding of its fields leaves. -/
theorem Decoder.decode_record (decoder : Decoder) (layout : Layout) (values : List Value) :
    (decoder.decode (.record layout values)).1 =
      match decoder.source.supply decoder.position
        (decodeFields (decodeBelow decoder.schema decoder.settings
          (decoder.settings.limits.room .top)) .top layout 0 layout.fields values) with
      | (.ok fields, source) =>
          ⟨.record layout fields, .ok (source.position - decoder.position)⟩
      | (.error (error, fields), _) => ⟨.record layout fields, .error error⟩ := by
  simp only [decode, decodeAs, decodeTagged_record, Intake.within, Source.supply_bimap]
  generalize decoder.source.supply decoder.position _ = run
  obtain ⟨outcome, source⟩ := run
  cases outcome <;> rfl

end run

/-- Decoding into a record leaves the record and every record that can be reached in it in place,
with the same private, ignored and padding fields. If it stops with an error, it does so in one of
the fields: those in front of it hold what was decoded for them when it was their turn, and those
behind it are untouched. So is the field itself if it is a scalar or a string that is not tagged as
an array, or a string in an array of numbers. -/
theorem Decoder.frame_of_decode (decoder : Decoder) (layout : Layout) (values : List Value) :
    let child := decodeBelow decoder.schema decoder.settings (decoder.settings.limits.room .top)
    let Turn := FieldTurn child .top layout decoder.position decoder.source values
    let decoded := (decoder.decode (.record layout values)).1
    ∃ fields, decoded.value = .record layout fields ∧
      (Value.record layout values).Framed (.record layout fields) ∧
      ∀ error, decoded.outcome = .error error →
        ∃ (index : Nat) (turn : Turn index), turn.run.1 = .error (error, fields) ∧
          (∀ later, index < later → fields[later]? = values[later]?) ∧
          (∀ earlier < index, ∃ (before : Turn earlier) (after : List Value),
            before.run.1 = .ok after ∧ fields[earlier]? = after[earlier]?) ∧
          ∀ value, values[index]? = some value →
            (∀ tag, turn.field.tag = .ok tag → tag.CodesAtOnce value) →
            fields[index]? = some value := by
  intro child Turn decoded
  have hframes : (decodeFields child .top layout 0 layout.fields values).Leaves
      (layout.Frames values) := frames_decodeFields (childSpares_below _ _ _) List.drop_zero values
  obtain ⟨taken, -, hleaves⟩ := Source.supply_of_ensures hframes decoder.position decoder.source
  have hdecoded : decoded = _ := decoder.decode_record layout values
  rw [hdecoded]
  split
  next fields source hrun =>
    rw [hrun] at hleaves
    exact ⟨fields, rfl, hleaves.record, nofun⟩
  next stop fields source hrun =>
    rw [hrun] at hleaves
    refine ⟨fields, rfl, hleaves.record, ?_⟩
    intro error herror
    cases herror
    obtain ⟨index, turn, hstop⟩ := exists_turn_of_error hrun
    refine ⟨index, turn, congrArg Prod.fst hstop, ?_, ?_, ?_⟩
    · intro later hlater
      rw [turn.getElem?_of_error hstop (Nat.ne_of_gt hlater),
        turn.half_getElem? (Nat.le_of_lt hlater)]
    · intro earlier hearlier
      obtain ⟨before, after, rest, hafter, hkept⟩ := turn.exists_earlier hearlier
      refine ⟨before, after, congrArg Prod.fst hafter, ?_⟩
      rw [turn.getElem?_of_error hstop (Nat.ne_of_lt hearlier), hkept]
    · intro value hvalue hcodes
      exact turn.getElem?_of_error_at_once hstop hvalue hcodes

/-- A scalar that is tagged as an array keeps its first element when the second one is missing. -/
example :
    ((Decoder.mk [] ⟨.bigEndian, {}, .empty⟩ (.ofData [7]) 0).decode
      (.record (.build "Pair" [⟨"value", "[2]uint8", true⟩]) [.ofByte 0])).1.value =
      .record (.build "Pair" [⟨"value", "[2]uint8", true⟩]) [.ofByte 7] := by cbv

section pallets

/-- A record type with a private field, padding and a mark. -/
def cartonLayout : Layout :=
  .build "Carton" [⟨"serial", "", false⟩, ⟨"gap", "pad", true⟩, ⟨"mark", "", true⟩]

/-- A carton with a mark. The private field holds nothing that could be encoded. -/
def carton (mark : UInt8) : Value :=
  .record cartonLayout [.foreign "Serial", .ofByte 9, .ofByte mark]

/-- A record type with a count, two cartons, an ignored field, a label and a weight. -/
def palletLayout : Layout :=
  .build "Pallet" [⟨"count", "", true⟩, ⟨"cartons", "", true⟩, ⟨"note", "ignore", true⟩,
    ⟨"label", "zstring", true⟩, ⟨"weight", "", true⟩]

/-- The fields of a pallet. -/
def pallet (count first second : UInt8) : List Value :=
  [.ofByte count, .sequence .fixed (.record "Carton") [carton first, carton second],
    .text "fragile", .text "old", .ofByte 4]

/-- A decoder of a pallet whose label lacks its terminator. -/
def palletDecoder : Decoder := ⟨[], ⟨.bigEndian, {}, .empty⟩, .ofData [2, 0, 5, 0, 6, 97, 98], 0⟩

/-- A pallet whose label lacks its terminator has both cartons decoded and the label as it was. -/
theorem decode_pallet :
    (palletDecoder.decode (.record palletLayout (pallet 0 0 0))).1 =
      ⟨.record palletLayout (pallet 2 5 6), .error (.located [.field "label"] .unexpectedEnd)⟩ := by
  cbv

/-- The marks of the cartons are decoded, and everything else is as it was. -/
theorem frame_of_decode_pallet :
    (Value.record palletLayout (pallet 0 0 0)).Framed (.record palletLayout (pallet 2 5 6)) ∧
      ∃ (index : Nat) (turn : FieldTurn (decodeBelow [] ⟨.bigEndian, {}, .empty⟩ 32) .top
          palletLayout 0 (.ofData [2, 0, 5, 0, 6, 97, 98]) (pallet 0 0 0) index),
        turn.run.1 =
          .error (.located [.field "label"] .unexpectedEnd, pallet 2 5 6) ∧
        ∀ later, index < later → (pallet 2 5 6)[later]? = (pallet 0 0 0)[later]? := by
  obtain ⟨fields, hvalue, hframed, hstop⟩ :=
    Decoder.frame_of_decode palletDecoder palletLayout (pallet 0 0 0)
  rw [decode_pallet] at hvalue hstop
  cases hvalue
  obtain ⟨index, turn, hrun, hlater, -⟩ := hstop _ rfl
  exact ⟨hframed, index, turn, hrun, hlater⟩

end pallets

end PackedRecord
