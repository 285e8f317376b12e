import PackedRecord.Proofs.Agreement
import PackedRecord.Proofs.StrictEncoding

/-!
# Strict decoding

The strict decoder is the decoder with a check in front of what the decoder does not check: the
elements that it asks for by their index, the bytes that it reads at once into a part of a sequence,
the slots that it passes over, the shift that extends a scalar with its sign, and the form and the
wire type of a value that is no array. It stops at a defect of the caller's choice where a check
does not hold. For intact values and tags that were read, the strict encoder and the strict decoder
do what the plain ones do, and these break no contract: `breaks_no_contract` is the statement to
read.
-/

namespace PackedRecord

/-- Whether the bytes of the wire type can be shifted to the top of 64 bits and back, which extends
them with their sign. -/
def WireType.isShiftable (wire : WireType) : Bool :=
  0 < wire.byteSize && 8 * wire.byteSize ≤ 64

section strict

variable (stop : Defect)

/-- Goes on only if the check holds, and stops at the defect otherwise. -/
def Intake.guard {α β : Type} (left : β) (check : Prop) [Decidable check] (next : Intake β α) :
    Intake β α :=
  if check then next else .fail (.broken stop) left

/-- Decodes into `count` elements from `index` on, each of which must be there. -/
def strictDecodeElements (child : Option ChildDecoder) (path : Path) (plan : Plan) :
    (count index : Nat) → List Value → Intake (List Value) (List Value)
  | 0, _, items => .done items
  | count + 1, index, items =>
      match items[index]? with
      | none => .fail (.broken stop) items
      | some item => do
          let item ← (decodeElement child path plan index item).bimap (items.set index) id
          strictDecodeElements child path plan count (index + 1) (items.set index item)

/-- Decodes into the first `stored` elements of a sequence. What is read at once must be a slice of
it. -/
def strictDecodeItems (child : Option ChildDecoder) (path : Path) (plan : Plan)
    (element : HostType) (stored : Nat) (places : List Value) :
    Intake (List Value) (List Value) :=
  if element = .byte ∧ (plan.wire = .byte ∨ plan.wire = .uint8) then
    Intake.guard stop places (stored ≤ places.length) <|
      (decodeItems child path plan element (places.take stored)).within (· ++ places.drop stored)
  else strictDecodeElements stop child path plan stored 0 places

/-- Passes over the slots of an array from `stored` on. There must not be fewer slots than that
where they are skipped. -/
def strictDiscardSlots (child : Option ChildDecoder) (path : Path) (plan : Plan) (scratch : Value)
    (stored slots : Nat) : Intake Unit Unit :=
  if slots ≤ stored then .done ()
  else if child.isNone then .fail (.located path .recursionLimit) ()
  else
    match plan.element (.index stored :: path) scratch with
    | .error error => .fail error ()
    | .ok itemPlan =>
        if itemPlan.isFixedSize then
          Intake.guard stop () (stored ≤ slots) <|
            Intake.skip path (sizeMul itemPlan.wire.byteSize (slots - stored))
        else discardElements child path plan (slots - stored) stored scratch

/-- Decodes into a sequence. -/
def strictSequence (schema : Schema) (settings : Settings) (child : Option ChildDecoder)
    (path : Path) (plan : Plan) (kind : SequenceKind) (element : HostType) (items : List Value) :
    Intake (List Value) (List Value) :=
  let slots := plan.arrayLength.getD items.length
  match settings.limits.checkCollect path slots with
  | .error error => .fail error items
  | .ok () => do
      let fresh := schema.default element
      let places := if kind = .growable then resized fresh slots items else items
      let stored := min places.length slots
      let decoded ← strictDecodeItems stop child path plan element stored places
      Intake.leaving decoded (strictDiscardSlots stop child path plan fresh places.length slots)
      pure decoded

/-- Decodes a string from an array of numbers, of `current` bytes unless the plan says how many. -/
def strictNumbersAsText (settings : Settings) (child : Option ChildDecoder) (path : Path)
    (plan : Plan) (current : Nat) : Intake Unit String := do
  let slots := plan.arrayLength.getD current
  .ofExcept () (settings.limits.checkCollect path slots)
  let items ← Intake.leaving () (strictDecodeItems stop child path plan .byte slots
    (List.replicate slots (Value.ofByte 0)))
  .ofExcept () (textOfBytes path (items.filterMap Value.byte?))

/-- Decodes the first element of an array into a value that is no sequence, and passes over the
other ones. -/
def strictSingle (child : Option ChildDecoder) (path : Path) (value : Value) (plan : Plan) :
    Intake Value Value :=
  match plan.arrayLength.getD 1 with
  | 0 => .done value
  | slots => do
      let decoded ← decodeElement child path plan 0 value
      Intake.leaving decoded (strictDiscardSlots stop child path plan value.scratch 1 slots)
      pure decoded

/-- Decodes an array into a value. -/
def strictDecodeArray (schema : Schema) (settings : Settings) (child : Option ChildDecoder)
    (path : Path) (value : Value) (plan : Plan) : Intake Value Value :=
  match value.target with
  | .record _ _ => .fail (.located path .notAnArray) value
  | .sequence kind element items =>
      if value.isReadOnly then .fail (.located path .cannotSet) value
      else
        (strictSequence stop schema settings child path plan kind element items).within
          fun items => value.withTarget (.sequence kind element items)
  | .text text | .borrowedText text =>
      if plan.wire.isNumeric then
        putText path value (strictNumbersAsText stop settings child path plan text.utf8ByteSize)
      else strictSingle stop child path value plan
  | _ => strictSingle stop child path value plan

/-- Decodes into a value that is no array, which its plan must have settled. A numeric wire type
must be one that can be extended with a sign. -/
def strictDecodeLeaf (settings : Settings) (child : Option ChildDecoder) (path : Path)
    (value : Value) (plan : Plan) : Intake Value Value :=
  Intake.guard stop value (plan.isSettled value = true) <|
    Intake.guard stop value (plan.wire.isNumeric = true → plan.wire.isShiftable = true) <|
      decodeLeaf settings child path value plan

/-- Decodes into a value, given the decoder into the values one step further down. -/
def strictDecodeWith (schema : Schema) (settings : Settings) (child : Option ChildDecoder)
    (path : Path) (value : Value) (plan : Plan) : Intake Value Value :=
  match plan.wire with
  | .ignore => .done value
  | .pad => do
      Intake.leaving value (Intake.skip path (plan.padLength value))
      pure value
  | _ =>
      decodeBehind schema path
        (fun content =>
          if plan.isArray then strictDecodeArray stop schema settings child path content plan
          else strictDecodeLeaf stop settings child path content plan)
        plan.indirection value

/-- Decodes into a value below which there is room for so many steps. -/
def strictDecodeIn (schema : Schema) (settings : Settings) :
    (room : Nat) → Path → Value → Plan → Intake Value Value
  | 0 => strictDecodeWith stop schema settings none
  | room + 1 => strictDecodeWith stop schema settings (some (strictDecodeIn schema settings room))

/-- Decodes into the value at `path` as its tag says, whose sizes refer to `record`. -/
def strictDecodeAt (schema : Schema) (settings : Settings) (path : Path) (record : Option Record)
    (tag : Tag) (value : Value) : Intake Value Value :=
  match Plan.resolve path value tag record with
  | .error error => .fail error value
  | .ok plan => strictDecodeIn stop schema settings (settings.limits.room path) path value plan

/-- Decodes into the value at `path` strictly. The boundary stays where it is. -/
def Decoder.strictDecodeAt (decoder : Decoder) (path : Path) (record : Option Record) (tag : Tag)
    (value : Value) : Decoded × Decoder :=
  decoder.conclude decoder.boundary (decoder.source.supply decoder.boundary
    (PackedRecord.strictDecodeAt stop decoder.schema decoder.settings path record tag value))

end strict

open Intake

/-- A check that holds lets the decoding go on. -/
theorem Intake.guard_of {α β : Type} {stop : Defect} {left : β} {check : Prop} [Decidable check]
    (h : check) (next : Intake β α) : Intake.guard stop left check next = next :=
  if_pos h

/-- All values of the list are intact. -/
def AllIntact (items : List Value) : Prop :=
  ∀ item ∈ items, item.Intact

/-- Intact items stay intact if one of them is replaced by an intact one. -/
theorem AllIntact.set {items : List Value} {item : Value} (h : AllIntact items) (index : Nat)
    (hitem : item.Intact) : AllIntact (items.set index item) := by
  intro item' hmem
  rcases List.mem_or_eq_of_mem_set hmem with hmem | rfl
  · exact h item' hmem
  · exact hitem

/-- The values of bytes are intact. -/
theorem allIntact_bytes (data : Bytes) : AllIntact (data.map Value.ofByte) := by
  intro item hitem
  obtain ⟨byte, -, rfl⟩ := List.mem_map.1 hitem
  exact .ofByte byte

/-- Copies of an intact value are intact. -/
theorem allIntact_replicate {item : Value} (hitem : item.Intact) (count : Nat) :
    AllIntact (List.replicate count item) := fun _ hmem =>
  List.eq_of_mem_replicate hmem ▸ hitem

/-- Intact items behind intact items are intact together. -/
theorem AllIntact.append {front back : List Value} (hfront : AllIntact front)
    (hback : AllIntact back) : AllIntact (front ++ back) := fun item hitem =>
  (List.mem_append.1 hitem).elim (hfront item) (hback item)

section items

variable {stop : Defect} {child child' : Option ChildDecoder} {path : Path} {plan : Plan}

/-- The decoders one step further down agree on intact values and plans that match them. -/
def DecodersAgree : (child child' : Option ChildDecoder) → Prop :=
  Option.Rel fun decode decode' => ∀ path value plan, value.Intact → plan.Matches value →
    (decode path value plan).Agrees Value.Intact (decode' path value plan)

/-- A plan that has no element to offer says so with an orderly error. -/
theorem isOrderly_of_element {value : Value} {error : Error}
    (h : plan.element path value = .error error) : error.IsOrderly := by
  rintro defect rfl
  exact Plan.element_ne_broken h

/-- A tag that names only fields of the record resolves, or fails with an orderly error. -/
theorem isOrderly_of_resolve {value : Value} {tag : Tag} {record : Option Record} {error : Error}
    (hrecord : ∀ whole ∈ record, ∀ index, tag.Names index → index < whole.fields.length)
    (h : Plan.resolve path value tag record = .error error) : error.IsOrderly := by
  rintro defect rfl
  exact Plan.resolve_ne_broken hrecord h

/-- An intact element decodes alike and stays intact if the values below it do. -/
theorem agrees_decodeElement (hchild : DecodersAgree child child') (index : Nat) {item : Value}
    (hitem : item.Intact) :
    (decodeElement child path plan index item).Agrees Value.Intact
      (decodeElement child' path plan index item) := by
  cases hchild with
  | none => exact .located
  | some hagree =>
      unfold decodeElement
      dsimp only
      split
      next error herror => exact .fail (isOrderly_of_element herror)
      next itemPlan hplan => exact hagree _ item itemPlan hitem (.of_element hplan)

/-- Elements that are asked for by their index are those from there on. -/
theorem agrees_decodeElements (hchild : DecodersAgree child child') {index : Nat}
    {decoded : List Value} (items beyond : List Value) (hindex : decoded.length = index)
    (hplaces : AllIntact (decoded.reverse ++ items ++ beyond)) :
    (strictDecodeElements stop child path plan items.length index
        (decoded.reverse ++ items ++ beyond)).Agrees AllIntact
      ((decodeElements child' path plan index decoded items).within (· ++ beyond)) := by
  -- The strict decoder works on the whole sequence: `decoded` is in front of what is left of it,
  -- `beyond` is what it does not come to.
  induction items generalizing index decoded with
  | nil =>
      rw [List.append_nil] at hplaces ⊢
      exact .done hplaces
  | cons item items ih =>
      have hplace : (decoded.reverse ++ item :: items ++ beyond)[index]? = some item := by
        rw [List.append_assoc, List.getElem?_append_right (by simp [hindex])]
        simp [hindex]
      have hset (item' : Value) : (decoded.reverse ++ item :: items ++ beyond).set index item' =
          (item' :: decoded).reverse ++ items ++ beyond := by
        rw [List.append_assoc, List.set_append_right _ _ (by simp [hindex])]
        simp [hindex]
      have hitem : item.Intact := hplaces item (by simp)
      have htorn : (· ++ beyond) ∘ (fun item' => decoded.reverseAux (item' :: items)) =
          (decoded.reverse ++ item :: items ++ beyond).set index := by
        funext item'
        rw [hset]
        simp
      rw [List.length_cons, strictDecodeElements, hplace, decodeElements, Intake.within,
        bimap_bind, bimap_bimap, htorn]
      refine (agrees_decodeElement hchild index hitem).bimap.bind fun item' hitem' => ?_
      have hplaces' := hplaces.set index hitem'
      rw [hset] at hplaces' ⊢
      exact ih (by rw [List.length_cons, hindex]) hplaces'

/-- The first elements of a sequence are decoded as they are on their own. -/
theorem agrees_decodeItems (hchild : DecodersAgree child child') (element : HostType)
    {stored : Nat} {places : List Value} (hstored : stored ≤ places.length)
    (hplaces : AllIntact places) :
    (strictDecodeItems stop child path plan element stored places).Agrees AllIntact
      ((decodeItems child' path plan element (places.take stored)).within
        (· ++ places.drop stored)) := by
  unfold strictDecodeItems decodeItems
  split
  next hbulk =>
    rw [Intake.guard_of hstored]
    refine .within (.read fun bytes _ => .done ?_)
    exact (allIntact_bytes bytes).append fun item hitem => hplaces item (List.mem_of_mem_drop hitem)
  next =>
    have hlength : (places.take stored).length = stored := List.length_take_of_le hstored
    have hall : ([] : List Value).reverse ++ places.take stored ++ places.drop stored = places :=
      List.take_append_drop stored places
    have helements : (strictDecodeElements stop child path plan (places.take stored).length 0
        (([] : List Value).reverse ++ places.take stored ++ places.drop stored)).Agrees AllIntact
        ((decodeElements child' path plan 0 [] (places.take stored)).within
          (· ++ places.drop stored)) :=
      agrees_decodeElements hchild (places.take stored) (places.drop stored) rfl (by rwa [hall])
    rw [hlength, hall] at helements
    exact helements

/-- Elements that are read and dropped agree for an intact scratch value. -/
theorem agrees_discardElements (hchild : DecodersAgree child child') (count index : Nat)
    {scratch : Value} (hscratch : scratch.Intact) :
    (discardElements child path plan count index scratch).Agrees (fun _ => True)
      (discardElements child' path plan count index scratch) := by
  induction count generalizing index scratch with
  | zero => exact .done trivial
  | succ count ih =>
      unfold discardElements
      exact (agrees_decodeElement hchild index hscratch).leaving.bind fun scratch' hscratch' =>
        ih (index + 1) hscratch'

/-- The slots behind the stored items are passed over alike, with the check and without. -/
theorem agrees_discardSlots (hchild : DecodersAgree child child') {scratch : Value}
    (hscratch : scratch.Intact) (stored slots : Nat) :
    (strictDiscardSlots stop child path plan scratch stored slots).Agrees (fun _ => True)
      (discardSlots child' path plan scratch stored slots) := by
  unfold strictDiscardSlots discardSlots
  split
  next => exact .done trivial
  next hslots =>
    have hnone : child.isNone = child'.isNone := by cases hchild <;> rfl
    rw [hnone]
    split
    next => exact .located
    next =>
      cases hplan : plan.element (.index stored :: path) scratch with
      | error error => exact .fail (isOrderly_of_element hplan)
      | ok itemPlan =>
          dsimp only
          split
          next =>
            rw [Intake.guard_of (by omega)]
            exact agrees_skip _ _
          next => exact agrees_discardElements hchild _ _ hscratch

end items

section values

variable {stop : Defect} {schema : Schema} {settings : Settings}
  {child child' : Option ChildDecoder} {path : Path} {plan : Plan} {value : Value}

/-- A number of elements beyond the limit is an orderly error. -/
theorem isOrderly_of_checkCollect {limits : Limits} {length : Nat} {error : Error}
    (h : limits.checkCollect path length = .error error) : error.IsOrderly := by
  unfold Limits.checkCollect at h
  split at h <;> cases h
  exact Error.isOrderly_located path _

/-- A sequence decodes alike with the checks and without, and its items stay intact. -/
theorem agrees_decodeSequence (hschema : schema.Intact) (hchild : DecodersAgree child child')
    (kind : SequenceKind) (element : HostType) {items : List Value} (hitems : AllIntact items) :
    (strictSequence stop schema settings child path plan kind element items).Agrees AllIntact
      (decodeSequence schema settings child' path plan kind element items) := by
  unfold strictSequence decodeSequence
  dsimp only
  generalize plan.arrayLength.getD items.length = slots
  cases hlimit : settings.limits.checkCollect path slots with
  | error error => exact .fail (isOrderly_of_checkCollect hlimit)
  | ok =>
      have hfresh : (schema.default element).Intact := .default hschema element
      have hplaces : AllIntact
          (if kind = .growable then resized (schema.default element) slots items else items) := by
        split
        · exact AllIntact.append (fun item hitem => hitems item (List.mem_of_mem_take hitem))
            (allIntact_replicate hfresh _)
        · exact hitems
      dsimp only
      generalize (if kind = .growable then resized (schema.default element) slots items
        else items) = places at hplaces
      -- A sequence of a fixed length may have fewer places than there are slots.
      have htake : places.take slots = places.take (min places.length slots) := by
        rw [List.take_eq_take_iff]
        omega
      have hdrop : places.drop slots = places.drop (min places.length slots) := by
        rcases Nat.le_total places.length slots with hshort | hlong
        · rw [Nat.min_eq_left hshort, List.drop_length, List.drop_of_length_le hshort]
        · rw [Nat.min_eq_right hlong]
      rw [htake, hdrop]
      refine (agrees_decodeItems hchild element (Nat.min_le_left _ _) hplaces).bind
        fun decoded hdecoded => ?_
      exact (agrees_discardSlots hchild hfresh _ _).leaving.bind fun _ _ => .done hdecoded

/-- Numbers are collected into a text alike, with the checks and without. -/
theorem agrees_decodeNumbersAsText (hchild : DecodersAgree child child') (current : Nat) :
    (strictNumbersAsText stop settings child path plan current).Agrees (fun _ => True)
      (decodeNumbersAsText settings child' path plan current) := by
  unfold strictNumbersAsText decodeNumbersAsText
  dsimp only
  generalize plan.arrayLength.getD current = slots
  have hnumbers := allIntact_replicate (.ofByte 0) slots
  have hlength : (List.replicate slots (Value.ofByte 0)).length = slots := List.length_replicate
  generalize List.replicate slots (Value.ofByte 0) = numbers at hnumbers hlength
  subst hlength
  have hitems : (strictDecodeItems stop child path plan .byte numbers.length numbers).Agrees
      AllIntact (decodeItems child' path plan .byte numbers) := by
    have hfirst : (strictDecodeItems stop child path plan .byte numbers.length numbers).Agrees
        AllIntact ((decodeItems child' path plan .byte (numbers.take numbers.length)).within
          (· ++ numbers.drop numbers.length)) :=
      agrees_decodeItems hchild .byte (Nat.le_refl _) hnumbers
    have hnil : (fun items : List Value => items ++ []) = id := funext List.append_nil
    rwa [List.take_length, List.drop_length, hnil, Intake.within, bimap_id] at hfirst
  refine (agrees_ofExcept (fun _ _ => trivial) fun _ => isOrderly_of_checkCollect).bind
    fun _ _ => hitems.leaving.bind fun items _ => ?_
  exact agrees_ofExcept (fun _ _ => trivial) fun _ => isOrderly_of_textOfBytes

/-- A single value in the place of an array decodes alike and stays intact. -/
theorem agrees_decodeSingle (hchild : DecodersAgree child child') (hvalue : value.Intact) :
    (strictSingle stop child path value plan).Agrees Value.Intact
      (decodeSingle child' path value plan) := by
  have hscratch : value.scratch.Intact := by
    unfold Value.scratch
    split
    · exact .text _
    · exact .text _
    · exact hvalue.target
  unfold strictSingle decodeSingle
  cases plan.arrayLength.getD 1 with
  | zero => exact .done hvalue
  | succ slots =>
      refine (agrees_decodeElement hchild 0 hvalue).bind fun decoded hdecoded => ?_
      exact (agrees_discardSlots hchild hscratch _ _).leaving.bind fun _ _ => .done hdecoded

/-- A text that is put into an intact destination leaves it intact. -/
theorem agrees_putText {intake intake' : Intake Unit String}
    (h : intake.Agrees (fun _ => True) intake') :
    (putText path value intake).Agrees Value.Intact (putText path value intake') := by
  refine h.leaving.bind fun text _ => ?_
  split
  · exact .located
  · exact .done (.withTarget (.text text))

/-- An array decodes alike into every kind of intact value, which stays intact. -/
theorem agrees_decodeArray (hschema : schema.Intact) (hchild : DecodersAgree child child')
    (hvalue : value.Intact) :
    (strictDecodeArray stop schema settings child path value plan).Agrees Value.Intact
      (decodeArray schema settings child' path value plan) := by
  have htarget := hvalue.target
  have hsingle : (strictSingle stop child path value plan).Agrees Value.Intact
      (decodeSingle child' path value plan) := agrees_decodeSingle hchild hvalue
  unfold strictDecodeArray decodeArray
  generalize value.target = target at htarget
  cases htarget with
  | record => exact .located
  | sequence hitems =>
      dsimp only
      split
      · exact .located
      · exact ((agrees_decodeSequence hschema hchild _ _ hitems).mono fun items' hitems' =>
          .withTarget (.sequence hitems')).within
  | text | borrowedText =>
      dsimp only
      split
      · exact agrees_putText (agrees_decodeNumbersAsText hchild _)
      · exact hsingle
  | scalar | optional | dynamic | pointer | foreign => exact hsingle

/-- The values are intact, and there is one for each field that was declared. -/
def FieldsIntact (declared : List FieldDescriptor) (values : List Value) : Prop :=
  values.length = declared.length ∧ AllIntact values

/-- A field of a declared record decodes alike, and the record keeps its declared types. -/
theorem agrees_decodeField (hchild : DecodersAgree child child') {name : String}
    {declared : List FieldDescriptor} {values : List Value} {index : Nat} {field : FieldLayout}
    (hvalues : FieldsIntact declared values)
    (hfield : (Layout.build name declared).fields[index]? = some field) :
    (decodeField child path ⟨.build name declared, values⟩ index field).Agrees
      (FieldsIntact declared)
      (decodeField child' path ⟨.build name declared, values⟩ index field) := by
  obtain ⟨hlength, hintact⟩ := hvalues
  have hindex : index < values.length := hlength ▸ Layout.lt_of_field hfield
  have hvalue : Record.field ⟨.build name declared, values⟩ index = .ok values[index] :=
    Record.field_of_lt hindex
  unfold decodeField
  split
  next => exact .done ⟨hlength, hintact⟩
  next =>
    cases hchild with
    | none => exact .located
    | some hagree =>
        dsimp only
        cases htag : field.tag with
        | error error => exact .located
        | ok tag =>
            dsimp only
            split
            next => exact .done ⟨hlength, hintact⟩
            next =>
              rw [hvalue]
              dsimp only
              split
              next error herror =>
                refine .fail (isOrderly_of_resolve ?_ herror)
                rintro whole ⟨⟩ target hnames
                exact hlength ▸ Layout.lt_of_names hfield htag hnames
              next fieldPlan hplan =>
                have hitem : values[index].Intact := hintact _ (List.getElem_mem hindex)
                have hmatches := Plan.Matches.of_resolve (Layout.wire_of_tag hfield htag) hplan
                exact ((hagree _ _ _ hitem hmatches).mono fun value' hvalue' =>
                  ⟨by rw [List.length_set, hlength], hintact.set index hvalue'⟩).within

/-- The fields of a declared record decode alike from any of them on. -/
theorem agrees_decodeFields (hchild : DecodersAgree child child') {name : String}
    {declared : List FieldDescriptor} {values : List Value} {index : Nat}
    {rest : List FieldLayout} (hrest : (Layout.build name declared).fields.drop index = rest)
    (hvalues : FieldsIntact declared values) :
    (decodeFields child path (.build name declared) index rest values).Agrees
      (FieldsIntact declared)
      (decodeFields child' path (.build name declared) index rest values) := by
  induction rest generalizing index values with
  | nil => exact .done hvalues
  | cons field rest ih =>
      obtain ⟨hfield, hlater⟩ := Layout.fields_of_drop hrest
      unfold decodeFields
      exact (agrees_decodeField hchild hvalues hfield).bind fun values' hvalues' =>
        ih hlater hvalues'

/-- Every numeric wire type is narrow enough to be extended with its sign. -/
theorem WireType.isShiftable_of_isNumeric {wire : WireType}
    (h : wire.isNumeric = true) : wire.isShiftable = true := by
  cases wire <;> first | rfl | cases h

/-- A settled value without an array decodes alike with the checks and without. -/
theorem agrees_decodeLeaf (hchild : DecodersAgree child child') (hvalue : value.Intact)
    (hsettled : plan.isSettled value = true) :
    (strictDecodeLeaf stop settings child path value plan).Agrees Value.Intact
      (decodeLeaf settings child' path value plan) := by
  have htarget := hvalue.target
  unfold strictDecodeLeaf
  rw [Intake.guard_of hsettled, Intake.guard_of WireType.isShiftable_of_isNumeric]
  unfold decodeLeaf
  dsimp only
  split
  · exact .located
  generalize value.target = target at htarget
  cases htarget with
  | record hlength hfields =>
      dsimp only
      split
      · exact ((agrees_decodeFields hchild List.drop_zero ⟨hlength, hfields⟩).mono
          fun values hvalues => .withTarget (.record hvalues.1 hvalues.2)).within
      · exact .located
  | text =>
      dsimp only
      split
      · exact agrees_putText (agrees_decodeText plan _)
      · exact .located
  | scalar content =>
      dsimp only
      split
      next hnumeric =>
        exact (agrees_decodeScalar hnumeric content.type).leaving.bind fun decoded _ =>
          .done (.withTarget (.scalar decoded))
      next => exact .located
  | borrowedText | sequence | optional | dynamic | pointer | foreign => exact .located

/-- Behind references, values that are intact and represented as the outer one are decoded. -/
theorem agrees_decodeBehind (hschema : schema.Intact) {decode decode' : Value → Intake Value Value}
    {levels : Nat} (hvalue : value.Intact)
    (hdecode : ∀ content : Value, content.Intact → value.natural.Leads levels content.natural →
      (decode content).Agrees Value.Intact (decode' content)) :
    (decodeBehind schema path decode levels value).Agrees Value.Intact
      (decodeBehind schema path decode' levels value) := by
  induction levels generalizing value with
  | zero => exact hdecode value hvalue value.natural.leads_zero
  | succ levels ih =>
      have hbehind {inner : Value} (hinner : inner.Intact)
          (hfirst : value.natural.Leads 1 inner.natural) :
          (decodeBehind schema path decode levels inner).Agrees Value.Intact
            (decodeBehind schema path decode' levels inner) :=
        ih hinner fun content hcontent hleads => hdecode content hcontent (hfirst.trans hleads)
      unfold decodeBehind
      dsimp only
      split
      · exact .located
      cases htarget : value.target with
      | optional type content =>
          have hinner : (content.getD (schema.default type)).Intact := by
            cases content with
            | none => exact .default hschema type
            | some content => exact hvalue.of_optional htarget content rfl
          exact ((hbehind hinner (Value.leads_of_optional schema htarget)).mono
            fun filled hfilled => .withTarget (.optional_some hfilled)).within
      | dynamic content =>
          cases content with
          | none => exact .located
          | some content =>
              have hinner := hvalue.of_dynamic htarget content rfl
              exact ((hbehind hinner (Value.leads_of_dynamic htarget)).mono
                fun filled hfilled => .withTarget (.dynamic_some hfilled)).within
      | _ => exact .located

/-- No check stops the strict decoder at an intact value with a plan that matches it, nor does the
plain one break a contract, if that is so one step further down. -/
theorem agrees_decodeWith (hschema : schema.Intact) (hchild : DecodersAgree child child')
    (hvalue : value.Intact) (hmatches : plan.Matches value) :
    (strictDecodeWith stop schema settings child path value plan).Agrees Value.Intact
      (decodeWith schema settings child' path value plan) := by
  unfold strictDecodeWith
  split
  next hignore =>
    rw [decodeWith, hignore]
    exact .done hvalue
  next hpad =>
    rw [decodeWith, hpad]
    exact (agrees_skip path _).leaving.bind fun _ _ => .done hvalue
  next hignore hpad =>
    rw [decodeWith_coded hpad hignore]
    refine agrees_decodeBehind hschema hvalue fun content hcontent hleads => ?_
    split
    next => exact agrees_decodeArray hschema hchild hcontent
    next harray =>
      exact agrees_decodeLeaf hchild hcontent
        (hmatches.isSettled (Bool.not_eq_true _ ▸ harray) hleads)

/-- A value that matches its plan decodes alike and stays intact, however deep it lies. -/
theorem agrees_decodeIn (hschema : schema.Intact) (room : Nat) (hvalue : value.Intact)
    (hmatches : plan.Matches value) :
    (strictDecodeIn stop schema settings room path value plan).Agrees Value.Intact
      (decodeIn schema settings room path value plan) := by
  induction room generalizing path value plan with
  | zero => exact agrees_decodeWith hschema .none hvalue hmatches
  | succ room ih =>
      exact agrees_decodeWith hschema (.some fun _ _ _ hitem hitemPlan => ih hitem hitemPlan)
        hvalue hmatches

end values

section runs

variable {record : Option Record} {tag : Tag} {value : Value}

/-- An intact value decodes alike under every tag that was read and names existing fields. -/
theorem agrees_decodeAt (stop : Defect) {schema : Schema} (settings : Settings) (path : Path)
    (hschema : schema.Intact) (hvalue : value.Intact) (htag : tag.wire ≠ some .any)
    (hrecord : ∀ whole ∈ record, ∀ index, tag.Names index → index < whole.fields.length) :
    (strictDecodeAt stop schema settings path record tag value).Agrees Value.Intact
      (decodeAt schema settings path record tag value) := by
  unfold strictDecodeAt decodeAt
  cases hplan : Plan.resolve path value tag record with
  | error error => exact .fail (isOrderly_of_resolve hrecord hplan)
  | ok plan => exact agrees_decodeIn hschema _ hvalue (.of_resolve htag hplan)

/-- What the strict decoder does with an intact value is what the decoder does, and that does not
end with a broken contract, on any source. -/
theorem Decoder.strictDecodeAt_eq (stop : Defect) (decoder : Decoder) (path : Path)
    (hschema : decoder.schema.Intact) (hvalue : value.Intact) (htag : tag.wire ≠ some .any)
    (hrecord : ∀ whole ∈ record, ∀ index, tag.Names index → index < whole.fields.length) :
    decoder.strictDecodeAt stop path record tag value = decoder.decodeAt path record tag value ∧
      ∀ defect, (decoder.decodeAt path record tag value).1.outcome ≠ .error (.broken defect) := by
  have hagrees := agrees_decodeAt stop decoder.settings path hschema hvalue htag hrecord
  obtain ⟨hsupply, hend⟩ := Source.supply_of_agrees hagrees decoder.boundary decoder.source
  unfold Decoder.strictDecodeAt Decoder.decodeAt
  refine ⟨by rw [hsupply], fun defect => ?_⟩
  generalize decoder.source.supply decoder.boundary (PackedRecord.decodeAt ..) = run at hend
  obtain ⟨⟨error, left⟩ | result, source⟩ := run
  · exact fun hbroken => hend defect (Except.error.inj hbroken)
  · rintro ⟨⟩

end runs

/-- No contract is broken. Let the records of a value have a field for each of those that their
layout was built from, let a tag have been read, and let it name fields of the record that the value
belongs to only. With any settings, and on any sink and any source, encoding the value and decoding
into it do not end with a broken contract, and no check of the strict encoder or the strict decoder
stops them. -/
theorem breaks_no_contract (encoder : Encoder) (decoder : Decoder) (path : Path)
    {record : Option Record} {resolve : Resolver} {text : String} {tag : Tag} {value : Value}
    (hschema : decoder.schema.Intact) (hvalue : value.Intact)
    (htag : Tag.parse resolve text = .ok tag)
    (hrecord : ∀ whole ∈ record, ∀ index, tag.Names index → index < whole.fields.length) :
    (∀ stop, encoder.strictEncodeAt stop path record tag value =
        encoder.encodeAt path record tag value) ∧
      (∀ stop, decoder.strictDecodeAt stop path record tag value =
        decoder.decodeAt path record tag value) ∧
      ∀ defect, (encoder.encodeAt path record tag value).1 ≠ .error (.broken defect) ∧
        (decoder.decodeAt path record tag value).1.outcome ≠ .error (.broken defect) := by
  have hwire := Tag.wire_of_parse htag
  refine ⟨fun stop => ?_, fun stop => ?_, fun defect => ⟨?_, ?_⟩⟩
  · exact encoder.strictEncodeAt_eq stop path record hwire hvalue
  · exact (decoder.strictDecodeAt_eq stop path hschema hvalue hwire hrecord).1
  · exact encoder.encodeAt_ne_broken path hrecord hvalue defect
  · exact (decoder.strictDecodeAt_eq (.scalarWidth 0) path hschema hvalue hwire hrecord).2 defect

section cells

/-- A record type with a byte. -/
def cellType : RecordType := ⟨.build "Cell" [⟨"value", "", true⟩], [.byte]⟩

/-- A vector with an optional cell. -/
def cells (content : Option Value) : Value :=
  .sequence .growable (.optional (.record "Cell")) [.optional (.record "Cell") content]

/-- The fields of a row, which counts its cells. -/
def rowFields : List FieldDescriptor := [⟨"count", "", true⟩, ⟨"cells", "[count]", true⟩]

/-- The cells of a row, one of which is missing. It cannot be encoded, but it can be decoded. -/
theorem breaks_no_contract_cells :
    let encoder : Encoder := ⟨⟨.bigEndian, {}, .empty⟩, .unbounded⟩
    let decoder : Decoder := ⟨[("Cell", cellType)], ⟨.bigEndian, {}, .empty⟩, .ofData [7], 0⟩
    let path : Path := [.field "cells"]
    let row : Record := ⟨.build "Row" rowFields, [.ofByte 1, cells none]⟩
    let tag : Tag := ⟨none, .length ⟨"count", [⟨false, .field 0 "count"⟩]⟩, none, none⟩
    decoder.schema.Intact ∧ (cells none).Intact ∧
    Tag.parse (Layout.resolver rowFields 1 ⟨"cells", "[count]", true⟩) "[count]" = .ok tag ∧
    (∀ whole ∈ some row, ∀ index, tag.Names index → index < whole.fields.length) ∧
    ∀ stop, (encoder.strictEncodeAt stop path (some row) tag (cells none)).1 =
        .error (.located (.index 0 :: path) .nullReference) ∧
      (decoder.strictDecodeAt stop path (some row) tag (cells none)).1 =
        ⟨cells (some (.record cellType.layout [.ofByte 7])), .ok 1⟩ := by
  intro encoder decoder path row tag
  have hschema : decoder.schema.Intact := by
    intro key type htype
    rw [List.lookup_cons] at htype
    split at htype
    · cases htype
      exact ⟨_, _, rfl, rfl⟩
    · cases htype
  have hvalue : (cells none).Intact := by
    refine .sequence fun item hitem => ?_
    obtain rfl := List.mem_singleton.1 hitem
    refine .optional ?_
    rintro value ⟨⟩
  have htag : Tag.parse (Layout.resolver rowFields 1 ⟨"cells", "[count]", true⟩) "[count]" =
      .ok tag := by cbv
  have hrecord : ∀ whole ∈ some row, ∀ index, tag.Names index →
      index < whole.fields.length := by
    have hfield : (Layout.build "Row" rowFields).fields[1]? = some ⟨"cells", true,
        Tag.parse (Layout.resolver rowFields 1 ⟨"cells", "[count]", true⟩) "[count]"⟩ := rfl
    rintro whole ⟨⟩ index hnames
    exact Layout.lt_of_names hfield htag hnames
  obtain ⟨hencode, hdecode, -⟩ :=
    breaks_no_contract encoder decoder path hschema hvalue htag hrecord
  refine ⟨hschema, hvalue, htag, hrecord, fun stop => ⟨?_, ?_⟩⟩
  · rw [hencode]
    cbv
  · rw [hdecode]
    cbv

end cells

end PackedRecord
