import PackedRecord.Proofs.Dispatch

/-!
# Strict encoding

The encoder takes differences of lengths, asks an array for its elements by their index and codes a
value that is no array by its form and its wire type. The strict encoder is the encoder with a check
in front of each of these, and it stops at a defect of the caller's choice where a check does not
hold. Scalars need no check of their own: a width that they do not have is a broken contract of the
encoder already. `strictEncodeAt_eq` says that the strict encoder writes what the encoder writes, so
that no check ever stops it, if the value is intact and the tag does not name the open wire type.
-/

namespace PackedRecord

section strict

variable (stop : Defect)

/-- Goes on only if the check holds, and stops at the defect otherwise. -/
def Emission.guard {α : Type} (check : Prop) [Decidable check] (next : Emission α) : Emission α :=
  if check then next else .fail (.broken stop)

/-- Writes a string in its frame, which must not be shorter. -/
def TextFrame.strictEmit (settings : Settings) (path : Path) (frame : TextFrame) (data : Bytes) :
    Emission Unit := do
  match frame.lengthSize with
  | none => pure ()
  | some size => emitImage settings path size (UInt64.ofNat data.length)
  Emission.write path (.data data)
  Emission.guard stop (data.length ≤ frame.bufferSize) <|
    Emission.write path (.zeros (frame.bufferSize - data.length))

/-- Encodes a string. -/
def strictText (settings : Settings) (path : Path) (plan : Plan) (text : String) :
    Emission Unit := do
  let data ← .ofExcept (settings.transcode Text.Codec.encode path plan.encoding
    (Text.Utf8.encode text))
  match TextFrame.of plan.wire plan.bufferLength data with
  | .error fault => .fail (.located path fault)
  | .ok frame => frame.strictEmit stop settings path data

/-- Encodes `count` elements from `index` on, each of which must be there, and gives the size of the
last one; `last` is the size of the one before them. -/
def strictElements (child : Option ChildEncoder) (path : Path) (plan : Plan) (items : List Value) :
    (count index : Nat) → (last : Option Nat) → Emission (Option Nat)
  | 0, _, last => pure last
  | count + 1, index, _ =>
      match items[index]? with
      | none => .fail (.broken stop)
      | some item => do
          let size ← ((plan.elementPart path index item).encode child path).sized
          strictElements child path plan items count (index + 1) (some size)

/-- Encodes the elements of an array, at once if they are bytes that are coded as bytes. -/
def strictItems (child : Option ChildEncoder) (path : Path) (plan : Plan) (elements : Elements) :
    Emission (Option Nat) :=
  let items := elements.items
  match elements.bytes with
  | some bytes =>
      if plan.wire = .byte ∨ plan.wire = .uint8 then do
        Emission.write path (.data bytes)
        pure (some 1)
      else strictElements stop child path plan items items.length 0 none
  | none => strictElements stop child path plan items items.length 0 none

/-- Encodes a value as an array, with zeros in the slots that it does not fill. Then it must not
have more elements than slots. -/
def strictArray (child : Option ChildEncoder) (path : Path) (value : Value) (plan : Plan) :
    Emission Unit := do
  let elements ← .ofExcept (Elements.of path value plan.wire)
  let length := elements.items.length
  let slots := plan.arrayLength.getD length
  if slots < length then .fail (.located path (.arrayTooLarge length slots))
  else
    let last ← strictItems stop child path plan elements
    let slotSize := (plan.bufferLength <|> last).getD (staticSize plan.wire elements.natural)
    if length < slots then
      Emission.guard stop (length ≤ slots) <|
        Emission.write path (.zeros (sizeMul (slots - length) slotSize))
    else pure ()

/-- Encodes a value that is no array, which its plan must have settled. -/
def strictLeaf (settings : Settings) (child : Option ChildEncoder) (path : Path) (value : Value)
    (plan : Plan) : Emission Unit :=
  let mismatch := Error.located path (.notEncodable (.mismatch value.typeName plan.wire))
  Emission.guard stop (plan.isSettled value = true) <|
    match value.target with
    | .record layout fields =>
        if plan.wire = .struct then encodeFields child path ⟨layout, fields⟩ 0 layout.fields
        else .fail mismatch
    | .text text | .borrowedText text =>
        if plan.wire.isText then strictText stop settings path plan text else .fail mismatch
    | .scalar scalar =>
        if plan.wire.isNumeric then
          match scalar.toImage plan.wire with
          | .ok image => emitImage settings path plan.wire.byteSize image
          | .error fault => .fail (.located path fault.toFault)
        else .fail mismatch
    | _ => .fail mismatch

/-- Encodes a value, given the encoder of the values one step further down. -/
def strictWith (settings : Settings) (child : Option ChildEncoder) (path : Path) (value : Value)
    (plan : Plan) : Emission Unit :=
  match plan.wire with
  | .ignore => pure ()
  | .pad => .write path (.zeros (plan.padLength value))
  | _ =>
      match value.strip plan.indirection with
      | .error fault => .fail (.located path fault)
      | .ok content =>
          if plan.isArray then strictArray stop child path content plan
          else strictLeaf stop settings child path content plan

/-- Encodes a value below which there is room for so many steps. -/
def strictIn (settings : Settings) : (room : Nat) → Path → Value → Plan → Emission Unit
  | 0 => strictWith stop settings none
  | room + 1 => strictWith stop settings (some (strictIn settings room))

/-- Encodes the value at `path` as its tag says, whose sizes refer to `record`. -/
def strictEncodeAt (settings : Settings) (path : Path) (record : Option Record) (tag : Tag)
    (value : Value) : Emission Unit := do
  let plan ← .ofExcept (Plan.resolve path value tag record)
  strictIn stop settings (settings.limits.room path) path value plan

/-- Encodes the value at `path` strictly and gives the number of bytes. -/
def Encoder.strictEncodeAt (encoder : Encoder) (path : Path) (record : Option Record) (tag : Tag)
    (value : Value) : Except Error Nat × Encoder :=
  encoder.run (PackedRecord.strictEncodeAt stop encoder.settings path record tag value).sized

end strict

section text

variable {stop : Defect} {settings : Settings} {path : Path}

/-- A check that holds lets the encoding go on. -/
theorem Emission.guard_of {α : Type} {check : Prop} [Decidable check] (h : check)
    (next : Emission α) : Emission.guard stop check next = next :=
  if_pos h

/-- A string is no longer than its frame. -/
theorem TextFrame.length_le_of {wire : WireType} {bufferLength : Option Nat} {data : Bytes}
    {frame : TextFrame} (h : TextFrame.of wire bufferLength data = .ok frame) :
    data.length ≤ frame.bufferSize := by
  have hterminated : data.length ≤ terminatedSize wire data.length := by
    unfold terminatedSize
    split <;> omega
  unfold TextFrame.of at h
  dsimp only at h
  repeat' split at h
  all_goals cases h
  all_goals dsimp only at *
  all_goals omega

/-- In a frame that is long enough, a string is written without a stop. -/
theorem TextFrame.strictEmit_eq {frame : TextFrame} {data : Bytes}
    (h : data.length ≤ frame.bufferSize) :
    frame.strictEmit stop settings path data = frame.emit settings path data := by
  unfold strictEmit emit
  cases frame.lengthSize <;> simp only [Emission.guard_of h]

/-- A string never stops the strict encoder, because every frame is long enough for its string. -/
theorem strictText_eq (plan : Plan) (text : String) :
    strictText stop settings path plan text = encodeText settings path plan text := by
  unfold strictText encodeText
  refine bind_congr fun data => ?_
  cases hframe : TextFrame.of plan.wire plan.bufferLength data with
  | error fault => rfl
  | ok frame => exact TextFrame.strictEmit_eq (TextFrame.length_le_of hframe)

end text

section parts

variable {stop : Defect} {settings : Settings} {child child' : Option ChildEncoder} {path : Path}
  {plan : Plan} {value : Value}

/-- The encoders one step further down agree on intact values and plans that match them. -/
def EncodersAgree : (child child' : Option ChildEncoder) → Prop :=
  Option.Rel fun encode encode' => ∀ path value plan, value.Intact → plan.Matches value →
    encode path value plan = encode' path value plan

/-- An intact element that matches its plan is encoded alike. -/
theorem Part.encode_eq (hchild : EncodersAgree child child') {part : Part}
    (hpart : ∀ item itemPlan, part.planned = .ok (some (item, itemPlan)) →
      item.Intact ∧ itemPlan.Matches item) :
    part.encode child path = part.encode child' path := by
  cases hchild with
  | none => rfl
  | some hagree =>
      unfold encode
      simp only [descend, Emission.pure_eq, Emission.ofExcept_ok_bind]
      split
      · rfl
      · rfl
      next item itemPlan hplanned =>
        obtain ⟨hitem, hmatches⟩ := hpart item itemPlan hplanned
        exact hagree _ item itemPlan hitem hmatches

/-- An element of an intact array has a plan that matches it. -/
theorem matches_elementPart {index : Nat} {item : Value} (hitem : item.Intact) (item' : Value)
    (itemPlan : Plan)
    (hplanned : (plan.elementPart path index item).planned = .ok (some (item', itemPlan))) :
    item'.Intact ∧ itemPlan.Matches item' := by
  obtain ⟨rfl, hplan⟩ := planned_of_map hplanned
  exact ⟨hitem, .of_element hplan⟩

/-- A field that is found in a record is one of its values. -/
theorem Record.mem_of_field {record : Record} {index : Nat} (h : record.field index = .ok value) :
    value ∈ record.fields := by
  unfold field at h
  split at h
  next hfield =>
    cases h
    exact List.mem_of_getElem? hfield
  next => cases h

/-- A field of an intact record has a plan that matches it, as its tag was read. -/
theorem matches_fieldPart {name : String} {declared : List FieldDescriptor} {fields : List Value}
    {index : Nat} {field : FieldLayout} (hfields : ∀ value ∈ fields, value.Intact)
    (hfield : (Layout.build name declared).fields[index]? = some field) (item : Value)
    (itemPlan : Plan)
    (hplanned : (field.part path ⟨.build name declared, fields⟩ index).planned =
      .ok (some (item, itemPlan))) :
    item.Intact ∧ itemPlan.Matches item := by
  unfold FieldLayout.part at hplanned
  split at hplanned
  · cases hplanned
  next tag htag =>
    split at hplanned
    · cases hplanned
    · split at hplanned
      · cases hplanned
      next value hvalue =>
        obtain ⟨rfl, hplan⟩ := planned_of_map hplanned
        exact ⟨hfields _ (Record.mem_of_field hvalue),
          .of_resolve (Layout.wire_of_tag hfield htag) hplan⟩

/-- The parts of an array are encoded alike if their elements are intact and match their plans. -/
theorem forM_encode_eq (hchild : EncodersAgree child child') {parts : List Part}
    (hparts : ∀ part ∈ parts, ∀ item itemPlan, part.planned = .ok (some (item, itemPlan)) →
      item.Intact ∧ itemPlan.Matches item) :
    parts.forM (·.encode child path) = parts.forM (·.encode child' path) := by
  induction parts with
  | nil => rfl
  | cons part parts ih =>
      have hfirst : part.encode child path = part.encode child' path :=
        Part.encode_eq hchild (hparts part List.mem_cons_self)
      have hrest := ih fun part hpart => hparts part (List.mem_cons_of_mem _ hpart)
      show part.encode child path >>= (fun _ => parts.forM _) = _
      rw [hfirst, hrest]
      rfl

/-- Elements that are asked for by their index are those from there on. -/
theorem strictElements_eq (hchild : EncodersAgree child child') {items : List Value}
    (hitems : ∀ item ∈ items, item.Intact) {count index : Nat}
    (hcount : index + count = items.length) (last : Option Nat) :
    strictElements stop child path plan items count index last =
      encodeElements child' path plan index last (items.drop index) := by
  induction count generalizing index last with
  | zero =>
      rw [List.drop_of_length_le (by omega)]
      rfl
  | succ count ih =>
      have hindex : index < items.length := by omega
      have hitem := hitems _ (List.getElem_mem hindex)
      rw [strictElements, List.getElem?_eq_getElem hindex, List.drop_eq_getElem_cons hindex,
        encodeElements_cons]
      simp only [Part.encode_eq hchild (matches_elementPart hitem)]
      exact bind_congr fun size => ih (by omega) (some size)

/-- What an array stores is encoded without a stop if all of it is intact. -/
theorem strictItems_eq (hchild : EncodersAgree child child') {elements : Elements}
    (hitems : ∀ item ∈ elements.items, item.Intact) :
    strictItems stop child path plan elements = encodeItems child' path plan elements := by
  have hall : strictElements stop child path plan elements.items elements.items.length 0 none =
      encodeElements child' path plan 0 none elements.items :=
    strictElements_eq hchild hitems (Nat.zero_add _) none
  unfold strictItems encodeItems
  cases elements.bytes <;> simp only [hall]

/-- An intact value is encoded as an array without a stop. -/
theorem strictArray_eq (hchild : EncodersAgree child child') (hvalue : value.Intact) :
    strictArray stop child path value plan = encodeArray child' path value plan := by
  rw [encodeArray_eq, strictArray]
  cases hof : Elements.of path value plan.wire with
  | error error => rfl
  | ok elements =>
      have hitems : ∀ item ∈ elements.items, item.Intact := fun item => hvalue.elements hof
      simp only [Emission.ofExcept_ok_bind, strictItems_eq hchild hitems]
      split
      · rfl
      · refine bind_congr fun last => ?_
        split
        next hless => exact Emission.guard_of (Nat.le_of_lt hless) _
        next => rfl

/-- An intact and settled value without an array is encoded without a stop. -/
theorem strictLeaf_eq (hchild : EncodersAgree child child') (hvalue : value.Intact)
    (hsettled : plan.isSettled value = true) :
    strictLeaf stop settings child path value plan =
      encodeLeaf settings child' path value plan := by
  have htarget := hvalue.target
  unfold strictLeaf encodeLeaf
  rw [Emission.guard_of hsettled]
  generalize value.target = target at htarget
  cases htarget with
  | record _ hfields =>
      simp only [encodeFields_eq]
      rw [forM_encode_eq hchild]
      intro part hpart
      obtain ⟨index, field, hfield, rfl⟩ := exists_of_mem_fieldParts List.drop_zero hpart
      exact matches_fieldPart hfields hfield
  | text | borrowedText => simp only [strictText_eq]
  | scalar | sequence | optional | dynamic | pointer | foreign => rfl

-- A reference that was not taken off stops the strict encoder, whereas the encoder refuses it.
example (stop : Defect) (settings : Settings) :
    strictLeaf stop settings none .top (.dynamic none) ⟨.uint8, false, none, none, 0, none⟩ =
      .fail (.broken stop) := rfl

/-- No check stops the strict encoder at an intact value with a plan that matches it if that is so
one step further down. -/
theorem strictWith_eq (hchild : EncodersAgree child child') (hvalue : value.Intact)
    (hmatches : plan.Matches value) :
    strictWith stop settings child path value plan =
      encodeWith settings child' path value plan := by
  unfold strictWith
  split
  next hignore => rw [encodeWith, hignore]
  next hpad => rw [encodeWith, hpad]
  next hignore hpad =>
    rw [encodeWith_coded hpad hignore]
    cases hstrip : value.strip plan.indirection with
    | error fault => rfl
    | ok content =>
        have hcontent := hvalue.strip hstrip
        have hleads := Value.leads_of_strip (Nat.le_of_eq hmatches.indirection_eq) hstrip
        simp only [strictArray_eq hchild hcontent]
        split
        next => rfl
        next harray =>
          exact strictLeaf_eq hchild hcontent
            (hmatches.isSettled (Bool.not_eq_true _ ▸ harray) hleads)

/-- An intact value that matches its plan is encoded without a stop, however deep it goes. -/
theorem strictIn_eq (room : Nat) (hvalue : value.Intact) (hmatches : plan.Matches value) :
    strictIn stop settings room path value plan = encodeIn settings room path value plan := by
  induction room generalizing path value plan with
  | zero => exact strictWith_eq .none hvalue hmatches
  | succ room ih =>
      exact strictWith_eq (.some fun _ _ _ hitem hitemPlan => ih hitem hitemPlan) hvalue hmatches

end parts

section runs

variable (stop : Defect) (path : Path) (record : Option Record) {tag : Tag} {value : Value}

/-- No check stops the strict encoder at an intact value if the tag does not name the open wire
type. -/
theorem strictEncodeAt_eq (settings : Settings) (htag : tag.wire ≠ some .any)
    (hvalue : value.Intact) :
    strictEncodeAt stop settings path record tag value =
      encodeAt settings path record tag value := by
  unfold strictEncodeAt encodeAt
  cases hplan : Plan.resolve path value tag record with
  | error error => rfl
  | ok plan => exact strictIn_eq _ hvalue (.of_resolve htag hplan)

/-- For an intact value and a tag without the open wire type, a strict call does what a plain
one does. -/
theorem Encoder.strictEncodeAt_eq (encoder : Encoder) (htag : tag.wire ≠ some .any)
    (hvalue : value.Intact) :
    encoder.strictEncodeAt stop path record tag value =
      encoder.encodeAt path record tag value := by
  unfold Encoder.strictEncodeAt Encoder.encodeAt
  rw [PackedRecord.strictEncodeAt_eq stop path record encoder.settings htag hvalue]

end runs

end PackedRecord
