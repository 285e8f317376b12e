import PackedRecord.Decode.Text
import PackedRecord.Host.Access

/-!
# Decoding values

The decoder walks a destination as its plan says and puts what it reads into it. Where it stops
with an error, the destination keeps what was put into it before. Each step into a record or an
array takes one step of the room that the recursion limit leaves, and on that the recursion
descends.
-/

namespace PackedRecord

/-- A decoder into the values one step further down. -/
abbrev ChildDecoder := Path → Value → Plan → Intake Value Value

/-- Lets `decode` work on the value behind `levels` references. An empty optional is filled with
the default of its type first; a dynamic reference has to hold a value. -/
def decodeBehind (schema : Schema) (path : Path) (decode : Value → Intake Value Value) :
    (levels : Nat) → Value → Intake Value Value
  | 0, value => decode value
  | levels + 1, value =>
      let unsettable : Intake Value Value := .fail (.located path .cannotSet) value
      if value.isReadOnly then unsettable
      else
        match value.target with
        | .optional type content =>
            (decodeBehind schema path decode levels (content.getD (schema.default type))).within
              fun filled => value.withTarget (.optional type (some filled))
        | .dynamic (some content) =>
            (decodeBehind schema path decode levels content).within
              fun filled => value.withTarget (.dynamic (some filled))
        | _ => unsettable

/-- Decodes into the element at `index`. -/
def decodeElement (child : Option ChildDecoder) (path : Path) (plan : Plan) (index : Nat)
    (item : Value) : Intake Value Value :=
  match child with
  | none => .fail (.located path .recursionLimit) item
  | some decode =>
      let itemPath := Step.index index :: path
      match plan.element itemPath item with
      | .error error => .fail error item
      | .ok itemPlan => decode itemPath item itemPlan

/-- Decodes into the elements from `index` on; `decoded` are those before them, in reverse. -/
def decodeElements (child : Option ChildDecoder) (path : Path) (plan : Plan) :
    (index : Nat) → (decoded : List Value) → List Value → Intake (List Value) (List Value)
  | _, decoded, [] => .done decoded.reverse
  | index, decoded, item :: items => do
      let item ← (decodeElement child path plan index item).bimap
        (fun item => decoded.reverseAux (item :: items)) id
      decodeElements child path plan (index + 1) (item :: decoded) items

/-- Decodes into the elements of a sequence. Elements of the type of bytes are read at once if they
are coded as bytes; if there are too few bytes, those that there are count. -/
def decodeItems (child : Option ChildDecoder) (path : Path) (plan : Plan) (element : HostType)
    (items : List Value) : Intake (List Value) (List Value) :=
  if element = .byte ∧ (plan.wire = .byte ∨ plan.wire = .uint8) then
    .read path items.length
      (fun bytes => bytes.map Value.ofByte ++ items.drop bytes.length)
      (fun bytes => .done (bytes.map Value.ofByte))
  else decodeElements child path plan 0 [] items

/-- Decodes `count` elements from `index` on into one and the same scratch value. -/
def discardElements (child : Option ChildDecoder) (path : Path) (plan : Plan) :
    (count index : Nat) → (scratch : Value) → Intake Unit Unit
  | 0, _, _ => .done ()
  | count + 1, index, scratch => do
      let scratch ← Intake.leaving () (decodeElement child path plan index scratch)
      discardElements child path plan count (index + 1) scratch

/-- Whether the plan alone says how many bytes the value takes. -/
def Plan.isFixedSize (plan : Plan) : Bool :=
  0 < plan.wire.byteSize && !plan.isArray && plan.indirection == 0

/-- Passes over the slots of an array from `stored` on, for which the destination has no place.
Slots of a fixed size are skipped, others are decoded into a scratch value. -/
def discardSlots (child : Option ChildDecoder) (path : Path) (plan : Plan) (scratch : Value)
    (stored slots : Nat) : Intake Unit Unit :=
  if slots ≤ stored then .done ()
  else if child.isNone then .fail (.located path .recursionLimit) ()
  else
    match plan.element (.index stored :: path) scratch with
    | .error error => .fail error ()
    | .ok itemPlan =>
        if itemPlan.isFixedSize then
          Intake.skip path (sizeMul itemPlan.wire.byteSize (slots - stored))
        else discardElements child path plan (slots - stored) stored scratch

/-- Decodes into a sequence. A growable one takes on the length of the array; one of a fixed length
takes as many elements as it has places for. -/
def decodeSequence (schema : Schema) (settings : Settings) (child : Option ChildDecoder)
    (path : Path) (plan : Plan) (kind : SequenceKind) (element : HostType) (items : List Value) :
    Intake (List Value) (List Value) :=
  let slots := plan.arrayLength.getD items.length
  match settings.limits.checkCollect path slots with
  | .error error => .fail error items
  | .ok () => do
      let fresh := schema.default element
      let places := if kind = .growable then resized fresh slots items else items
      let beyond := places.drop slots
      let decoded ← (decodeItems child path plan element (places.take slots)).within (· ++ beyond)
      Intake.leaving decoded (discardSlots child path plan fresh places.length slots)
      pure decoded

/-- Decodes a string from an array of numbers, of `current` bytes unless the plan says how many. -/
def decodeNumbersAsText (settings : Settings) (child : Option ChildDecoder) (path : Path)
    (plan : Plan) (current : Nat) : Intake Unit String := do
  let slots := plan.arrayLength.getD current
  .ofExcept () (settings.limits.checkCollect path slots)
  let items ← Intake.leaving () (decodeItems child path plan .byte
    (List.replicate slots (Value.ofByte 0)))
  .ofExcept () (textOfBytes path (items.filterMap Value.byte?))

/-- Puts a decoded string into a destination. -/
def putText (path : Path) (destination : Value) (intake : Intake Unit String) :
    Intake Value Value := do
  let text ← Intake.leaving destination intake
  if destination.isReadOnly then .fail (.located path .cannotSet) destination
  else pure (destination.withTarget (.text text))

/-- Where the surplus elements of an array go whose first one goes into `value`. -/
def Value.scratch (value : Value) : Value :=
  match value.target with
  | .text _ | .borrowedText _ => .text ""
  | content => content

/-- Decodes the first element of an array into a value that is no sequence, and passes over the
other ones. -/
def decodeSingle (child : Option ChildDecoder) (path : Path) (value : Value) (plan : Plan) :
    Intake Value Value :=
  match plan.arrayLength.getD 1 with
  | 0 => .done value
  | slots => do
      let decoded ← decodeElement child path plan 0 value
      Intake.leaving decoded (discardSlots child path plan value.scratch 1 slots)
      pure decoded

/-- Decodes an array into a value. -/
def decodeArray (schema : Schema) (settings : Settings) (child : Option ChildDecoder)
    (path : Path) (value : Value) (plan : Plan) : Intake Value Value :=
  match value.target with
  | .record _ _ => .fail (.located path .notAnArray) value
  | .sequence kind element items =>
      if value.isReadOnly then .fail (.located path .cannotSet) value
      else
        (decodeSequence schema settings child path plan kind element items).within
          fun items => value.withTarget (.sequence kind element items)
  | .text text | .borrowedText text =>
      if plan.wire.isNumeric then
        putText path value (decodeNumbersAsText settings child path plan text.utf8ByteSize)
      else decodeSingle child path value plan
  | _ => decodeSingle child path value plan

/-- Decodes into the field at `index` of a record and gives the values of all its fields. -/
def decodeField (child : Option ChildDecoder) (path : Path) (record : Record) (index : Nat)
    (field : FieldLayout) : Intake (List Value) (List Value) :=
  if ¬field.exported then .done record.fields
  else
    match child with
    | none => .fail (.located path .recursionLimit) record.fields
    | some decode =>
        let fieldPath := Step.field field.name :: path
        match field.tag with
        | .error error => .fail (.located fieldPath (.tag error)) record.fields
        | .ok tag =>
            if tag.wire = some .ignore then .done record.fields
            else
              match record.field index with
              | .error defect => .fail (.broken defect) record.fields
              | .ok value =>
                  match Plan.resolve fieldPath value tag (some record) with
                  | .error error => .fail error record.fields
                  | .ok plan => (decode fieldPath value plan).within (record.fields.set index)

/-- Decodes into the fields of a record from `index` on. The tag of a field sees what was decoded
into the fields before it. -/
def decodeFields (child : Option ChildDecoder) (path : Path) (layout : Layout) :
    (index : Nat) → List FieldLayout → (values : List Value) → Intake (List Value) (List Value)
  | _, [], values => .done values
  | index, field :: fields, values => do
      let values ← decodeField child path ⟨layout, values⟩ index field
      decodeFields child path layout (index + 1) fields values

/-- Decodes into a scalar. -/
def decodeScalar (settings : Settings) (path : Path) (wire : WireType) (type : ScalarType) :
    Intake Unit Scalar := do
  let image ← readImage settings path wire.byteSize
  match type.ofImage wire image with
  | .ok scalar => pure scalar
  | .error fault => .fail (.located path fault.toFault) ()

/-- Decodes into a value that is no array. -/
def decodeLeaf (settings : Settings) (child : Option ChildDecoder) (path : Path) (value : Value)
    (plan : Plan) : Intake Value Value :=
  let mismatch : Intake Value Value :=
    .fail (.located path (.notEncodable (.mismatch value.typeName plan.wire))) value
  if value.isReadOnly then .fail (.located path .cannotSet) value
  else
    match value.target with
    | .record layout fields =>
        if plan.wire = .struct then
          (decodeFields child path layout 0 layout.fields fields).within
            fun fields => value.withTarget (.record layout fields)
        else mismatch
    | .text text =>
        if plan.wire.isText then
          putText path value (decodeText settings path plan text.utf8ByteSize)
        else mismatch
    | .scalar scalar =>
        if plan.wire.isNumeric then do
          let decoded ← Intake.leaving value (decodeScalar settings path plan.wire scalar.type)
          pure (value.withTarget (.scalar decoded))
        else mismatch
    | _ => mismatch

/-- Decodes into a value, given the decoder into the values one step further down. -/
def decodeWith (schema : Schema) (settings : Settings) (child : Option ChildDecoder)
    (path : Path) (value : Value) (plan : Plan) : Intake Value Value :=
  match plan.wire with
  | .ignore => .done value
  | .pad => do
      Intake.leaving value (Intake.skip path (plan.padLength value))
      pure value
  | _ =>
      decodeBehind schema path
        (fun content =>
          if plan.isArray then decodeArray schema settings child path content plan
          else decodeLeaf settings child path content plan)
        plan.indirection value

/-- Decodes into a value below which there is room for so many steps. -/
def decodeIn (schema : Schema) (settings : Settings) :
    (room : Nat) → Path → Value → Plan → Intake Value Value
  | 0 => decodeWith schema settings none
  | room + 1 => decodeWith schema settings (some (decodeIn schema settings room))

/-- Decodes into the value at `path` as its plan says. -/
def decodeValue (schema : Schema) (settings : Settings) (path : Path) (value : Value)
    (plan : Plan) : Intake Value Value :=
  decodeIn schema settings (settings.limits.room path) path value plan

end PackedRecord
