import PackedRecord.Encode.Text

/-!
# Encoding values

The encoder walks a value as its plan says: it strips references, takes arrays element by element
and records field by field, and writes scalars and strings. Each step into a record or an array
takes one step of the room that the recursion limit leaves, and on that the recursion descends.
-/

namespace PackedRecord

/-- An encoder of the values one step further down. -/
abbrev ChildEncoder := Path → Value → Plan → Emission Unit

/-- The encoder of the values below `path`, unless they lie too deep. -/
def descend (child : Option ChildEncoder) (path : Path) : Emission ChildEncoder :=
  match child with
  | some encode => pure encode
  | none => .fail (.located path .recursionLimit)

/-- The value behind `levels` references, none of which may be empty. -/
def Value.strip : (levels : Nat) → Value → Except Fault Value
  | 0, value => .ok value
  | levels + 1, value =>
      match value.target with
      | .optional _ (some content) | .dynamic (some content) => content.strip levels
      | .optional _ none | .dynamic none => .error .nullReference
      | _ => .ok value

/-- The elements of a value that is encoded as an array. -/
structure Elements where
  items : List Value
  /-- The elements as bytes, if they are of the type of bytes. -/
  bytes : Option Bytes
  /-- The natural representation of an element. -/
  natural : Natural

/-- The elements of a value as an array of the wire type. A string as an array of numbers is its
bytes, and any other value that is no sequence is a single element. -/
def Elements.of (path : Path) (value : Value) (wire : WireType) : Except Error Elements :=
  match value.target with
  | .record _ _ => .error (.located path .notAnArray)
  | .sequence _ element items => .ok ⟨items, Value.bytes? element items, element.natural⟩
  | .text text | .borrowedText text =>
      if wire.isNumeric then
        let bytes := Text.Utf8.encode text
        .ok ⟨bytes.map Value.ofByte, some bytes, HostType.byte.natural⟩
      else .ok ⟨[value], none, value.natural⟩
  | _ => .ok ⟨[value], none, value.natural⟩

/-- The encoded size of a value that is not there, as far as its natural representation tells. -/
def staticSize (wire : WireType) (natural : Natural) : Nat :=
  let size := (if wire = .any then natural.wire.getD .any else wire).byteSize
  if natural.isArray then sizeMul size (natural.length.getD 0) else size

/-- Encodes the elements from `index` on and gives the size of the last one; `last` is the size of
the one before them. -/
def encodeElements (child : Option ChildEncoder) (path : Path) (plan : Plan) :
    (index : Nat) → (last : Option Nat) → List Value → Emission (Option Nat)
  | _, last, [] => pure last
  | index, _, item :: items => do
      let encode ← descend child path
      let itemPath := Step.index index :: path
      let itemPlan ← .ofExcept (plan.element itemPath item)
      let size ← (encode itemPath item itemPlan).sized
      encodeElements child path plan (index + 1) (some size) items

/-- Encodes a value as an array, with zeros in the slots that it does not fill. Such a slot is as
large as the buffer length, the last element or the natural representation says. -/
def encodeArray (child : Option ChildEncoder) (path : Path) (value : Value) (plan : Plan) :
    Emission Unit := do
  let elements ← .ofExcept (Elements.of path value plan.wire)
  let length := elements.items.length
  let slots := plan.arrayLength.getD length
  if slots < length then .fail (.located path (.arrayTooLarge length slots))
  else
    let last ←
      match elements.bytes with
      | some bytes =>
          if plan.wire = .byte ∨ plan.wire = .uint8 then do
            Emission.write path (.data bytes)
            pure (some 1)
          else encodeElements child path plan 0 none elements.items
      | none => encodeElements child path plan 0 none elements.items
    let slotSize :=
      (plan.bufferLength <|> last).getD (staticSize plan.wire elements.natural)
    if length < slots then Emission.write path (.zeros (sizeMul (slots - length) slotSize))
    else pure ()

/-- Encodes the fields of a record from `index` on. -/
def encodeFields (child : Option ChildEncoder) (path : Path) (record : Record) :
    (index : Nat) → List FieldLayout → Emission Unit
  | _, [] => pure ()
  | index, field :: fields => do
      if field.exported then
        let encode ← descend child path
        let fieldPath := Step.field field.name :: path
        match field.tag with
        | .error error => .fail (.located fieldPath (.tag error))
        | .ok tag =>
            if tag.wire = some .ignore then pure ()
            else
              match record.field index with
              | .error defect => .fail (.broken defect)
              | .ok value =>
                  let plan ← .ofExcept (Plan.resolve fieldPath value tag (some record))
                  encode fieldPath value plan
      encodeFields child path record (index + 1) fields

/-- Encodes a value that is no array. -/
def encodeLeaf (settings : Settings) (child : Option ChildEncoder) (path : Path) (value : Value)
    (plan : Plan) : Emission Unit :=
  let mismatch := Error.located path (.notEncodable (.mismatch value.typeName plan.wire))
  match value.target with
  | .record layout fields =>
      if plan.wire = .struct then encodeFields child path ⟨layout, fields⟩ 0 layout.fields
      else .fail mismatch
  | .text text | .borrowedText text =>
      if plan.wire.isText then encodeText settings path plan text else .fail mismatch
  | .scalar scalar =>
      if plan.wire.isNumeric then
        match scalar.toImage plan.wire with
        | .ok image => emitImage settings path plan.wire.byteSize image
        | .error fault => .fail (.located path fault.toFault)
      else .fail mismatch
  | _ => .fail mismatch

/-- Encodes a value, given the encoder of the values one step further down. -/
def encodeWith (settings : Settings) (child : Option ChildEncoder) (path : Path) (value : Value)
    (plan : Plan) : Emission Unit :=
  match plan.wire with
  | .ignore => pure ()
  | .pad => .write path (.zeros (plan.padLength value))
  | _ =>
      match value.strip plan.indirection with
      | .error fault => .fail (.located path fault)
      | .ok content =>
          if plan.isArray then encodeArray child path content plan
          else encodeLeaf settings child path content plan

/-- Encodes a value below which there is room for so many steps. -/
def encodeIn (settings : Settings) : (room : Nat) → Path → Value → Plan → Emission Unit
  | 0 => encodeWith settings none
  | room + 1 => encodeWith settings (some (encodeIn settings room))

/-- Encodes the value at `path` as its plan says. -/
def encodeValue (settings : Settings) (path : Path) (value : Value) (plan : Plan) :
    Emission Unit :=
  encodeIn settings (settings.limits.room path) path value plan

end PackedRecord
