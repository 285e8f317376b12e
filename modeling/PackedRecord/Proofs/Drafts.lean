import PackedRecord.Proofs.FirstFailure

/-!
# Encodings without a byte order

A draft is what the encoder makes of a value before a byte order is chosen: numbers stand in it as
such, between bytes that no byte order changes. Numbers are the scalars and the length fields of
strings. `encodeTagged_eq_inOrder` says that encoding writes the draft of a value in its byte order.
-/

namespace PackedRecord

/-- A part of an encoding: a number of so many bytes, or bytes that no byte order changes. -/
inductive Mark where
  | number (width : Nat) (image : UInt64)
  | plain (chunk : Chunk)
  deriving DecidableEq, Repr

namespace Mark

/-- The part as it is written in a byte order. -/
def chunk (order : ByteOrder) : Mark → Chunk
  | number width image => .data (order.bytes width image.toNat)
  | plain content => content

/-- The number of bytes of the part. -/
def size : Mark → Nat
  | number width _ => width
  | plain content => content.size

/-- A mark takes the same number of bytes in either order. -/
@[simp] theorem size_chunk (order : ByteOrder) (mark : Mark) :
    (mark.chunk order).size = mark.size := by
  cases mark with
  | number width image => exact order.length_bytes width image.toNat
  | plain content => rfl

end Mark

/-- A part of an encoding and the place of the value that it is for. -/
structure Entry where
  path : Path
  mark : Mark
  deriving DecidableEq, Repr

/-- The part as it is written in a byte order. -/
def Entry.write (order : ByteOrder) (entry : Entry) : Write :=
  ⟨entry.path, entry.mark.chunk order⟩

/-- The parts of an encoding, and the result or the error after them. -/
structure Draft (α : Type) where
  entries : List Entry
  outcome : Except Error α

namespace Draft

variable {α β : Type}

/-- The draft without parts that ends with `result`. -/
def ofExcept (result : Except Error α) : Draft α := ⟨[], result⟩

/-- The draft without parts that fails. -/
def fail (error : Error) : Draft α := ofExcept (.error error)

/-- One draft after another. -/
def bind (first : Draft α) (next : α → Draft β) : Draft β :=
  match first.outcome with
  | .error error => ⟨first.entries, .error error⟩
  | .ok result =>
      let following := next result
      ⟨first.entries ++ following.entries, following.outcome⟩

instance : Monad Draft where
  pure result := ofExcept (.ok result)
  bind := bind

/-- A single part. -/
def entry (path : Path) (mark : Mark) : Draft Unit := ⟨[⟨path, mark⟩], .ok ()⟩

/-- The same draft with its number of bytes as the result. -/
def sized (draft : Draft α) : Draft Nat :=
  ⟨draft.entries, draft.outcome.map fun _ => (draft.entries.map (·.mark.size)).sum⟩

/-- What is written of a draft in a byte order. -/
def inOrder (order : ByteOrder) (draft : Draft α) : Emission α :=
  ⟨draft.entries.map (Entry.write order), draft.outcome⟩

section inOrder

variable (order : ByteOrder)

/-- A bare result is the same in either order. -/
@[simp] theorem inOrder_ofExcept (result : Except Error α) :
    (ofExcept result).inOrder order = .ofExcept result := rfl

/-- The pure draft is written as the pure emission. -/
@[simp] theorem inOrder_pure (result : α) :
    (pure result : Draft α).inOrder order = pure result := rfl

/-- A plain part is written as it is, in either order. -/
@[simp] theorem inOrder_plain (path : Path) (chunk : Chunk) :
    (entry path (.plain chunk)).inOrder order = .write path chunk := rfl

/-- Drafts after one another are written after one another. -/
@[simp] theorem inOrder_bind (first : Draft α) (next : α → Draft β) :
    (first >>= next).inOrder order =
      first.inOrder order >>= fun result => (next result).inOrder order := by
  obtain ⟨entries, outcome⟩ := first
  cases outcome with
  | error error => rfl
  | ok result =>
      simp only [Bind.bind, bind, inOrder, Emission.bind, List.map_append]

/-- The size of a draft is the size of what is written of it. -/
@[simp] theorem inOrder_sized (draft : Draft α) :
    draft.sized.inOrder order = (draft.inOrder order).sized := by
  simp only [sized, inOrder, Emission.sized, Emission.size, List.map_map, Function.comp_def,
    Entry.write, Mark.size_chunk]

end inOrder

end Draft

/-- Drafts the low `width` bytes of an image. -/
def draftImage (path : Path) (width : Nat) (image : UInt64) : Draft Unit :=
  if isScalarWidth width then .entry path (.number width image)
  else .fail (.broken (.scalarWidth width))

/-- Drafts a string in its frame. -/
def TextFrame.draft (path : Path) (frame : TextFrame) (data : Bytes) : Draft Unit := do
  match frame.lengthSize with
  | none => pure ()
  | some size => draftImage path size (UInt64.ofNat data.length)
  Draft.entry path (.plain (.data data))
  Draft.entry path (.plain (.zeros (frame.bufferSize - data.length)))

/-- Drafts a string. Its text codec has an order of its own. -/
def draftText (settings : Settings) (path : Path) (plan : Plan) (text : String) : Draft Unit := do
  let data ← .ofExcept (settings.transcode Text.Codec.encode path plan.encoding
    (Text.Utf8.encode text))
  match TextFrame.of plan.wire plan.bufferLength data with
  | .error fault => .fail (.located path fault)
  | .ok frame => frame.draft path data

/-- A draft for the values one step further down. -/
abbrev ChildDraft := Path → Value → Plan → Draft Unit

/-- The encoder that writes drafts in a byte order. -/
def ChildDraft.encoder (order : ByteOrder) (child : ChildDraft) : ChildEncoder :=
  fun path value plan => (child path value plan).inOrder order

/-- Drafts a part of the value at `path`. -/
def Part.draft (child : Option ChildDraft) (path : Path) (part : Part) : Draft Unit :=
  match child with
  | none => .fail (.located path .recursionLimit)
  | some draft =>
      match part.planned with
      | .error error => .fail error
      | .ok none => pure ()
      | .ok (some (value, plan)) => draft (part.step :: path) value plan

/-- Drafts the elements of an array and gives the size of the last one; `last` is the size of the
one before them. -/
def draftElements (child : Option ChildDraft) (path : Path) :
    (last : Option Nat) → List Part → Draft (Option Nat)
  | last, [] => pure last
  | _, part :: parts => do
      let size ← (part.draft child path).sized
      draftElements child path (some size) parts

/-- Drafts the elements of an array, at once if they are bytes that are coded as bytes. -/
def draftItems (child : Option ChildDraft) (path : Path) (plan : Plan) (elements : Elements) :
    Draft (Option Nat) :=
  match elements.bytes with
  | some bytes =>
      if plan.wire = .byte ∨ plan.wire = .uint8 then do
        Draft.entry path (.plain (.data bytes))
        pure (some 1)
      else draftElements child path none (elementParts path plan 0 elements.items)
  | none => draftElements child path none (elementParts path plan 0 elements.items)

/-- Drafts a value as an array, with zeros in the slots that it does not fill. -/
def draftArray (child : Option ChildDraft) (path : Path) (value : Value) (plan : Plan) :
    Draft Unit := do
  let elements ← .ofExcept (Elements.of path value plan.wire)
  let length := elements.items.length
  let slots := plan.arrayLength.getD length
  if slots < length then .fail (.located path (.arrayTooLarge length slots))
  else
    let last ← draftItems child path plan elements
    let slotSize := (plan.bufferLength <|> last).getD (staticSize plan.wire elements.natural)
    if length < slots then .entry path (.plain (.zeros (sizeMul (slots - length) slotSize)))
    else pure ()

/-- Drafts a value that is no array. -/
def draftLeaf (settings : Settings) (child : Option ChildDraft) (path : Path) (value : Value)
    (plan : Plan) : Draft Unit :=
  let mismatch := Error.located path (.notEncodable (.mismatch value.typeName plan.wire))
  match value.target with
  | .record layout fields =>
      if plan.wire = .struct then
        (fieldParts path ⟨layout, fields⟩ 0 layout.fields).forM (·.draft child path)
      else .fail mismatch
  | .text text | .borrowedText text =>
      if plan.wire.isText then draftText settings path plan text else .fail mismatch
  | .scalar scalar =>
      if plan.wire.isNumeric then
        match scalar.toImage plan.wire with
        | .ok image => draftImage path plan.wire.byteSize image
        | .error fault => .fail (.located path fault.toFault)
      else .fail mismatch
  | _ => .fail mismatch

/-- Drafts a value, given the draft for the values one step further down. -/
def draftWith (settings : Settings) (child : Option ChildDraft) (path : Path) (value : Value)
    (plan : Plan) : Draft Unit :=
  match plan.wire with
  | .ignore => pure ()
  | .pad => .entry path (.plain (.zeros (plan.padLength value)))
  | _ =>
      match value.strip plan.indirection with
      | .error fault => .fail (.located path fault)
      | .ok content =>
          if plan.isArray then draftArray child path content plan
          else draftLeaf settings child path content plan

/-- Drafts a value below which there is room for so many steps. -/
def draftIn (settings : Settings) : (room : Nat) → Path → Value → Plan → Draft Unit
  | 0 => draftWith settings none
  | room + 1 => draftWith settings (some (draftIn settings room))

/-- The draft of a value with a tag that stands outside of any record. -/
def draftTagged (settings : Settings) (tag : Tag) (value : Value) : Draft Unit := do
  let plan ← .ofExcept (Plan.resolve .top value tag none)
  draftIn settings (settings.limits.room .top) .top value plan

section inOrder

variable (settings : Settings) (order : ByteOrder) (path : Path)

/-- A number is written as its draft in the byte order. -/
theorem emitImage_eq_inOrder (width : Nat) (image : UInt64) :
    emitImage { settings with order } path width image =
      (draftImage path width image).inOrder order := by
  simp only [emitImage, ByteOrder.put, draftImage]
  cases isScalarWidth width <;> rfl

/-- Only the length field of a frame depends on the byte order. -/
theorem TextFrame.emit_eq_inOrder (frame : TextFrame) (data : Bytes) :
    frame.emit { settings with order } path data = (frame.draft path data).inOrder order := by
  unfold emit TextFrame.draft
  cases frame.lengthSize with
  | none => simp only [Draft.inOrder_bind, Draft.inOrder_plain]
  | some size => simp only [Draft.inOrder_bind, Draft.inOrder_plain, emitImage_eq_inOrder]

/-- A string is written as its draft, and its text codec does not see the byte order. -/
theorem encodeText_eq_inOrder (plan : Plan) (text : String) :
    encodeText { settings with order } path plan text =
      (draftText settings path plan text).inOrder order := by
  simp only [encodeText, draftText, Draft.inOrder_bind, Draft.inOrder_ofExcept]
  refine bind_congr fun data => ?_
  cases TextFrame.of plan.wire plan.bufferLength data with
  | error fault => rfl
  | ok frame => exact frame.emit_eq_inOrder settings order path data

variable (child : Option ChildDraft)

/-- A part of an array is written as its draft if its elements are. -/
theorem Part.encode_eq_inOrder (part : Part) :
    part.encode (child.map (·.encoder order)) path = (part.draft child path).inOrder order := by
  cases child with
  | none => rfl
  | some draft =>
      simp only [Part.encode, descend, Option.map_some, pure_bind, Part.draft]
      cases part.planned with
      | error error => rfl
      | ok planned => cases planned <;> rfl

/-- The parts of an array are written as their drafts, one after the other. -/
theorem forM_encode_eq_inOrder (parts : List Part) :
    parts.forM (·.encode (child.map (·.encoder order)) path) =
      (parts.forM (·.draft child path)).inOrder order := by
  induction parts with
  | nil => rfl
  | cons part parts ih =>
      show Part.encode _ path part >>= (fun _ => parts.forM _) =
        (Part.draft child path part >>= fun _ => parts.forM _).inOrder order
      rw [Draft.inOrder_bind, Part.encode_eq_inOrder, ih]

/-- The elements of an array are written as the drafts of their parts. -/
theorem encodeElements_eq_inOrder (plan : Plan) (index : Nat) (last : Option Nat)
    (items : List Value) :
    encodeElements (child.map (·.encoder order)) path plan index last items =
      (draftElements child path last (elementParts path plan index items)).inOrder order := by
  induction items generalizing index last with
  | nil => rfl
  | cons item items ih =>
      rw [encodeElements_cons, elementParts, draftElements, Draft.inOrder_bind,
        Draft.inOrder_sized, Part.encode_eq_inOrder]
      exact bind_congr fun size => ih (index + 1) (some size)

/-- What an array stores is written as its draft, and so is what it is padded with. -/
theorem encodeItems_eq_inOrder (plan : Plan) (elements : Elements) :
    encodeItems (child.map (·.encoder order)) path plan elements =
      (draftItems child path plan elements).inOrder order := by
  unfold encodeItems draftItems
  cases elements.bytes with
  | none => exact encodeElements_eq_inOrder order path child plan 0 none elements.items
  | some bytes =>
      by_cases hwire : plan.wire = .byte ∨ plan.wire = .uint8
      · simp only [if_pos hwire, Draft.inOrder_bind, Draft.inOrder_plain, Draft.inOrder_pure]
      · simp only [if_neg hwire]
        exact encodeElements_eq_inOrder order path child plan 0 none elements.items

/-- A whole array is written as its draft, whatever value stands in it. -/
theorem encodeArray_eq_inOrder (value : Value) (plan : Plan) :
    encodeArray (child.map (·.encoder order)) path value plan =
      (draftArray child path value plan).inOrder order := by
  rw [encodeArray_eq, draftArray, Draft.inOrder_bind, Draft.inOrder_ofExcept]
  refine bind_congr fun elements => ?_
  dsimp only
  split
  · rfl
  · rw [Draft.inOrder_bind, encodeItems_eq_inOrder]
    refine bind_congr fun last => ?_
    split <;> rfl

/-- A value without an array is written as its draft if its fields are. -/
theorem encodeLeaf_eq_inOrder (value : Value) (plan : Plan) :
    encodeLeaf { settings with order } (child.map (·.encoder order)) path value plan =
      (draftLeaf settings child path value plan).inOrder order := by
  unfold encodeLeaf draftLeaf
  cases value.target with
  | record layout fields =>
      simp only [encodeFields_eq, forM_encode_eq_inOrder]
      split <;> rfl
  | text text | borrowedText text =>
      simp only [encodeText_eq_inOrder]
      split <;> rfl
  | scalar scalar =>
      simp only [emitImage_eq_inOrder]
      split
      · cases scalar.toImage plan.wire <;> rfl
      · rfl
  | sequence | optional | dynamic | pointer | foreign => rfl

/-- A value that is neither padding nor ignored is drafted without its references. -/
theorem draftWith_coded {plan : Plan} (hpad : plan.wire ≠ .pad) (hignore : plan.wire ≠ .ignore)
    (value : Value) :
    draftWith settings child path value plan =
      match value.strip plan.indirection with
      | .error fault => .fail (.located path fault)
      | .ok content =>
          if plan.isArray then draftArray child path content plan
          else draftLeaf settings child path content plan := by
  unfold draftWith
  split
  · exact absurd ‹_› hignore
  · exact absurd ‹_› hpad
  · rfl

/-- A value is written as its draft if the values one step further down are. -/
theorem encodeWith_eq_inOrder (value : Value) (plan : Plan) :
    encodeWith { settings with order } (child.map (·.encoder order)) path value plan =
      (draftWith settings child path value plan).inOrder order := by
  by_cases hignore : plan.wire = .ignore
  · simp only [encodeWith, draftWith, hignore, Draft.inOrder_pure]
  by_cases hpad : plan.wire = .pad
  · simp only [encodeWith, draftWith, hpad, Draft.inOrder_plain]
  rw [encodeWith_coded hpad hignore, draftWith_coded settings path child hpad hignore]
  cases value.strip plan.indirection with
  | error fault => rfl
  | ok content =>
      simp only [encodeArray_eq_inOrder, encodeLeaf_eq_inOrder]
      split <;> rfl

end inOrder

/-- What the encoder writes of a value, at any depth, is the draft of it in its byte order. -/
theorem encodeIn_eq_inOrder (settings : Settings) (order : ByteOrder) (room : Nat) (path : Path)
    (value : Value) (plan : Plan) :
    encodeIn { settings with order } room path value plan =
      (draftIn settings room path value plan).inOrder order := by
  induction room generalizing path value plan with
  | zero => exact encodeWith_eq_inOrder settings order path none value plan
  | succ room ih =>
      have hchild : encodeIn { settings with order } room =
          ChildDraft.encoder order (draftIn settings room) := by
        funext path value plan
        exact ih path value plan
      rw [encodeIn, hchild, draftIn]
      exact encodeWith_eq_inOrder settings order path (some (draftIn settings room)) value plan

/-- Encoding writes the draft of a value in its byte order. -/
theorem encodeTagged_eq_inOrder (settings : Settings) (order : ByteOrder) (tag : Tag)
    (value : Value) :
    encodeTagged { settings with order } tag value =
      (draftTagged settings tag value).inOrder order := by
  rw [encodeTagged, draftTagged, Draft.inOrder_bind, Draft.inOrder_ofExcept]
  exact bind_congr fun plan => encodeIn_eq_inOrder settings order _ .top value plan

end PackedRecord
