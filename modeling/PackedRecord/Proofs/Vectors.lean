import PackedRecord.Proofs.Steps
import PackedRecord.Proofs.Tagged

/-!
# Vectors in arrays of a given length

A vector whose tag gives the length of its array is encoded with zeros in the slots that it does
not fill, and an empty vector takes on the length of the array. `yields_of_packAs_vector` and
`accepts_decodeTagged_vector` say what is left of packing and unpacking then: the elements.
-/

namespace PackedRecord

/-- The encoder one step further down. -/
def encodeBelow (settings : Settings) : (room : Nat) → Option ChildEncoder
  | 0 => none
  | room + 1 => some (encodeIn settings room)

/-- The decoder one step further down. -/
def decodeBelow (schema : Schema) (settings : Settings) : (room : Nat) → Option ChildDecoder
  | 0 => none
  | room + 1 => some (decodeIn schema settings room)

/-- The encoder in so much room encodes a value given the one one step further down. -/
theorem encodeIn_eq (settings : Settings) (room : Nat) :
    encodeIn settings room = encodeWith settings (encodeBelow settings room) := by
  cases room <;> rfl

/-- The decoder in so much room decodes a value given the one one step further down. -/
theorem decodeIn_eq (schema : Schema) (settings : Settings) (room : Nat) :
    decodeIn schema settings room =
      decodeWith schema settings (decodeBelow schema settings room) := by
  cases room <;> rfl

/-- A record without a tag is encoded field by field. -/
theorem encodeTagged_record (settings : Settings) (layout : Layout) (values : List Value) :
    encodeTagged settings .empty (.record layout values) =
      encodeFields (encodeBelow settings (settings.limits.room .top)) .top ⟨layout, values⟩ 0
        layout.fields := by
  have hplan : Plan.resolve .top (.record layout values) .empty none =
      .ok ⟨.struct, false, none, none, 0, none⟩ := rfl
  rw [encodeTagged, hplan, Emission.ofExcept_ok_bind, encodeValue, encodeIn_eq]
  rfl

/-- A record without a tag is decoded field by field. -/
theorem decodeTagged_record (schema : Schema) (settings : Settings) (layout : Layout)
    (values : List Value) :
    decodeTagged schema settings .empty (.record layout values) =
      (decodeFields (decodeBelow schema settings (settings.limits.room .top)) .top layout 0
        layout.fields values).within (.record layout) := by
  have hplan : Plan.resolve .top (.record layout values) .empty none =
      .ok ⟨.struct, false, none, none, 0, none⟩ := rfl
  rw [decodeTagged, hplan]
  show decodeIn schema settings (settings.limits.room .top) .top (.record layout values)
    ⟨.struct, false, none, none, 0, none⟩ = _
  rw [decodeIn_eq]
  rfl

/-- A product of sizes that is not cut down. -/
theorem sizeMul_of_lt {m n : Nat} (h : sizeMul m n < sizeMax) : sizeMul m n = m * n := by
  unfold sizeMul at h ⊢
  omega

/-- The bytes cut off at `length`, or filled up to it with zeros. -/
def Bytes.resized (length : Nat) (data : Bytes) : Bytes :=
  data.take length ++ zeros (length - data.length)

/-- Resized bytes are as many as asked for. -/
@[simp] theorem Bytes.length_resized (length : Nat) (data : Bytes) :
    (data.resized length).length = length := by
  simp only [resized, List.length_append, List.length_take, length_zeros]
  omega

/-- Elements that are made from bytes are resized as these bytes are. -/
theorem resized_map (wrap : UInt8 → Value) (length : Nat) (data : Bytes) :
    PackedRecord.resized (wrap 0) length (data.map wrap) = (data.resized length).map wrap := by
  rw [PackedRecord.resized, Bytes.resized, List.map_append, List.map_take, List.length_map,
    Bytes.zeros, List.map_replicate]

/-- A vector becomes as long as there are slots before its elements are decoded, so that there is a
place for each of them. -/
theorem decodeArray_vector (schema : Schema) (settings : Settings) (child : Option ChildDecoder)
    (path : Path) (plan : Plan) (element : HostType) (items : List Value) :
    decodeArray schema settings child path (.sequence .growable element items) plan =
      match settings.limits.checkCollect path (plan.arrayLength.getD items.length) with
      | .error error => .fail error (.sequence .growable element items)
      | .ok () =>
          (decodeItems child path plan element
            (resized (schema.default element) (plan.arrayLength.getD items.length) items)).within
              (.sequence .growable element) := by
  show (decodeSequence schema settings child path plan .growable element items).within _ = _
  unfold decodeSequence
  generalize plan.arrayLength.getD items.length = slots
  have hlength := length_resized (schema.default element) slots items
  simp only [if_true, List.take_of_length_le hlength.le, List.drop_of_length_le hlength.le,
    List.append_nil, hlength, discardSlots, le_refl]
  cases settings.limits.checkCollect path slots with
  | error error => rfl
  | ok =>
      show (Intake.within (fun items => items) _ >>= Intake.done).within _ = _
      rw [Intake.bind_done]
      exact Intake.bimap_bimap _ _ _ _ _

/-- The size expression that is a literal. -/
def SizeExpr.ofNat (n : Nat) : SizeExpr :=
  ⟨toString n, [⟨false, .literal n⟩]⟩

namespace Plan

/-- The plan is that of a value by itself, not behind references. -/
structure IsDirect (plan : Plan) : Prop where
  not_pad : plan.wire ≠ .pad
  not_ignore : plan.wire ≠ .ignore
  indirection_eq : plan.indirection = 0

variable {plan : Plan}

/-- A value behind no reference is encoded as an array or as it is. -/
theorem IsDirect.encodeWith_eq (h : plan.IsDirect) (settings : Settings)
    (child : Option ChildEncoder) (path : Path) (value : Value) :
    encodeWith settings child path value plan =
      if plan.isArray then encodeArray child path value plan
      else encodeLeaf settings child path value plan := by
  rw [encodeWith_coded h.not_pad h.not_ignore, h.indirection_eq, Value.strip]

/-- A value behind no reference is decoded as an array or as it is. -/
theorem IsDirect.decodeWith_eq (h : plan.IsDirect) (schema : Schema) (settings : Settings)
    (child : Option ChildDecoder) (path : Path) (value : Value) :
    decodeWith schema settings child path value plan =
      if plan.isArray then decodeArray schema settings child path value plan
      else decodeLeaf settings child path value plan := by
  rw [decodeWith_coded h.not_pad h.not_ignore, h.indirection_eq, decodeBehind]

/-- The tag codes vectors of the element type by the plan, as arrays of `slots` elements. -/
structure CodesVectors (plan : Plan) (tag : Tag) (element : HostType) (slots : Nat) : Prop
    extends plan.IsDirect where
  resolve_eq : ∀ items,
    resolve .top (.sequence .growable element items) tag none = .ok plan
  isArray_eq : plan.isArray = true
  arrayLength_eq : plan.arrayLength = some slots

end Plan

section vector

variable {packer : Packer} {schema : Schema} {order : ByteOrder} {plan : Plan} {tag : Tag}
  {element : HostType} {slots : Nat} {items : List Value} {bytes : Bytes}

/-- A packed vector is its elements, and zeros for the other slots. -/
theorem yields_of_packAs_vector (hplan : plan.CodesVectors tag element slots)
    (hpack : packer.packAs order tag (.sequence .growable element items) = .ok bytes) :
    items.length ≤ slots ∧
    ∃ front last, (encodeItems
        (encodeBelow (packer.settings order) (packer.limits.room .top)) .top plan
        ⟨items, Value.bytes? element items, element.natural⟩).Yields front last ∧
      bytes = front ++ Bytes.zeros (sizeMul (slots - items.length)
        ((plan.bufferLength <|> last).getD (staticSize plan.wire element.natural))) := by
  have hyields := Packer.yields_of_packAs hpack
  rw [encodeTagged, hplan.resolve_eq, Emission.ofExcept_ok_bind, encodeValue, encodeIn_eq,
    hplan.encodeWith_eq, if_pos hplan.isArray_eq] at hyields
  have hof : Elements.of .top (.sequence .growable element items) plan.wire =
      .ok ⟨items, Value.bytes? element items, element.natural⟩ := rfl
  have hparts := yields_encodeArray hof hyields
  rw [hplan.arrayLength_eq] at hparts
  exact hparts

/-- An empty vector takes as many elements as its plan says. -/
theorem accepts_decodeIn_vector {settings : Settings} {room : Nat} {path : Path}
    (hdirect : plan.IsDirect) (harray : plan.isArray = true)
    (hlength : plan.arrayLength = some slots) (hcollect : slots ≤ settings.limits.collect)
    (h : (decodeItems (decodeBelow schema settings room) path plan element
      (List.replicate slots (schema.default element))).Accepts bytes items) :
    (decodeIn schema settings room path (.sequence .growable element []) plan).Accepts bytes
      (.sequence .growable element items) := by
  have hplaces : resized (schema.default element) slots [] =
      List.replicate slots (schema.default element) := by
    rw [resized, List.take_nil, List.nil_append, List.length_nil, Nat.sub_zero]
  have hcheck : settings.limits.checkCollect path slots = .ok () := if_pos hcollect
  rw [decodeIn_eq, hdirect.decodeWith_eq, if_pos harray, decodeArray_vector, hlength,
    Option.getD_some, hcheck, hplaces]
  exact h.bimap _ _

/-- An empty vector under a tag takes as many elements as there are slots. -/
theorem accepts_decodeTagged_vector (hplan : plan.CodesVectors tag element slots)
    (hcollect : slots ≤ packer.limits.collect)
    (h : (decodeItems (decodeBelow schema (packer.settings order) (packer.limits.room .top)) .top
      plan element (List.replicate slots (schema.default element))).Accepts bytes items) :
    (decodeTagged schema (packer.settings order) tag (.sequence .growable element [])).Accepts bytes
      (.sequence .growable element items) := by
  rw [decodeTagged, hplan.resolve_eq]
  exact accepts_decodeIn_vector hplan.toIsDirect hplan.isArray_eq hplan.arrayLength_eq hcollect h

/-- Bytes that lack some at the end are too few. -/
theorem Packer.unpackAs_of_accepts_append {value left : Value} {missing : Bytes}
    (h : (decodeTagged schema (packer.settings order) tag value).Accepts (bytes ++ missing) left)
    (hmissing : missing ≠ []) :
    ∃ path value', packer.unpackAs schema order tag bytes value =
      ⟨value', .error (if bytes = [] then .endOfStream else .located path .unexpectedEnd)⟩ := by
  have hshort : bytes.length < (bytes ++ missing).length := by
    rw [List.length_append]
    have := List.length_pos_iff.2 hmissing
    omega
  obtain ⟨path, value', hunpack⟩ := Packer.unpackAs_take_of_accepts h hshort
  rw [List.take_left] at hunpack
  refine ⟨path, value', ?_⟩
  rw [hunpack]
  simp only [List.length_eq_zero_iff]

end vector

end PackedRecord
