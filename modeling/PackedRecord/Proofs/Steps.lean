import PackedRecord.Decode.Value
import PackedRecord.Encode.Value
import PackedRecord.Proofs.Acceptance
import PackedRecord.Proofs.Yields

/-!
# The steps of the encoder and the decoder

What the encoder writes for an array and for the fields of a record, and what the decoder accepts
for them, taken apart into one element or field and the rest.
-/

namespace PackedRecord

namespace Value

/-- A scalar of the type of bytes is a byte. -/
theorem exists_ofByte {content : Scalar} (h : content.type = .int .u8) :
    ∃ byte, scalar content = ofByte byte := by
  cases content with
  | int content =>
      obtain ⟨type, number, hholds⟩ := content
      cases h
      have hbounds : 0 ≤ number ∧ number ≤ 255 := hholds
      have hbyte : ((UInt8.ofNat number.toNat).toNat : Int) = number := by
        rw [UInt8.toNat_ofNat', Nat.mod_eq_of_lt (by omega)]
        omega
      refine ⟨UInt8.ofNat number.toNat, ?_⟩
      simp only [ofByte, Scalar.ofByte, hbyte]
  | _ => cases h

/-- Scalars of the type of bytes are bytes. -/
theorem bytes?_of_bytes {items : List Value} (h : ∀ item ∈ items, ∃ byte, item = ofByte byte) :
    ∃ data, bytes? .byte items = some data ∧ items = data.map ofByte := by
  show ∃ data, items.mapM byte? = some data ∧ _
  induction items with
  | nil => exact ⟨[], rfl, rfl⟩
  | cons item items ih =>
      obtain ⟨byte, rfl⟩ := h item List.mem_cons_self
      obtain ⟨data, hdata, rfl⟩ := ih (fun item hitem => h item (List.mem_cons_of_mem _ hitem))
      refine ⟨byte :: data, ?_, rfl⟩
      have hbyte : (ofByte byte).byte? = some byte := Scalar.byte?_ofByte byte
      rw [List.mapM_cons, hbyte, hdata]
      rfl

end Value

/-- The first of the fields from `index` on is the one at `index`. -/
theorem Layout.fields_of_drop {layout : Layout} {index : Nat} {field : FieldLayout}
    {rest : List FieldLayout} (h : layout.fields.drop index = field :: rest) :
    layout.fields[index]? = some field ∧ layout.fields.drop (index + 1) = rest := by
  constructor
  · rw [← List.head?_drop, h, List.head?_cons]
  · rw [← List.tail_drop, h, List.tail_cons]

section encoder

variable {child : Option ChildEncoder} {path : Path} {plan : Plan} {bytes : Bytes}

/-- Going one step further down writes nothing, and needs an encoder there. -/
theorem yields_descend {encode : ChildEncoder} :
    (descend child path).Yields bytes encode ↔ bytes = [] ∧ child = some encode := by
  cases child with
  | none => simp [descend]
  | some other => simp [descend]

/-- The bytes of elements are those of the first one and of the other ones. -/
theorem yields_encodeElements_cons {index : Nat} {last last' : Option Nat} {item : Value}
    {items : List Value} :
    (encodeElements child path plan index last (item :: items)).Yields bytes last' ↔
      ∃ encode itemPlan front back, child = some encode ∧
        plan.element (.index index :: path) item = .ok itemPlan ∧
        (encode (.index index :: path) item itemPlan).Yields front () ∧
        (encodeElements child path plan (index + 1) (some front.length) items).Yields back last' ∧
        bytes = front ++ back := by
  rw [encodeElements]
  simp only [Emission.yields_bind, yields_descend, Emission.yields_ofExcept,
    Emission.yields_sized]
  constructor
  · rintro ⟨_, encode, _, rfl, ⟨rfl, hchild⟩, _, itemPlan, _, rfl, ⟨rfl, hplan⟩, front, size, back,
      rfl, ⟨_, hitem, rfl⟩, hrest⟩
    exact ⟨encode, itemPlan, front, back, hchild, hplan, hitem, hrest, rfl⟩
  · rintro ⟨encode, itemPlan, front, back, hchild, hplan, hitem, hrest, rfl⟩
    exact ⟨[], encode, _, rfl, ⟨rfl, hchild⟩, [], itemPlan, _, rfl, ⟨rfl, hplan⟩, front, _, back,
      rfl, ⟨(), hitem, rfl⟩, hrest⟩

/-- Encodes the elements of an array, at once if they are bytes that are coded as bytes. -/
def encodeItems (child : Option ChildEncoder) (path : Path) (plan : Plan) (elements : Elements) :
    Emission (Option Nat) :=
  match elements.bytes with
  | some bytes =>
      if plan.wire = .byte ∨ plan.wire = .uint8 then do
        Emission.write path (.data bytes)
        pure (some 1)
      else encodeElements child path plan 0 none elements.items
  | none => encodeElements child path plan 0 none elements.items

/-- An array is refused if it is too long, and otherwise its items are written and zeros
behind them. -/
theorem encodeArray_eq (child : Option ChildEncoder) (path : Path) (value : Value) (plan : Plan) :
    encodeArray child path value plan =
      .ofExcept (Elements.of path value plan.wire) >>= fun elements =>
        if plan.arrayLength.getD elements.items.length < elements.items.length then
          .fail (.located path (.arrayTooLarge elements.items.length
            (plan.arrayLength.getD elements.items.length)))
        else
          encodeItems child path plan elements >>= fun last =>
            if elements.items.length < plan.arrayLength.getD elements.items.length then
              Emission.write path (.zeros
                (sizeMul (plan.arrayLength.getD elements.items.length - elements.items.length)
                  ((plan.bufferLength <|> last).getD (staticSize plan.wire elements.natural))))
            else pure () := by
  unfold encodeArray
  congr 1
  funext elements
  by_cases hlong : plan.arrayLength.getD elements.items.length < elements.items.length
  · rw [if_pos hlong, if_pos hlong]
  · rw [if_neg hlong, if_neg hlong]
    -- The writing of bytes at once takes two steps, which the bind groups differently.
    cases hbytes : elements.bytes with
    | none => simp only [encodeItems, hbytes]
    | some bytes =>
        by_cases hwire : plan.wire = .byte ∨ plan.wire = .uint8
        · simp only [encodeItems, hbytes, if_pos hwire, bind_assoc]
        · simp only [encodeItems, hbytes, if_neg hwire]

/-- The bytes of an array are those of its elements, and zeros for the other slots. -/
theorem yields_encodeArray {value : Value} {elements : Elements}
    (hof : Elements.of path value plan.wire = .ok elements)
    (h : (encodeArray child path value plan).Yields bytes ()) :
    elements.items.length ≤ plan.arrayLength.getD elements.items.length ∧
    ∃ front last, (encodeItems child path plan elements).Yields front last ∧
      bytes = front ++ Bytes.zeros
        (sizeMul (plan.arrayLength.getD elements.items.length - elements.items.length)
          ((plan.bufferLength <|> last).getD (staticSize plan.wire elements.natural))) := by
  rw [encodeArray_eq, hof, Emission.ofExcept_ok_bind] at h
  split at h
  · exact (Emission.not_yields_fail h).elim
  next hfits =>
    obtain ⟨front, last, back, rfl, hfront, hback⟩ := Emission.yields_bind.1 h
    refine ⟨Nat.not_lt.1 hfits, front, last, hfront, ?_⟩
    split at hback
    next => rw [Emission.yields_write_zeros.1 hback]
    next hfull =>
      have hnone : plan.arrayLength.getD elements.items.length - elements.items.length = 0 := by
        omega
      rw [(Emission.yields_ofExcept.1 hback).1, hnone, sizeMul, Nat.zero_mul, Nat.min_zero,
        Bytes.zeros_zero]

/-- The bytes of an array without free slots are those of its elements. -/
theorem yields_encodeArray_full {value : Value} {elements : Elements}
    (hof : Elements.of path value plan.wire = .ok elements)
    (hslots : plan.arrayLength.getD elements.items.length = elements.items.length)
    (h : (encodeArray child path value plan).Yields bytes ()) :
    ∃ last, (encodeItems child path plan elements).Yields bytes last := by
  obtain ⟨-, front, last, hfront, hbytes⟩ := yields_encodeArray hof h
  rw [hslots, Nat.sub_self, sizeMul, Nat.zero_mul, Nat.min_zero, Bytes.zeros_zero,
    List.append_nil] at hbytes
  exact ⟨last, by rw [hbytes]; exact hfront⟩

/-- A value that is neither padding nor ignored is encoded without its references. -/
theorem encodeWith_coded (hpad : plan.wire ≠ .pad) (hignore : plan.wire ≠ .ignore)
    (settings : Settings) (value : Value) :
    encodeWith settings child path value plan =
      match value.strip plan.indirection with
      | .error fault => .fail (.located path fault)
      | .ok content =>
          if plan.isArray then encodeArray child path content plan
          else encodeLeaf settings child path content plan := by
  unfold encodeWith
  split
  · exact absurd ‹_› hignore
  · exact absurd ‹_› hpad
  · rfl

/-- Encodes the field at `index` of a record. -/
def encodeField (child : Option ChildEncoder) (path : Path) (record : Record) (index : Nat)
    (field : FieldLayout) : Emission Unit :=
  if field.exported then
    descend child path >>= fun encode =>
      match field.tag with
      | .error error => .fail (.located (.field field.name :: path) (.tag error))
      | .ok tag =>
          if tag.wire = some .ignore then pure ()
          else
            match record.field index with
            | .error defect => .fail (.broken defect)
            | .ok value =>
                .ofExcept (Plan.resolve (.field field.name :: path) value tag (some record)) >>=
                  encode (.field field.name :: path) value
  else pure ()

/-- The first field is encoded in front of the other ones. -/
theorem encodeFields_cons (child : Option ChildEncoder) (path : Path) (record : Record)
    (index : Nat) (field : FieldLayout) (fields : List FieldLayout) :
    encodeFields child path record index (field :: fields) =
      encodeField child path record index field >>= fun _ =>
        encodeFields child path record (index + 1) fields := by
  rw [encodeFields, encodeField]
  cases field.exported with
  | false => simp
  | true =>
      simp only [if_true, bind_assoc]
      congr 1
      funext encode
      cases field.tag with
      | error error => rfl
      | ok tag =>
          by_cases hignore : tag.wire = some .ignore
          · simp only [if_pos hignore, pure_bind]
          · simp only [if_neg hignore]
            cases record.field index with
            | error defect => rfl
            | ok value => simp only [bind_assoc]

/-- The bytes of the fields of a record are those of the first one and of the other ones. -/
theorem yields_encodeFields_cons {record : Record} {index : Nat} {field : FieldLayout}
    {fields : List FieldLayout} :
    (encodeFields child path record index (field :: fields)).Yields bytes () ↔
      ∃ front back, (encodeField child path record index field).Yields front () ∧
        (encodeFields child path record (index + 1) fields).Yields back () ∧
        bytes = front ++ back := by
  rw [encodeFields_cons, Emission.yields_bind]
  constructor
  · rintro ⟨front, _, back, rfl, hfield, hrest⟩
    exact ⟨front, back, hfield, hrest, rfl⟩
  · rintro ⟨front, back, hfield, hrest, rfl⟩
    exact ⟨front, (), back, rfl, hfield, hrest⟩

/-- The value of an exported field that is not ignored is encoded by its plan. -/
theorem yields_encodeField {record : Record} {index : Nat} {field : FieldLayout}
    (h : (encodeField child path record index field).Yields bytes ()) :
    (field.exported = false ∧ bytes = []) ∨
    ∃ encode tag, child = some encode ∧ field.exported = true ∧ field.tag = .ok tag ∧
      ((tag.wire = some .ignore ∧ bytes = []) ∨
        tag.wire ≠ some .ignore ∧ ∃ value plan, record.fields[index]? = some value ∧
          Plan.resolve (.field field.name :: path) value tag (some record) = .ok plan ∧
          (encode (.field field.name :: path) value plan).Yields bytes ()) := by
  unfold encodeField at h
  cases hexported : field.exported with
  | false =>
      rw [hexported] at h
      exact .inl ⟨rfl, (Emission.yields_ofExcept.1 h).1⟩
  | true =>
      rw [hexported, if_pos rfl, Emission.yields_bind] at h
      obtain ⟨_, encode, _, rfl, hdescend, h⟩ := h
      obtain ⟨rfl, hchild⟩ := yields_descend.1 hdescend
      refine .inr ⟨encode, ?_⟩
      cases htag : field.tag with
      | error error =>
          rw [htag] at h
          exact (Emission.not_yields_fail h).elim
      | ok tag =>
          rw [htag] at h
          refine ⟨tag, hchild, rfl, rfl, ?_⟩
          by_cases hignore : tag.wire = some .ignore
          · simp only [if_pos hignore] at h
            exact .inl ⟨hignore, (Emission.yields_ofExcept.1 h).1⟩
          · simp only [if_neg hignore, Record.field] at h
            cases hvalue : record.fields[index]? with
            | none =>
                rw [hvalue] at h
                exact (Emission.not_yields_fail h).elim
            | some value =>
                rw [hvalue] at h
                obtain ⟨_, plan, _, rfl, hresolve, hencode⟩ := Emission.yields_bind.1 h
                obtain ⟨rfl, hplan⟩ := Emission.yields_ofExcept.1 hresolve
                exact .inr ⟨hignore, value, plan, rfl, hplan, hencode⟩

end encoder

section decoder

variable {child : Option ChildDecoder} {path : Path} {plan : Plan} {bytes : Bytes}

/-- A value that is neither padding nor ignored is decoded behind its references. -/
theorem decodeWith_coded (hpad : plan.wire ≠ .pad) (hignore : plan.wire ≠ .ignore)
    (schema : Schema) (settings : Settings) (value : Value) :
    decodeWith schema settings child path value plan =
      decodeBehind schema path
        (fun content =>
          if plan.isArray then decodeArray schema settings child path content plan
          else decodeLeaf settings child path content plan)
        plan.indirection value := by
  unfold decodeWith
  split
  · exact absurd ‹_› hignore
  · exact absurd ‹_› hpad
  · rfl

/-- An element accepts what the decoder one step further down does by its plan. -/
theorem accepts_decodeElement {decode : ChildDecoder} {index : Nat} {item result : Value}
    {itemPlan : Plan} (hchild : child = some decode)
    (hplan : plan.element (.index index :: path) item = .ok itemPlan)
    (h : (decode (.index index :: path) item itemPlan).Accepts bytes result) :
    (decodeElement child path plan index item).Accepts bytes result := by
  subst hchild
  simp only [decodeElement, hplan]
  exact h

/-- The first element and the other ones accept their bytes one after the other. -/
theorem accepts_decodeElements_cons {index : Nat} {decoded items result : List Value}
    {item : Value} :
    (decodeElements child path plan index decoded (item :: items)).Accepts bytes result ↔
      ∃ front item' back, bytes = front ++ back ∧
        (decodeElement child path plan index item).Accepts front item' ∧
        (decodeElements child path plan (index + 1) (item' :: decoded) items).Accepts back
          result := by
  rw [decodeElements, Intake.accepts_bind]
  constructor
  · rintro ⟨front, _, back, rfl, hitem, hrest⟩
    obtain ⟨item', hplace, rfl⟩ := Intake.accepts_bimap.1 hitem
    exact ⟨front, item', back, rfl, hplace, hrest⟩
  · rintro ⟨front, item', back, rfl, hitem, hrest⟩
    exact ⟨front, item', back, rfl, hitem.bimap _ _, hrest⟩

/-- Elements in two parts accept the bytes of the parts, one after the other. -/
theorem accepts_decodeElements_append {index : Nat} {decoded first second result : List Value} :
    (decodeElements child path plan index decoded (first ++ second)).Accepts bytes result ↔
      ∃ front middle back, bytes = front ++ back ∧
        (decodeElements child path plan index decoded first).Accepts front middle ∧
        (decodeElements child path plan (index + first.length) middle.reverse second).Accepts back
          result := by
  induction first generalizing index decoded bytes with
  | nil =>
      constructor
      · intro h
        refine ⟨[], decoded.reverse, bytes, rfl, ⟨rfl, rfl⟩, ?_⟩
        rw [List.reverse_reverse]
        exact h
      · rintro ⟨front, middle, back, rfl, ⟨rfl, rfl⟩, h⟩
        rw [List.reverse_reverse] at h
        exact h
  | cons item first ih =>
      have hindex : index + (first.length + 1) = index + 1 + first.length := by omega
      simp only [List.cons_append, accepts_decodeElements_cons, ih, List.length_cons, hindex]
      constructor
      · rintro ⟨front, item', _, rfl, hitem, second, middle, back, rfl, hfirst, hsecond⟩
        exact ⟨front ++ second, middle, back, by rw [List.append_assoc],
          ⟨front, item', second, rfl, hitem, hfirst⟩, hsecond⟩
      · rintro ⟨_, middle, back, rfl, ⟨front, item', second, rfl, hitem, hfirst⟩, hsecond⟩
        exact ⟨front, item', second ++ back, by rw [List.append_assoc], hitem, second, middle, back,
          rfl, hfirst, hsecond⟩

/-- Equal elements accept equal parts one after the other. -/
theorem accepts_decodeElements_replicate {part : Bytes} {place item : Value}
    (h : ∀ index, (decodeElement child path plan index place).Accepts part item)
    (count index : Nat) (decoded : List Value) :
    (decodeElements child path plan index decoded (List.replicate count place)).Accepts
      (List.replicate count part).flatten (decoded.reverse ++ List.replicate count item) := by
  induction count generalizing index decoded with
  | zero => exact ⟨rfl, (List.append_nil _).symm⟩
  | succ count ih =>
      have hrest := ih (index + 1) (item :: decoded)
      rw [List.reverse_cons, List.append_assoc] at hrest
      exact accepts_decodeElements_cons.2 ⟨part, item, _, rfl, h index, hrest⟩

/-- No elements need no bytes, at once or one by one. -/
theorem accepts_decodeItems_nil {element : HostType} :
    (decodeItems child path plan element []).Accepts [] [] := by
  unfold decodeItems
  split
  · exact ⟨[], [], rfl, rfl, rfl, rfl⟩
  · exact ⟨rfl, rfl⟩

/-- A sequence with a place for every slot takes as many elements as there are slots. -/
theorem accepts_decodeSequence {schema : Schema} {settings : Settings} {kind : SequenceKind}
    {element : HostType} {items decoded : List Value} (places : List Value)
    (hplaces : places = if kind = .growable then
      resized (schema.default element) (plan.arrayLength.getD items.length) items else items)
    (hslots : plan.arrayLength.getD items.length ≤ places.length)
    (hcollect : plan.arrayLength.getD items.length ≤ settings.limits.collect)
    (h : (decodeItems child path plan element
      (places.take (plan.arrayLength.getD items.length))).Accepts bytes decoded) :
    (decodeSequence schema settings child path plan kind element items).Accepts bytes
      (decoded ++ places.drop (plan.arrayLength.getD items.length)) := by
  have hcheck : settings.limits.checkCollect path (plan.arrayLength.getD items.length) =
      .ok () := if_pos hcollect
  unfold decodeSequence
  simp only [hcheck, ← hplaces]
  refine (h.bimap (· ++ places.drop (plan.arrayLength.getD items.length)) _).bind_done ?_
  refine Intake.accepts_bind.2 ⟨[], (), [], rfl, ?_, rfl, rfl⟩
  rw [discardSlots, if_pos hslots]
  exact Intake.Accepts.leaving _ ⟨rfl, rfl⟩

/-- A private field accepts no bytes and stays as it is. -/
theorem accepts_decodeField_private {record : Record} {index : Nat} {field : FieldLayout}
    (h : field.exported = false) :
    (decodeField child path record index field).Accepts [] record.fields := by
  simp [decodeField, h]

/-- An ignored field accepts no bytes and stays as it is. -/
theorem accepts_decodeField_ignored {record : Record} {index : Nat} {field : FieldLayout}
    {tag : Tag} {decode : ChildDecoder} (hchild : child = some decode)
    (htag : field.tag = .ok tag) (hignore : tag.wire = some .ignore) :
    (decodeField child path record index field).Accepts [] record.fields := by
  subst hchild
  cases hexported : field.exported with
  | false => exact accepts_decodeField_private hexported
  | true => simp [decodeField, hexported, htag, hignore]

/-- Any other field accepts what its value accepts by its plan. -/
theorem accepts_decodeField {record : Record} {index : Nat} {field : FieldLayout} {tag : Tag}
    {decode : ChildDecoder} {value result : Value} {fieldPlan : Plan} (hchild : child = some decode)
    (hexported : field.exported = true) (htag : field.tag = .ok tag)
    (hignore : tag.wire ≠ some .ignore) (hvalue : record.fields[index]? = some value)
    (hplan : Plan.resolve (.field field.name :: path) value tag (some record) = .ok fieldPlan)
    (h : (decode (.field field.name :: path) value fieldPlan).Accepts bytes result) :
    (decodeField child path record index field).Accepts bytes
      (record.fields.set index result) := by
  subst hchild
  simp only [decodeField, hexported, not_true, if_false, htag, if_neg hignore, Record.field, hvalue,
    hplan]
  exact h.bimap _ _

/-- The first field and the other ones accept their bytes one after the other. -/
theorem accepts_decodeFields_cons {layout : Layout} {index : Nat} {field : FieldLayout}
    {fields : List FieldLayout} {values values' result : List Value} {front back : Bytes}
    (hfield : (decodeField child path ⟨layout, values⟩ index field).Accepts front values')
    (hrest : (decodeFields child path layout (index + 1) fields values').Accepts back result) :
    (decodeFields child path layout index (field :: fields) values).Accepts (front ++ back)
      result := by
  rw [decodeFields]
  exact hfield.bind hrest

end decoder

end PackedRecord
