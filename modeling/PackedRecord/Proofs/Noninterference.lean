import Mathlib.Data.List.Forall2
import PackedRecord.Proofs.FirstFailure
import PackedRecord.Proofs.StableSizes

/-!
# What encoding does not see

Fields that are not coded do not show in what is encoded. `Value.Alike` relates two values that
differ only in what the private, ignored and padding fields of their records hold, as far as no size
depends on it. `Encoder.encodeAs_alike` says that they are encoded alike, with the same bytes and
the same result or error: the two runs are compared call by call, by induction on how far down there
is room.
-/

namespace PackedRecord

/-- The two values are of one type and agree in everything that encoding sees. Of a record that is
the values of its coded fields, what fields count that the tags of visited fields name in size
expressions, and the current lengths of padding whose tag gives no length. -/
inductive Value.Alike : Value → Value → Prop where
  | refl (value : Value) : Alike value value
  | sequence {kind : SequenceKind} {element : HostType} {items items' : List Value}
      (hlength : items'.length = items.length)
      (hitems : ∀ (index : Nat) item item', items[index]? = some item →
        items'[index]? = some item' → Alike item item') :
      Alike (.sequence kind element items) (.sequence kind element items')
  | optional {type : HostType} {content content' : Value} (h : Alike content content') :
      Alike (.optional type (some content)) (.optional type (some content'))
  | dynamic {content content' : Value} (h : Alike content content') :
      Alike (.dynamic (some content)) (.dynamic (some content'))
  | pointer {kind : PointerKind} {target target' : Value} (h : Alike target target') :
      Alike (.pointer kind target) (.pointer kind target')
  | record {layout : Layout} {fields fields' : List Value}
      (hlength : fields'.length = fields.length)
      (hnamed : ∀ (index : Nat) tag (target : Nat) value value',
        layout.visitedTag? index = some tag → tag.Names target → fields[target]? = some value →
        fields'[target]? = some value' → value'.size? = value.size?)
      (hpadding : ∀ (index : Nat) tag value value', layout.visitedTag? index = some tag →
        tag.wire = some .pad → (∀ expr, tag.brackets ≠ .length expr) →
        fields[index]? = some value → fields'[index]? = some value' →
        Plan.currentLength value' = Plan.currentLength value)
      (hcoded : ∀ (index : Nat) tag value value', layout.codedTag? index = some tag →
        fields[index]? = some value → fields'[index]? = some value' → Alike value value') :
      Alike (.record layout fields) (.record layout fields')

namespace Value.Alike

variable {value value' : Value}

/-- Alike values have one type name. -/
theorem typeName_eq (h : value.Alike value') : value'.typeName = value.typeName := by
  induction h with
  | refl => rfl
  | sequence hlength => simp only [typeName, hlength]
  | optional => rfl
  | dynamic => rfl
  | pointer _ ih => exact ih
  | record => rfl

/-- Alike values have one natural coding. -/
theorem natural_eq (h : value.Alike value') : value'.natural = value.natural := by
  induction h with
  | refl => rfl
  | sequence hlength => simp only [natural, hlength]
  | optional _ ih => simp only [natural, ih]
  | dynamic _ ih => simp only [natural, ih]
  | pointer _ ih => exact ih
  | record => rfl

/-- Behind their pointers, alike values are alike. -/
theorem target (h : value.Alike value') : value.target.Alike value'.target := by
  induction h with
  | pointer _ ih => exact ih
  | refl => exact .refl _
  | sequence hlength hitems => exact .sequence hlength hitems
  | optional h => exact .optional h
  | dynamic h => exact .dynamic h
  | record hlength hnamed hpadding hcoded => exact .record hlength hnamed hpadding hcoded

/-- Alike values are the same byte, or no bytes. -/
theorem byte?_eq (h : value.Alike value') : value'.byte? = value.byte? := by
  cases h <;> rfl

/-- Alike values have one current length. -/
theorem currentLength_eq (h : value.Alike value') :
    Plan.currentLength value' = Plan.currentLength value := by
  have htarget := h.target
  unfold Plan.currentLength
  generalize value.target = core, value'.target = core' at htarget
  cases htarget with
  | sequence hlength => exact hlength
  | _ => rfl

/-- Items are alike to themselves, one by one. -/
theorem forall₂_refl (items : List Value) : List.Forall₂ Alike items items :=
  List.forall₂_same.2 fun item _ => .refl item

/-- Items that are alike one by one are the same bytes, or are not all bytes. -/
theorem bytes?_eq {element : HostType} {items items' : List Value}
    (h : List.Forall₂ Alike items items') : bytes? element items' = bytes? element items := by
  have hbytes : items'.mapM byte? = items.mapM byte? := by
    induction h with
    | nil => rfl
    | cons hitem _ ih => rw [List.mapM_cons, List.mapM_cons, hitem.byte?_eq, ih]
  rw [bytes?, bytes?, hbytes]

/-- Behind references, alike values hold alike values or nothing. -/
theorem strip (h : value.Alike value') (levels : Nat) :
    (∃ fault, value.strip levels = .error fault ∧ value'.strip levels = .error fault) ∨
      ∃ content content', value.strip levels = .ok content ∧ value'.strip levels = .ok content' ∧
        content.Alike content' := by
  induction levels generalizing value value' with
  | zero => exact .inr ⟨value, value', rfl, rfl, h⟩
  | succ levels ih =>
      have htarget := h.target
      unfold Value.strip
      generalize value.target = core, value'.target = core' at htarget
      cases htarget with
      | optional hcontent => exact ih hcontent
      | dynamic hcontent => exact ih hcontent
      | refl core =>
          split
          next => exact ih (.refl _)
          next => exact ih (.refl _)
          next => exact .inl ⟨_, rfl, rfl⟩
          next => exact .inl ⟨_, rfl, rfl⟩
          next => exact .inr ⟨_, _, rfl, rfl, h⟩
      | sequence => exact .inr ⟨_, _, rfl, rfl, h⟩
      | pointer => exact .inr ⟨_, _, rfl, rfl, h⟩
      | record => exact .inr ⟨_, _, rfl, rfl, h⟩

end Value.Alike

section sizes

variable {path : Path} {layout : Layout} {fields fields' : List Value} {tag : Tag}

/-- An expression has one value on two records of equally many fields if the fields that it names
count the same. -/
theorem SizeExpr.eval_of_sizes {expr : SizeExpr} (hlength : fields'.length = fields.length)
    (hsizes : ∀ target value value', expr.Names target → fields[target]? = some value →
      fields'[target]? = some value' → value'.size? = value.size?) :
    expr.eval (some ⟨layout, fields'⟩) = expr.eval (some ⟨layout, fields⟩) := by
  refine eval_of_operands ?_
  intro term hterm
  cases hoperand : term.operand with
  | literal value => rfl
  | field index name =>
      unfold operandValue Record.field
      by_cases hinside : index < fields.length
      · have hvalue := List.getElem?_eq_getElem hinside
        have hvalue' := List.getElem?_eq_getElem (hlength ▸ hinside : index < fields'.length)
        simp only [hvalue, hvalue',
          hsizes index _ _ ⟨term, hterm, name, hoperand⟩ hvalue hvalue']
      · simp only [List.getElem?_eq_none (Nat.not_lt.1 hinside),
          List.getElem?_eq_none (hlength ▸ Nat.not_lt.1 hinside : fields'.length ≤ index)]

namespace Plan

/-- The sizes that a tag gives are the same on both records. -/
def SameSizes (tag : Tag) (record record' : Option Record) : Prop :=
  ∀ expr, tag.brackets = .length expr ∨ tag.bufferLength = some expr →
    expr.eval record' = expr.eval record

variable {value value' : Value} {plan : Plan} {record record' : Option Record}

/-- Two records have the same sizes for a tag if the fields that it names count the same. -/
theorem sameSizes_of_getElem? (hlength : fields'.length = fields.length)
    (hsizes : ∀ target value value', tag.Names target → fields[target]? = some value →
      fields'[target]? = some value' → value'.size? = value.size?) :
    SameSizes tag (some ⟨layout, fields⟩) (some ⟨layout, fields'⟩) := by
  intro expr hexpr
  refine SizeExpr.eval_of_sizes hlength ?_
  intro target value value' hnames
  refine hsizes target value value' ?_
  exact hexpr.imp (fun h => ⟨expr, h, hnames⟩) fun h => ⟨expr, h, hnames⟩

/-- A size expression of the tag has one value, or one error, on both records. -/
theorem evalSize_of_sameSizes (h : SameSizes tag record record') {expr : SizeExpr}
    (hexpr : tag.brackets = .length expr ∨ tag.bufferLength = some expr) :
    evalSize path expr record' = evalSize path expr record := by
  rw [evalSize, evalSize, h expr hexpr]

/-- The tag gives one buffer length on both records. -/
theorem resolveBuffer_of_sameSizes (h : SameSizes tag record record') :
    resolveBuffer path tag.bufferLength record' = resolveBuffer path tag.bufferLength record := by
  unfold resolveBuffer
  split
  next => rfl
  next expr hexpr => rw [evalSize_of_sameSizes h (.inr hexpr)]

/-- The tag gives one number of slots on both records. -/
theorem resolveArray_of_sameSizes (h : SameSizes tag record record')
    (hisArray : tag.brackets = .absent → value'.natural.isArray = value.natural.isArray) :
    resolveArray path value' tag.brackets record' =
      resolveArray path value tag.brackets record := by
  unfold resolveArray
  split
  next hbrackets => rw [hisArray hbrackets]
  next => rfl
  next expr hexpr => rw [evalSize_of_sameSizes h (.inl hexpr)]

/-- Alike values have the same plan. -/
theorem resolve_of_alike (halike : value.Alike value') (h : SameSizes tag record record') :
    resolve path value' tag record' = resolve path value tag record := by
  have hwire : resolveWire path value' tag.wire = resolveWire path value tag.wire :=
    resolveWire_congr (by rw [halike.natural_eq]) halike.typeName_eq path tag.wire
  have harray : resolveArray path value' tag.brackets record' =
      resolveArray path value tag.brackets record :=
    resolveArray_of_sameSizes h fun _ => by rw [halike.natural_eq]
  rw [resolve, resolve, hwire, harray, resolveBuffer_of_sameSizes h, halike.natural_eq]

/-- Alike elements get one plan. -/
theorem element_of_alike (halike : value.Alike value') :
    plan.element path value' = plan.element path value :=
  element_congr halike.natural_eq halike.typeName_eq plan path

/-- A value that is no array by itself counts as one element. -/
theorem currentLength_of_single (h : value.natural.isArray = false) : currentLength value = 1 := by
  rw [← value.natural_target] at h
  unfold currentLength
  split
  next htarget =>
    rw [htarget] at h
    cases h
  next => rfl

/-- Without a length, padding is as long as the value is now. -/
theorem padLength_of_resolve (h : resolve path value tag record = .ok plan) :
    plan.padLength value =
      sizeMul (plan.bufferLength.getD 1) (plan.arrayLength.getD (currentLength value)) := by
  obtain ⟨-, harray, -⟩ := parts_of_resolve h
  cases hisArray : plan.isArray with
  | true => simp only [padLength, hisArray, if_true]
  | false =>
      rw [hisArray] at harray
      unfold resolveArray at harray
      split at harray
      next =>
        obtain ⟨hsingle, hnone⟩ := Prod.mk.inj (Except.ok.inj harray)
        rw [padLength, hisArray, ← hnone, Option.getD_none, currentLength_of_single hsingle]
        rfl
      next => cases harray
      next expr _ =>
        cases hsize : evalSize path expr record with
        | error error =>
            rw [hsize] at harray
            cases harray
        | ok size =>
            rw [hsize] at harray
            cases harray

/-- The array length that a tag gives does not depend on the value. -/
theorem arrayLength_of_sameSizes (h : SameSizes tag record record') :
    (resolveArray path value' tag.brackets record').map Prod.snd =
      (resolveArray path value tag.brackets record).map Prod.snd := by
  unfold resolveArray
  split
  next => rfl
  next => rfl
  next expr hexpr => rw [evalSize_of_sameSizes h (.inl hexpr)]

/-- Two values are padding of one length by their plans. -/
structure SamePadding (plan plan' : Plan) (value value' : Value) : Prop where
  wire_eq : plan.wire = .pad
  wire_eq' : plan'.wire = .pad
  padLength_eq : plan'.padLength value' = plan.padLength value

/-- Padding is planned alike if the sizes of its tag are the same and, where the tag gives no
length, the current lengths. -/
theorem resolve_of_padding (hpad : tag.wire = some .pad) (h : SameSizes tag record record')
    (hlength : (∀ expr, tag.brackets ≠ .length expr) →
      currentLength value' = currentLength value) :
    (∃ error, resolve path value tag record = .error error ∧
      resolve path value' tag record' = .error error) ∨
    ∃ plan plan', resolve path value tag record = .ok plan ∧
      resolve path value' tag record' = .ok plan' ∧ SamePadding plan plan' value value' := by
  have hwire (value : Value) : resolveWire path value tag.wire = .ok .pad := by
    rw [hpad]
    rfl
  have hlengths : (resolveArray path value' tag.brackets record').map Prod.snd =
      (resolveArray path value tag.brackets record).map Prod.snd := arrayLength_of_sameSizes h
  have hbuffers : resolveBuffer path tag.bufferLength record' =
      resolveBuffer path tag.bufferLength record := resolveBuffer_of_sameSizes h
  cases harray : resolveArray path value tag.brackets record with
  | error error =>
      rw [harray] at hlengths
      refine .inl ⟨error, ?_, ?_⟩
      · rw [resolve, hwire, harray]
        rfl
      · rw [resolve, hwire, error_of_map hlengths]
        rfl
  | ok parts =>
      cases harray' : resolveArray path value' tag.brackets record' with
      | error error =>
          rw [harray, harray'] at hlengths
          cases hlengths
      | ok parts' =>
          rw [harray, harray'] at hlengths
          have hsame : parts'.2 = parts.2 := Except.ok.inj hlengths
          cases hbuffer : resolveBuffer path tag.bufferLength record with
          | error error =>
              refine .inl ⟨error, ?_, ?_⟩
              · rw [resolve, hwire, harray, hbuffer]
                rfl
              · rw [resolve, hwire, harray', hbuffers, hbuffer]
                rfl
          | ok bufferLength =>
              have hplan : resolve path value tag record = .ok ⟨.pad, parts.1, parts.2,
                  bufferLength, value.natural.indirection, tag.encoding⟩ := by
                rw [resolve, hwire, harray, hbuffer]
                rfl
              have hplan' : resolve path value' tag record' = .ok ⟨.pad, parts'.1, parts'.2,
                  bufferLength, value'.natural.indirection, tag.encoding⟩ := by
                rw [resolve, hwire, harray', hbuffers, hbuffer]
                rfl
              refine .inr ⟨_, _, hplan, hplan', rfl, rfl, ?_⟩
              rw [padLength_of_resolve hplan, padLength_of_resolve hplan', hsame]
              -- The current length counts only where the tag gives none.
              cases hgiven : parts.2 with
              | some length => rfl
              | none =>
                  simp only [Option.getD_none]
                  rw [hlength]
                  intro expr hexpr
                  obtain ⟨-, length, hsome, -⟩ := eval_of_resolve_length hplan hexpr
                  rw [hgiven] at hsome
                  cases hsome

end Plan

end sizes

section encoder

variable {settings : Settings} {child : Option ChildEncoder} {path : Path} {plan plan' : Plan}
  {value value' : Value}

/-- Two values are coded alike by their plans: they are alike and have the same plan, or they are
padding of one length. -/
inductive CodedAlike : (plan plan' : Plan) → (value value' : Value) → Prop where
  | alike {plan : Plan} {value value' : Value} (h : value.Alike value') :
      CodedAlike plan plan value value'
  | padding {plan plan' : Plan} {value value' : Value} (h : plan.SamePadding plan' value value') :
      CodedAlike plan plan' value value'

/-- The encoder one step further down encodes alike what is coded alike. -/
def ChildBlind (child : Option ChildEncoder) : Prop :=
  ∀ encode, child = some encode → ∀ path plan plan' value value',
    CodedAlike plan plan' value value' → encode path value' plan' = encode path value plan

/-- Alike elements are encoded alike, one by one, and padded alike. -/
theorem encodeElements_alike (hchild : ChildBlind child) {items items' : List Value}
    (hitems : List.Forall₂ Value.Alike items items') (index : Nat) (last : Option Nat) :
    encodeElements child path plan index last items' =
      encodeElements child path plan index last items := by
  induction hitems generalizing index last with
  | nil => rfl
  | @cons item item' items items' hitem _ ih =>
      rw [encodeElements, encodeElements]
      cases child with
      | none => rfl
      | some encode =>
          have hencode (itemPlan : Plan) := hchild encode rfl (.index index :: path) itemPlan
            itemPlan item item' (.alike hitem)
          simp only [descend, Emission.pure_eq, Emission.ofExcept_ok_bind,
            Plan.element_of_alike hitem, hencode, ih]

/-- The elements of one array are alike those of another one. -/
structure Elements.Alike (elements elements' : Elements) : Prop where
  items : List.Forall₂ Value.Alike elements.items elements'.items
  bytes_eq : elements'.bytes = elements.bytes
  natural_eq : elements'.natural = elements.natural

/-- Alike values have alike elements, or none. -/
theorem Elements.of_alike (halike : value.Alike value') (path : Path) (wire : WireType) :
    (∃ error, Elements.of path value wire = .error error ∧
      Elements.of path value' wire = .error error) ∨
    ∃ elements elements', Elements.of path value wire = .ok elements ∧
      Elements.of path value' wire = .ok elements' ∧ elements.Alike elements' := by
  have hsingle : Elements.Alike ⟨[value], none, value.natural⟩ ⟨[value'], none, value'.natural⟩ :=
    ⟨.cons halike .nil, rfl, halike.natural_eq⟩
  have htarget := halike.target
  unfold Elements.of
  generalize value.target = core, value'.target = core' at htarget
  cases htarget with
  | sequence hlength hitems =>
      have hall := forall₂_iff_getElem?.2 ⟨hlength, hitems⟩
      exact .inr ⟨_, _, rfl, rfl, hall, Value.Alike.bytes?_eq hall, rfl⟩
  | optional => exact .inr ⟨_, _, rfl, rfl, hsingle⟩
  | dynamic => exact .inr ⟨_, _, rfl, rfl, hsingle⟩
  | pointer => exact .inr ⟨_, _, rfl, rfl, hsingle⟩
  | record => exact .inl ⟨_, rfl, rfl⟩
  | refl core =>
      have hsame (elements : Elements) : elements.Alike elements :=
        ⟨Value.Alike.forall₂_refl _, rfl, rfl⟩
      split
      next => exact .inl ⟨_, rfl, rfl⟩
      next => exact .inr ⟨_, _, rfl, rfl, hsame _⟩
      next =>
        split
        next => exact .inr ⟨_, _, rfl, rfl, hsame _⟩
        next => exact .inr ⟨_, _, rfl, rfl, hsingle⟩
      next =>
        split
        next => exact .inr ⟨_, _, rfl, rfl, hsame _⟩
        next => exact .inr ⟨_, _, rfl, rfl, hsingle⟩
      next => exact .inr ⟨_, _, rfl, rfl, hsingle⟩

/-- Alike values are encoded alike as arrays. -/
theorem encodeArray_alike (hchild : ChildBlind child) (halike : value.Alike value') :
    encodeArray child path value' plan = encodeArray child path value plan := by
  rw [encodeArray_eq, encodeArray_eq]
  rcases Elements.of_alike halike path plan.wire with
    ⟨error, hof, hof'⟩ | ⟨elements, elements', hof, hof', hitems, hbytes, hnatural⟩
  · rw [hof, hof']
  · have hencode :
        encodeItems child path plan elements' = encodeItems child path plan elements := by
      simp only [encodeItems, hbytes, encodeElements_alike hchild hitems]
    simp only [hof, hof', Emission.ofExcept_ok_bind, hencode, hnatural, hitems.length_eq]

section record

variable {layout : Layout} {fields fields' : List Value} {index : Nat} {field : FieldLayout}

/-- The values of a visited field have one plan and are alike, or they are padding of one length. -/
theorem planned_alike {tag : Tag}
    (halike : (Value.record layout fields).Alike (.record layout fields'))
    (hvisited : layout.visitedTag? index = some tag) (hvalue : fields[index]? = some value)
    (hvalue' : fields'[index]? = some value') :
    (∃ error, Plan.resolve path value tag (some ⟨layout, fields⟩) = .error error ∧
      Plan.resolve path value' tag (some ⟨layout, fields'⟩) = .error error) ∨
    ∃ plan plan', Plan.resolve path value tag (some ⟨layout, fields⟩) = .ok plan ∧
      Plan.resolve path value' tag (some ⟨layout, fields'⟩) = .ok plan' ∧
      CodedAlike plan plan' value value' := by
  have hsame (hplans : Plan.resolve path value' tag (some ⟨layout, fields'⟩) =
      Plan.resolve path value tag (some ⟨layout, fields⟩)) (halike : value.Alike value') :
      (∃ error, Plan.resolve path value tag (some ⟨layout, fields⟩) = .error error ∧
        Plan.resolve path value' tag (some ⟨layout, fields'⟩) = .error error) ∨
      ∃ plan plan', Plan.resolve path value tag (some ⟨layout, fields⟩) = .ok plan ∧
        Plan.resolve path value' tag (some ⟨layout, fields'⟩) = .ok plan' ∧
        CodedAlike plan plan' value value' := by
    rw [hplans]
    cases hplan : Plan.resolve path value tag (some ⟨layout, fields⟩) with
    | error error => exact .inl ⟨error, rfl, rfl⟩
    | ok plan => exact .inr ⟨plan, plan, rfl, rfl, .alike halike⟩
  cases halike with
  | refl =>
      cases hvalue.symm.trans hvalue'
      exact hsame rfl (.refl value)
  | record hlength hnamed hpadding hcoded =>
      have hsizes : Plan.SameSizes tag (some ⟨layout, fields⟩) (some ⟨layout, fields'⟩) :=
        Plan.sameSizes_of_getElem? hlength fun target value value' =>
          hnamed index tag target value value' hvisited
      by_cases hpad : tag.wire = some .pad
      · have hcurrent (hgiven : ∀ expr, tag.brackets ≠ .length expr) :
            Plan.currentLength value' = Plan.currentLength value :=
          hpadding index tag value value' hvisited hpad hgiven hvalue hvalue'
        rcases Plan.resolve_of_padding hpad hsizes hcurrent with
          herror | ⟨plan, plan', hplan, hplan', hpadding⟩
        · exact .inl herror
        · exact .inr ⟨plan, plan', hplan, hplan', .padding hpadding⟩
      · have hinner := hcoded index tag value value'
          (Layout.codedTag?_eq_some.2 ⟨hvisited, hpad⟩) hvalue hvalue'
        exact hsame (Plan.resolve_of_alike hinner hsizes) hinner

/-- Alike records have equally many fields. -/
theorem length_of_alike (halike : (Value.record layout fields).Alike (.record layout fields')) :
    fields'.length = fields.length := by
  cases halike with
  | refl => rfl
  | record hlength => exact hlength

/-- A field of alike records is encoded alike, or in neither of them. -/
theorem encodeField_alike (hchild : ChildBlind child)
    (halike : (Value.record layout fields).Alike (.record layout fields'))
    (hfield : layout.fields[index]? = some field) :
    encodeField child path ⟨layout, fields'⟩ index field =
      encodeField child path ⟨layout, fields⟩ index field := by
  unfold encodeField
  by_cases hexported : field.exported = true
  · rw [if_pos hexported, if_pos hexported]
    cases child with
    | none => rfl
    | some encode =>
        simp only [descend, Emission.pure_eq, Emission.ofExcept_ok_bind]
        split
        next => rfl
        next tag htag =>
          split
          next => rfl
          next hignore =>
            have hlength := length_of_alike halike
            have hvisited := Layout.visitedTag?_eq_some hfield hexported htag hignore
            unfold Record.field
            by_cases hinside : index < fields.length
            · have hvalue := List.getElem?_eq_getElem hinside
              have hvalue' := List.getElem?_eq_getElem (hlength ▸ hinside : index < fields'.length)
              simp only [hvalue, hvalue']
              rcases planned_alike halike hvisited hvalue hvalue' with
                ⟨error, hplan, hplan'⟩ | ⟨plan, plan', hplan, hplan', hcoded⟩
              · rw [hplan, hplan']
                rfl
              · rw [hplan, hplan', Emission.ofExcept_ok_bind, Emission.ofExcept_ok_bind]
                exact hchild encode rfl _ plan plan' _ _ hcoded
            · simp only [List.getElem?_eq_none (Nat.not_lt.1 hinside),
                List.getElem?_eq_none (hlength ▸ Nat.not_lt.1 hinside : fields'.length ≤ index)]
  · rw [if_neg hexported, if_neg hexported]

end record

/-- Alike records are encoded alike from any of their fields on. -/
theorem encodeFields_alike (hchild : ChildBlind child) {layout : Layout}
    {fields fields' : List Value}
    (halike : (Value.record layout fields).Alike (.record layout fields')) {index : Nat}
    {rest : List FieldLayout} (hrest : layout.fields.drop index = rest) :
    encodeFields child path ⟨layout, fields'⟩ index rest =
      encodeFields child path ⟨layout, fields⟩ index rest := by
  induction rest generalizing index with
  | nil => rfl
  | cons field rest ih =>
      obtain ⟨hfield, hlater⟩ := Layout.fields_of_drop hrest
      rw [encodeFields_cons, encodeFields_cons, encodeField_alike hchild halike hfield, ih hlater]

/-- Alike values without an array are encoded alike. -/
theorem encodeLeaf_alike (hchild : ChildBlind child) (halike : value.Alike value') :
    encodeLeaf settings child path value' plan = encodeLeaf settings child path value plan := by
  have htarget := halike.target
  unfold encodeLeaf
  rw [halike.typeName_eq]
  generalize value.target = core, value'.target = core' at htarget
  cases htarget with
  | refl => rfl
  | record hlength hnamed hpadding hcoded =>
      simp only
      rw [encodeFields_alike hchild (.record hlength hnamed hpadding hcoded) List.drop_zero]
  | _ => rfl

/-- Alike values are encoded alike under plans that differ only in what encoding does not see. -/
theorem encodeWith_alike (hchild : ChildBlind child) (h : CodedAlike plan plan' value value') :
    encodeWith settings child path value' plan' = encodeWith settings child path value plan := by
  cases h with
  | padding h => simp only [encodeWith, h.wire_eq, h.wire_eq', h.padLength_eq]
  | alike halike =>
      unfold encodeWith
      split
      next => rfl
      next => rw [Plan.padLength, Plan.padLength, halike.currentLength_eq]
      next =>
        rcases halike.strip plan.indirection with
          ⟨fault, hstrip, hstrip'⟩ | ⟨content, content', hstrip, hstrip', hcontent⟩
        · rw [hstrip, hstrip']
        · simp only [hstrip, hstrip', encodeArray_alike hchild hcontent,
            encodeLeaf_alike hchild hcontent]

end encoder

/-- What is coded alike is encoded alike. -/
theorem encodeIn_alike (settings : Settings) (room : Nat) (path : Path) {plan plan' : Plan}
    {value value' : Value} (h : CodedAlike plan plan' value value') :
    encodeIn settings room path value' plan' = encodeIn settings room path value plan := by
  induction room generalizing path plan plan' value value' with
  | zero =>
      have hnone : ChildBlind none := nofun
      exact encodeWith_alike hnone h
  | succ room ih =>
      refine encodeWith_alike ?_ h
      intro encode hencode path plan plan' value value' hcoded
      cases hencode
      exact ih path hcoded

/-- Alike values are encoded alike: with the same bytes, which leave the encoder at the same
position, and with the same result or error. -/
theorem Encoder.encodeAs_alike (encoder : Encoder) (tag : Tag) {value value' : Value}
    (h : value.Alike value') : encoder.encodeAs tag value' = encoder.encodeAs tag value := by
  have hsizes : Plan.SameSizes tag none none := fun _ _ => rfl
  have hencode : encodeTagged encoder.settings tag value' =
      encodeTagged encoder.settings tag value := by
    unfold encodeTagged
    rw [Plan.resolve_of_alike h hsizes]
    congr 1
    funext plan
    exact encodeIn_alike _ _ .top (.alike h)
  rw [encodeAs, encodeAs, hencode]

section letters

/-- A record type with a private field in front of a number. -/
def pageLayout : Layout :=
  .build "Page" [⟨"draft", "", false⟩, ⟨"number", "", true⟩]

/-- A page. -/
def page (draft : Value) (number : UInt8) : Value :=
  .record pageLayout [draft, .ofByte number]

/-- A record type with a private width, a private stamp, an ignored note, a gap, a name of the
private width and pages. -/
def letterLayout : Layout :=
  .build "Letter" [⟨"width", "", false⟩, ⟨"stamp", "", false⟩, ⟨"note", "ignore", true⟩,
    ⟨"gap", "pad", true⟩, ⟨"name", "string(width)", true⟩, ⟨"pages", "", true⟩]

/-- A letter of one page. -/
def letter (stamp note filling draft : Value) : Value :=
  .record letterLayout [.ofByte 4, stamp, note, .sequence .growable .byte [filling, filling],
    .text "ann", .sequence .growable (.optional (.record "Page"))
      [.optional (.record "Page") (some (page draft 7))]]

/-- A page has a private draft and a number. -/
theorem fields_pageLayout :
    pageLayout.fields = [⟨"draft", false, .ok .empty⟩, ⟨"number", true, .ok .empty⟩] := by cbv

/-- A letter has two private fields, an ignored note, padding, a name of counted width and pages. -/
theorem fields_letterLayout :
    letterLayout.fields = [⟨"width", false, .ok .empty⟩, ⟨"stamp", false, .ok .empty⟩,
      ⟨"note", true, .ok ⟨some .ignore, .absent, none, none⟩⟩,
      ⟨"gap", true, .ok ⟨some .pad, .absent, none, none⟩⟩,
      ⟨"name", true, .ok ⟨some .string, .absent,
        some ⟨"width", [⟨false, .field 0 "width"⟩]⟩, none⟩⟩,
      ⟨"pages", true, .ok .empty⟩] := by cbv

/-- Only the number of a page is visited. -/
theorem visitedTag?_pageLayout {index : Nat} {tag : Tag}
    (h : pageLayout.visitedTag? index = some tag) : index = 1 ∧ tag = .empty := by
  unfold Layout.visitedTag? at h
  rw [fields_pageLayout] at h
  rcases index with _ | _ | index <;> simp_all [Tag.empty]

/-- Of a letter, the padding, the name and the pages are visited. -/
theorem visitedTag?_letterLayout {index : Nat} {tag : Tag}
    (h : letterLayout.visitedTag? index = some tag) :
    index = 3 ∧ tag = ⟨some .pad, .absent, none, none⟩ ∨
    index = 4 ∧ tag = ⟨some .string, .absent,
      some ⟨"width", [⟨false, .field 0 "width"⟩]⟩, none⟩ ∨
    index = 5 ∧ tag = .empty := by
  unfold Layout.visitedTag? at h
  rw [fields_letterLayout] at h
  rcases index with _ | _ | _ | _ | _ | _ | index <;> simp_all [Tag.empty]

/-- The draft of a page does not show in its encoding. -/
theorem page_alike (draft draft' : Value) (number : UInt8) :
    (page draft number).Alike (page draft' number) := by
  refine .record rfl ?_ ?_ ?_
  · intro index tag target value value' htag hnames
    obtain ⟨-, rfl⟩ := visitedTag?_pageLayout htag
    rcases hnames with ⟨expr, hexpr, -⟩ | ⟨expr, hexpr, -⟩ <;> cases hexpr
  · intro index tag value value' htag hpad
    obtain ⟨-, rfl⟩ := visitedTag?_pageLayout htag
    cases hpad
  · intro index tag value value' htag hvalue hvalue'
    obtain ⟨rfl, -⟩ := visitedTag?_pageLayout (Layout.codedTag?_eq_some.1 htag).1
    cases hvalue
    cases hvalue'
    exact .refl _

/-- Neither private fields nor the note nor the padding of a letter show in its encoding. -/
theorem letter_alike (stamp stamp' note note' filling filling' draft draft' : Value) :
    (letter stamp note filling draft).Alike (letter stamp' note' filling' draft') := by
  refine .record rfl ?_ ?_ ?_
  · intro index tag target value value' htag hnames hvalue hvalue'
    have htarget : target = 0 := by
      rcases visitedTag?_letterLayout htag with ⟨-, rfl⟩ | ⟨-, rfl⟩ | ⟨-, rfl⟩
      all_goals
        rcases hnames with ⟨expr, hexpr, term, hterm, name, hname⟩ |
          ⟨expr, hexpr, term, hterm, name, hname⟩
        all_goals cases hexpr
      cases List.mem_singleton.1 hterm
      cases hname
      rfl
    subst htarget
    cases hvalue
    cases hvalue'
    rfl
  · intro index tag value value' htag hpad hgiven hvalue hvalue'
    rcases visitedTag?_letterLayout htag with ⟨rfl, rfl⟩ | ⟨rfl, rfl⟩ | ⟨rfl, rfl⟩
    · cases hvalue
      cases hvalue'
      rfl
    · cases hpad
    · cases hpad
  · intro index tag value value' htag hvalue hvalue'
    obtain ⟨hvisited, hpad⟩ := Layout.codedTag?_eq_some.1 htag
    rcases visitedTag?_letterLayout hvisited with ⟨rfl, rfl⟩ | ⟨rfl, rfl⟩ | ⟨rfl, rfl⟩
    · exact absurd rfl hpad
    · cases hvalue
      cases hvalue'
      exact .refl _
    · cases hvalue
      cases hvalue'
      refine .sequence rfl ?_
      intro index item item' hitem hitem'
      obtain ⟨rfl, rfl⟩ : index = 0 ∧ _ = item := by
        rcases index with _ | index
        · exact ⟨rfl, Option.some.inj hitem⟩
        · cases hitem
      cases hitem'
      exact .optional (page_alike draft draft' 7)

/-- What cannot be encoded and an empty reference do not matter where they are not coded. -/
theorem encodeAs_alike_letter :
    (letter (.text "paid") (.text "urgent") (.ofByte 1) (.text "first")).Alike
      (letter (.foreign "Stamp") (.dynamic none) (.ofByte 2) (.foreign "Draft")) ∧
    (Encoder.mk ⟨.bigEndian, {}, .empty⟩ .unbounded).encodeAs .empty
        (letter (.foreign "Stamp") (.dynamic none) (.ofByte 2) (.foreign "Draft")) =
      (Encoder.mk ⟨.bigEndian, {}, .empty⟩ .unbounded).encodeAs .empty
        (letter (.text "paid") (.text "urgent") (.ofByte 1) (.text "first")) :=
  ⟨letter_alike _ _ _ _ _ _ _ _, Encoder.encodeAs_alike _ _ (letter_alike _ _ _ _ _ _ _ _)⟩

end letters

end PackedRecord
