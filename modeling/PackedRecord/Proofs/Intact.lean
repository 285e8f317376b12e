import PackedRecord.Proofs.Calls
import PackedRecord.Proofs.FirstFailure
import PackedRecord.Proofs.References

/-!
# Intact values

A value is intact if its records have the fields of their layouts, and these were built. Its
encoding never breaks a contract, on any sink: `Encoder.encodeAs_ne_broken` is the statement to
read. What it rests on is that a tag names fields of its own record only.
-/

namespace PackedRecord

/-- Every record in the value has a layout that was built, and a value for each of its fields. -/
inductive Value.Intact : Value → Prop where
  | scalar (content : Scalar) : Intact (.scalar content)
  | text (content : String) : Intact (.text content)
  | borrowedText (content : String) : Intact (.borrowedText content)
  | sequence {kind : SequenceKind} {element : HostType} {items : List Value}
      (h : ∀ item ∈ items, Intact item) : Intact (.sequence kind element items)
  | optional {type : HostType} {content : Option Value} (h : ∀ value ∈ content, Intact value) :
      Intact (.optional type content)
  | dynamic {content : Option Value} (h : ∀ value ∈ content, Intact value) :
      Intact (.dynamic content)
  | pointer {kind : PointerKind} {target : Value} (h : Intact target) :
      Intact (.pointer kind target)
  | record {name : String} {declared : List FieldDescriptor} {fields : List Value}
      (hlength : fields.length = declared.length) (hfields : ∀ value ∈ fields, Intact value) :
      Intact (.record (.build name declared) fields)
  | foreign (name : String) : Intact (.foreign name)

/-- Every record type that the schema knows has a layout that was built, and a type for each of its
fields. -/
def Schema.Intact (schema : Schema) : Prop :=
  ∀ key type, schema.lookup key = some type →
    ∃ name declared, type.layout = .build name declared ∧ type.types.length = declared.length

namespace Value.Intact

/-- The value of a byte is intact. -/
theorem ofByte (byte : UInt8) : (Value.ofByte byte).Intact :=
  .scalar _

/-- An optional that holds an intact value is intact. -/
theorem optional_some {type : HostType} {content : Value} (h : content.Intact) :
    (Value.optional type (some content)).Intact := by
  refine .optional ?_
  rintro _ ⟨⟩
  exact h

/-- A dynamic reference that holds an intact value is intact. -/
theorem dynamic_some {content : Value} (h : content.Intact) :
    (Value.dynamic (some content)).Intact := by
  refine .dynamic ?_
  rintro _ ⟨⟩
  exact h

/-- The default of a type is intact if those of records are. -/
theorem defaultWith {recordDefault : String → Value}
    (hrecord : ∀ key, (recordDefault key).Intact) (type : HostType) :
    (type.defaultWith recordDefault).Intact := by
  induction type with
  | scalar type => exact .scalar _
  | text => exact .text _
  | borrowedText => exact .borrowedText _
  | vector | slice => exact .sequence (List.forall_mem_nil _)
  | array length element ih =>
      refine .sequence fun item hitem => ?_
      rw [List.eq_of_mem_replicate hitem]
      exact ih
  | optional content => exact .optional (by rintro _ ⟨⟩)
  | dynamic => exact .dynamic (by rintro _ ⟨⟩)
  | pointer kind target ih => exact .pointer ih
  | record key => exact hrecord key
  | foreign name => exact .foreign name

/-- The default of a record is intact, however deep the records in it nest. -/
theorem defaultRecord {schema : Schema} (hschema : schema.Intact) (depth : Nat) (key : String) :
    (schema.defaultRecord depth key).Intact := by
  induction depth generalizing key with
  | zero => exact .foreign key
  | succ depth ih =>
      unfold Schema.defaultRecord
      split
      next => exact .foreign key
      next type htype =>
        obtain ⟨name, declared, hlayout, hlength⟩ := hschema key type htype
        rw [hlayout]
        refine .record (by rw [List.length_map, hlength]) fun value hvalue => ?_
        obtain ⟨fieldType, -, rfl⟩ := List.mem_map.1 hvalue
        exact defaultWith ih fieldType

/-- The default values of an intact schema are intact. -/
theorem default {schema : Schema} (hschema : schema.Intact) (type : HostType) :
    (schema.default type).Intact :=
  defaultWith (defaultRecord hschema schema.length) type

/-- What replaces the target of a value makes it intact. -/
theorem withTarget {value replacement : Value} (h : replacement.Intact) :
    (value.withTarget replacement).Intact := by
  fun_induction Value.withTarget value replacement with
  | case1 kind value replacement ih => exact .pointer (ih h)
  | case2 => exact h

/-- What stands behind the pointers of an intact value is intact. -/
theorem target {value : Value} (h : value.Intact) : value.target.Intact := by
  induction h with
  | pointer _ ih => exact ih
  | scalar content => exact .scalar content
  | text content => exact .text content
  | borrowedText content => exact .borrowedText content
  | sequence h => exact .sequence h
  | optional h => exact .optional h
  | dynamic h => exact .dynamic h
  | record hlength hfields => exact .record hlength hfields
  | foreign name => exact .foreign name

/-- The content of an intact optional is intact. -/
theorem of_optional {value : Value} {type : HostType} {content : Option Value}
    (hvalue : value.Intact) (h : value.target = .optional type content) :
    ∀ inner ∈ content, inner.Intact := by
  have htarget := hvalue.target
  rw [h] at htarget
  cases htarget with
  | optional hcontent => exact hcontent

/-- The content of an intact dynamic reference is intact. -/
theorem of_dynamic {value : Value} {content : Option Value} (hvalue : value.Intact)
    (h : value.target = .dynamic content) : ∀ inner ∈ content, inner.Intact := by
  have htarget := hvalue.target
  rw [h] at htarget
  cases htarget with
  | dynamic hcontent => exact hcontent

/-- What is behind the references of an intact value is intact. -/
theorem strip {value content : Value} {levels : Nat} (hvalue : value.Intact)
    (h : value.strip levels = .ok content) : content.Intact := by
  fun_induction Value.strip levels value
  case case1 =>
    cases h
    exact hvalue
  case case2 htarget ih => exact ih (hvalue.of_optional htarget _ rfl) h
  case case3 htarget ih => exact ih (hvalue.of_dynamic htarget _ rfl) h
  case case4 | case5 => cases h
  case case6 =>
    cases h
    exact hvalue

/-- The elements of an intact value are intact. -/
theorem elements {value item : Value} {path : Path} {wire : WireType} {elements : Elements}
    (hvalue : value.Intact) (h : Elements.of path value wire = .ok elements)
    (hitem : item ∈ elements.items) : item.Intact := by
  have hsingle (hitem : item ∈ [value]) : item.Intact := List.mem_singleton.1 hitem ▸ hvalue
  have hbytes {content : Bytes} (hitem : item ∈ content.map Value.ofByte) : item.Intact := by
    obtain ⟨byte, -, rfl⟩ := List.mem_map.1 hitem
    exact .scalar _
  have htarget := hvalue.target
  unfold Elements.of at h
  generalize value.target = target at h htarget
  cases target with
  | record => cases h
  | sequence kind element items =>
      cases h
      cases htarget with
      | sequence hitems => exact hitems item hitem
  | text content | borrowedText content =>
      simp only at h
      split at h
      · cases h
        exact hbytes hitem
      · cases h
        exact hsingle hitem
  | scalar | optional | dynamic | pointer | foreign =>
      cases h
      exact hsingle hitem

end Value.Intact

/-- A layout that was built has the fields that were declared. -/
theorem Layout.lt_of_field {name : String} {declared : List FieldDescriptor} {index : Nat}
    {field : FieldLayout} (h : (build name declared).fields[index]? = some field) :
    index < declared.length := by
  obtain ⟨hlt, -⟩ := List.getElem?_eq_some_iff.1 h
  simpa only [build, List.length_mapIdx] using hlt

/-- A tag names fields that were declared. -/
theorem Layout.lt_of_names {name : String} {declared : List FieldDescriptor} {index target : Nat}
    {field : FieldLayout} {tag : Tag} (hfield : (build name declared).fields[index]? = some field)
    (htag : field.tag = .ok tag) (hnames : tag.Names target) : target < declared.length := by
  simp only [build, List.getElem?_mapIdx, Option.map_eq_some_iff] at hfield
  obtain ⟨own, -, rfl⟩ := hfield
  obtain ⟨called, hresolve⟩ := Tag.resolves_of_parse htag hnames
  unfold resolver at hresolve
  split at hresolve
  · cases hresolve
  next found hfound =>
    obtain ⟨hlt, -⟩ := List.findIdx?_eq_some_iff_getElem.1 hfound
    repeat' split at hresolve
    all_goals cases hresolve
    exact hlt

section sizes

variable {record : Option Record} {path : Path} {value : Value} {defect : Defect}

/-- A record has a field at every index below their number. -/
theorem Record.field_of_lt {record : Record} {index : Nat} (h : index < record.fields.length) :
    record.field index = .ok record.fields[index] := by
  rw [field, List.getElem?_eq_getElem h]

/-- An expression that names fields of the record only does not break a contract. -/
theorem SizeExpr.eval_ne_broken {expr : SizeExpr}
    (h : ∀ whole ∈ record, ∀ index, expr.Names index → index < whole.fields.length) :
    expr.eval record ≠ .error (.broken defect) := by
  have hsum (terms : List Term) (hterms : terms ⊆ expr.terms) (start : Int) :
      sumFrom expr.text record start terms ≠ .error (.broken defect) := by
    induction terms generalizing start with
    | nil => rintro ⟨⟩
    | cons term terms ih =>
        obtain ⟨hterm, hterms⟩ := List.cons_subset.1 hterms
        have hoperand : operandValue expr.text record term.operand ≠ .error (.broken defect) := by
          cases hoperand : term.operand with
          | literal value => rintro ⟨⟩
          | field index name =>
              cases record with
              | none => rintro ⟨⟩
              | some whole =>
                  have hindex := h whole rfl index ⟨term, hterm, name, hoperand⟩
                  simp only [operandValue, Record.field_of_lt hindex]
                  split <;> rintro ⟨⟩
        rw [sumFrom]
        split
        next error herror =>
          rintro ⟨⟩
          exact hoperand herror
        next =>
          split
          · rintro ⟨⟩
          · exact ih hterms _
  exact hsum _ (List.Subset.refl _) 0

namespace Plan

/-- An expression that names existing fields breaks no contract when it is evaluated. -/
theorem evalSize_ne_broken {expr : SizeExpr}
    (h : ∀ whole ∈ record, ∀ index, expr.Names index → index < whole.fields.length) :
    evalSize path expr record ≠ .error (.broken defect) := by
  unfold evalSize
  split
  next error herror =>
    cases error with
    | tag => rintro ⟨⟩
    | broken => exact absurd herror (SizeExpr.eval_ne_broken h)
  next => split <;> rintro ⟨⟩

/-- A value has a plan, or a fault of its own, if its tag names fields of the record only. -/
theorem resolve_ne_broken {tag : Tag}
    (h : ∀ whole ∈ record, ∀ index, tag.Names index → index < whole.fields.length) :
    resolve path value tag record ≠ .error (.broken defect) := by
  intro hresolve
  rcases error_of_bind hresolve with hwire | ⟨wire, -, hresolve⟩
  · unfold resolveWire at hwire
    split at hwire <;> cases hwire
  rcases error_of_bind hresolve with harray | ⟨⟨isArray, arrayLength⟩, -, hresolve⟩
  · unfold resolveArray at harray
    split at harray
    · cases harray
    · cases harray
    next expr hexpr =>
      exact evalSize_ne_broken
        (fun whole hwhole index hindex => h whole hwhole index (.inl ⟨expr, hexpr, hindex⟩))
        (error_of_map harray)
  rcases error_of_bind hresolve with hbuffer | ⟨bufferLength, -, hresolve⟩
  · unfold resolveBuffer at hbuffer
    split at hbuffer
    · cases hbuffer
    next expr hexpr =>
      split at hbuffer <;> cases hbuffer
      next hsize =>
        exact evalSize_ne_broken
          (fun whole hwhole index hindex => h whole hwhole index (.inr ⟨expr, hexpr, hindex⟩)) hsize
  · cases hresolve

/-- The plan of an element breaks no contract. -/
theorem element_ne_broken {plan : Plan} : plan.element path value ≠ .error (.broken defect) := by
  intro h
  have hwire := error_of_map h
  unfold elementWire at hwire
  split at hwire <;> cases hwire

end Plan

end sizes

section encode

variable {settings : Settings} {path : Path} {plan : Plan} {value : Value} {bytes : Bytes}
  {defect : Defect}

/-- A planned element is the one that the plan was made for. -/
theorem planned_of_map {result : Except Error Plan} {item item' : Value} {itemPlan : Plan}
    (h : result.map (fun plan => some (item, plan)) = .ok (some (item', itemPlan))) :
    item' = item ∧ result = .ok itemPlan := by
  cases result with
  | error error => cases h
  | ok plan =>
      cases h
      exact ⟨rfl, rfl⟩

/-- A field of an intact record is intact, and its tag names fields of the record. -/
theorem intact_part {name : String} {declared : List FieldDescriptor} {fields : List Value}
    {index : Nat} {field : FieldLayout} (hlength : fields.length = declared.length)
    (hfields : ∀ value ∈ fields, value.Intact)
    (hfield : (Layout.build name declared).fields[index]? = some field) :
    let part := field.part path ⟨.build name declared, fields⟩ index
    part.planned ≠ .error (.broken defect) ∧
      ∀ item itemPlan, part.planned = .ok (some (item, itemPlan)) → item.Intact := by
  have hindex : index < fields.length := hlength ▸ Layout.lt_of_field hfield
  have hvalue : Record.field ⟨.build name declared, fields⟩ index = .ok fields[index] :=
    Record.field_of_lt hindex
  simp only [FieldLayout.part, hvalue]
  split
  next =>
    constructor
    · rintro ⟨⟩
    · rintro item itemPlan ⟨⟩
  next tag htag =>
    split
    next =>
      constructor
      · rintro ⟨⟩
      · rintro item itemPlan ⟨⟩
    next =>
      constructor
      · intro h
        refine Plan.resolve_ne_broken ?_ (error_of_map h)
        rintro whole ⟨⟩ target hnames
        exact hlength ▸ Layout.lt_of_names hfield htag hnames
      · intro item itemPlan h
        rw [(planned_of_map h).1]
        exact hfields _ (List.getElem_mem hindex)

/-- The parts of an intact value are intact, and what has no plan has a fault of its own. -/
theorem intact_of_mem_parts {part : Part} (hvalue : value.Intact)
    (hpart : part ∈ value.parts path plan) :
    part.planned ≠ .error (.broken defect) ∧
      ∀ item itemPlan, part.planned = .ok (some (item, itemPlan)) → item.Intact := by
  obtain ⟨content, hstrip, hplace⟩ := exists_of_mem_parts hpart
  have hcontent := hvalue.strip hstrip
  rcases hplace with ⟨layout, fields, index, field, htarget, hfield, rfl⟩ |
    ⟨elements, index, item, hof, hitem, rfl⟩
  · have hrecord := hcontent.target
    rw [htarget] at hrecord
    cases hrecord with
    | record hlength hfields => exact intact_part hlength hfields hfield
  · constructor
    · intro h
      exact Plan.element_ne_broken (error_of_map h)
    · intro item' itemPlan h
      rw [(planned_of_map h).1]
      exact hcontent.elements hof hitem

/-- The encoding of an intact value breaks no contract if that of the values below it does not. -/
theorem not_broken_encodeWith {child : Option ChildEncoder}
    (hchild : ∀ encode, child = some encode → ∀ (bytes : Bytes) (path : Path) (value : Value)
      (plan : Plan), value.Intact → ¬ (encode path value plan).Fails bytes (.broken defect))
    (hvalue : value.Intact) :
    ¬ (encodeWith settings child path value plan).Fails bytes (.broken defect) := by
  intro h
  rcases fails_encodeWith h with hrefuses | hparts
  · obtain ⟨fault, -, herror, -⟩ := hrefuses child
    cases herror
  obtain ⟨before, part, after, written, back, hsplit, -, hpart, -⟩ := Emission.fails_forM.1 hparts
  have hmem : part ∈ value.parts path plan := by simp [hsplit]
  obtain ⟨hplanned, hitem⟩ := intact_of_mem_parts hvalue hmem
  rcases Emission.fails_bind.1 hpart with hdescend | ⟨_, encode, _, -, hdescend, hencode⟩
  · cases child with
    | none => cases (Emission.fails_fail.1 hdescend).2
    | some encode => cases (Emission.fails_ofExcept.1 hdescend).2
  · obtain ⟨-, hsome⟩ := yields_descend.1 hdescend
    split at hencode
    next error herror =>
      obtain ⟨-, rfl⟩ := Emission.fails_fail.1 hencode
      exact hplanned herror
    next => cases (Emission.fails_ofExcept.1 hencode).2
    next item itemPlan hsome' =>
      exact hchild encode hsome _ _ _ _ (hitem item itemPlan hsome') hencode

/-- However much room there is, encoding an intact value breaks no contract. -/
theorem not_broken_encodeIn (room : Nat) (hvalue : value.Intact) :
    ¬ (encodeIn settings room path value plan).Fails bytes (.broken defect) := by
  induction room generalizing bytes path value plan with
  | zero =>
      refine not_broken_encodeWith ?_ hvalue
      rintro encode ⟨⟩
  | succ room ih =>
      refine not_broken_encodeWith ?_ hvalue
      rintro encode ⟨⟩ bytes path value plan hitem
      exact ih hitem

end encode

/-- What a sink refuses is located at the value that the write is for. -/
theorem Sink.absorb_ne_broken {writes : List Write} {sink : Sink} {defect : Defect} :
    (sink.absorb writes).1 ≠ .error (.broken defect) := by
  induction writes generalizing sink with
  | nil => rintro ⟨⟩
  | cons write writes ih =>
      rw [absorb]
      split
      next => rintro ⟨⟩
      next => exact ih

/-- Encoding an intact value with a tag that names fields of its record only never ends with a
broken contract, on any sink. -/
theorem Encoder.encodeAt_ne_broken (encoder : Encoder) (path : Path) {record : Option Record}
    {tag : Tag} {value : Value}
    (hrecord : ∀ whole ∈ record, ∀ index, tag.Names index → index < whole.fields.length)
    (hvalue : value.Intact) (defect : Defect) :
    (encoder.encodeAt path record tag value).1 ≠ .error (.broken defect) := by
  have hemission (bytes : Bytes) : ¬ (PackedRecord.encodeAt encoder.settings path record tag
      value).Fails bytes (.broken defect) := by
    intro h
    rcases Emission.fails_bind.1 h with hplan | ⟨_, plan, _, -, -, h⟩
    · exact Plan.resolve_ne_broken hrecord (Emission.fails_ofExcept.1 hplan).2
    · exact not_broken_encodeIn _ hvalue h
  unfold encodeAt run
  split
  next error sink hwrites =>
    rintro ⟨⟩
    exact Sink.absorb_ne_broken (congrArg Prod.fst hwrites)
  next =>
    intro h
    exact hemission _ (Emission.fails_sized.1 ⟨h, rfl⟩)

/-- Encoding an intact value never ends with a broken contract, on any sink. -/
theorem Encoder.encodeAs_ne_broken (encoder : Encoder) (tag : Tag) {value : Value}
    (hvalue : value.Intact) (defect : Defect) :
    (encoder.encodeAs tag value).1 ≠ .error (.broken defect) := by
  rw [encodeAs_eq_encodeAt]
  exact encoder.encodeAt_ne_broken .top (by rintro whole ⟨⟩) hvalue defect

end PackedRecord
