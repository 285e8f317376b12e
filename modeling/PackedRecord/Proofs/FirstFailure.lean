import Mathlib
import PackedRecord.Encoder
import PackedRecord.Proofs.Failures
import PackedRecord.Proofs.Steps

/-!
# The first failure of an encoding

An encoding that fails has written the complete encodings of all that comes before the sub-value
that fails, and no byte of that one. `FirstFailure` says which sub-value that is and which bytes
come before it; `Encoder.firstFailure_of_encodeAs` is the statement to read.
-/

namespace PackedRecord

/-- A sub-value that the encoder comes to: the step to it, and its value and plan, or why it has no
plan. An ignored field has neither. -/
structure Part where
  step : Step
  planned : Except Error (Option (Value × Plan))

/-- Encodes a part of the value at `path`. -/
def Part.encode (child : Option ChildEncoder) (path : Path) (part : Part) : Emission Unit := do
  let encode ← descend child path
  match part.planned with
  | .error error => .fail error
  | .ok none => pure ()
  | .ok (some (value, plan)) => encode (part.step :: path) value plan

/-- The field at `index` of the record at `path` as a part of it. -/
def FieldLayout.part (path : Path) (record : Record) (index : Nat) (field : FieldLayout) :
    Part where
  step := .field field.name
  planned :=
    let fieldPath := Step.field field.name :: path
    match field.tag with
    | .error error => .error (.located fieldPath (.tag error))
    | .ok tag =>
        if tag.wire = some .ignore then .ok none
        else
          match record.field index with
          | .error defect => .error (.broken defect)
          | .ok value =>
              (Plan.resolve fieldPath value tag (some record)).map fun plan => some (value, plan)

/-- The exported fields of a record from `index` on. -/
def fieldParts (path : Path) (record : Record) : (index : Nat) → List FieldLayout → List Part
  | _, [] => []
  | index, field :: fields =>
      let rest := fieldParts path record (index + 1) fields
      if field.exported then field.part path record index :: rest else rest

/-- The element at `index` of the array at `path` as a part of it. -/
def Plan.elementPart (plan : Plan) (path : Path) (index : Nat) (item : Value) : Part where
  step := .index index
  planned := (plan.element (.index index :: path) item).map fun itemPlan => some (item, itemPlan)

/-- The elements of an array from `index` on. -/
def elementParts (path : Path) (plan : Plan) : (index : Nat) → List Value → List Part
  | _, [] => []
  | index, item :: items =>
      plan.elementPart path index item :: elementParts path plan (index + 1) items

/-- The parts of an array, unless that is refused. Bytes that are written at once are no parts. -/
def Value.arrayParts (path : Path) (value : Value) (plan : Plan) : List Part :=
  match Elements.of path value plan.wire with
  | .error _ => []
  | .ok elements =>
      if plan.arrayLength.getD elements.items.length < elements.items.length then []
      else if elements.bytes.isSome ∧ (plan.wire = .byte ∨ plan.wire = .uint8) then []
      else elementParts path plan 0 elements.items

/-- The parts of a value that is no array: the fields of a record. -/
def Value.leafParts (path : Path) (value : Value) (plan : Plan) : List Part :=
  match value.target with
  | .record layout fields =>
      if plan.wire = .struct then fieldParts path ⟨layout, fields⟩ 0 layout.fields else []
  | _ => []

/-- The sub-values of a value in the order in which they are encoded: the exported fields of a
record in the order of declaration, the elements of an array by their indices. -/
def Value.parts (path : Path) (value : Value) (plan : Plan) : List Part :=
  if plan.wire = .ignore ∨ plan.wire = .pad then []
  else
    match value.strip plan.indirection with
    | .error _ => []
    | .ok content =>
        if plan.isArray then content.arrayParts path plan else content.leafParts path plan

section parts

variable {settings : Settings} {child : Option ChildEncoder} {path : Path} {plan : Plan}
  {value : Value} {bytes : Bytes} {error : Error}

/-- An exported field is encoded as a part of its record. -/
theorem encodeField_eq {record : Record} {index : Nat} {field : FieldLayout}
    (hexported : field.exported = true) :
    encodeField child path record index field =
      (field.part path record index).encode child path := by
  simp only [encodeField, hexported, if_true, Part.encode, FieldLayout.part]
  congr 1
  funext encode
  cases field.tag with
  | error tagError => rfl
  | ok tag =>
      by_cases hignore : tag.wire = some .ignore
      · simp only [if_pos hignore]
      · simp only [if_neg hignore]
        cases record.field index with
        | error defect => rfl
        | ok value =>
            simp only
            cases Plan.resolve (.field field.name :: path) value tag (some record) with
            | error planError => rfl
            | ok plan => simp [Except.map]

/-- The fields of a record are encoded as its parts. -/
theorem encodeFields_eq (record : Record) (index : Nat) (fields : List FieldLayout) :
    encodeFields child path record index fields =
      (fieldParts path record index fields).forM (·.encode child path) := by
  induction fields generalizing index with
  | nil => rfl
  | cons field fields ih =>
      rw [encodeFields_cons, fieldParts, ih]
      cases hexported : field.exported with
      | false => simp [encodeField, hexported]
      | true =>
          rw [encodeField_eq hexported, if_pos rfl]
          rfl

/-- An element is encoded as a part of its array, in front of those behind it. -/
theorem encodeElements_cons {index : Nat} {last : Option Nat} {item : Value} {items : List Value} :
    encodeElements child path plan index last (item :: items) =
      ((plan.elementPart path index item).encode child path).sized >>= fun size =>
        encodeElements child path plan (index + 1) (some size) items := by
  rw [encodeElements, Part.encode, Plan.elementPart]
  cases child with
  | none => rfl
  | some encode =>
      simp only [descend, Emission.pure_eq, Emission.ofExcept_ok_bind]
      cases plan.element (.index index :: path) item with
      | error planError => rfl
      | ok itemPlan => simp only [Except.map, Emission.ofExcept_ok_bind]

/-- Elements fail as the parts of their array do. -/
theorem fails_encodeElements {index : Nat} {last : Option Nat} {items : List Value} :
    (encodeElements child path plan index last items).Fails bytes error ↔
      ((elementParts path plan index items).forM (·.encode child path)).Fails bytes error := by
  induction items generalizing index last bytes with
  | nil => simp [encodeElements, elementParts]
  | cons item items ih =>
      rw [encodeElements_cons, elementParts, Emission.fails_bind, Emission.fails_sized]
      show _ ↔ (Part.encode child path _ >>= fun _ => List.forM _ _).Fails bytes error
      rw [Emission.fails_bind]
      refine or_congr_right ?_
      constructor
      · rintro ⟨front, _, back, hbytes, hitem, hrest⟩
        obtain ⟨result, hitem, -⟩ := Emission.yields_sized.1 hitem
        exact ⟨front, result, back, hbytes, hitem, ih.1 hrest⟩
      · rintro ⟨front, result, back, hbytes, hitem, hrest⟩
        exact ⟨front, front.length, back, hbytes,
          Emission.yields_sized.2 ⟨result, hitem, rfl⟩, ih.2 hrest⟩

/-- A value that is no array fails by itself, or as its parts do. -/
theorem fails_encodeLeaf (h : (encodeLeaf settings child path value plan).Fails bytes error) :
    (∀ child, (encodeLeaf settings child path value plan).Refuses path error) ∨
      ((value.leafParts path plan).forM (·.encode child path)).Fails bytes error := by
  unfold encodeLeaf at h ⊢
  unfold Value.leafParts
  generalize value.target = target at h ⊢
  cases target with
  | record layout fields =>
      simp only at h ⊢
      by_cases hwire : plan.wire = .struct
      · rw [if_pos hwire, encodeFields_eq] at h
        rw [if_pos hwire]
        exact .inr h
      · simp only [if_neg hwire] at h ⊢
        exact .inl fun _ => refuses_fail rfl h
  | text content | borrowedText content =>
      left
      intro _
      simp only at h ⊢
      split at h
      next htext =>
        rw [if_pos htext]
        exact refuses_encodeText h
      next htext =>
        rw [if_neg htext]
        exact refuses_fail rfl h
  | scalar content =>
      left
      intro _
      simp only at h ⊢
      split at h
      next hnumeric =>
        rw [if_pos hnumeric]
        split at h
        next image himage =>
          exact (not_fails_emitImage (WireType.isScalarWidth_byteSize hnumeric) _ h).elim
        next fault hfault =>
          exact refuses_fail (by cases fault <;> rfl) h
      next hnumeric =>
        rw [if_neg hnumeric]
        exact refuses_fail rfl h
  | sequence | optional | dynamic | pointer | foreign =>
      exact .inl fun _ => refuses_fail rfl h

/-- Elements that are written one by one fail as the parts of their array do, and bytes that are
written at once do not fail. -/
theorem fails_encodeItems {elements : Elements}
    (h : (encodeItems child path plan elements).Fails bytes error) :
    ¬ (elements.bytes.isSome ∧ (plan.wire = .byte ∨ plan.wire = .uint8)) ∧
      ((elementParts path plan 0 elements.items).forM (·.encode child path)).Fails bytes error := by
  unfold encodeItems at h
  split at h
  next data hdata =>
    split at h
    next => simp [Emission.fails_bind] at h
    next hwire => exact ⟨fun hbytes => hwire hbytes.2, fails_encodeElements.1 h⟩
  next hnone => exact ⟨by simp [hnone], fails_encodeElements.1 h⟩

/-- An array fails by itself, or as its parts do. -/
theorem fails_encodeArray (h : (encodeArray child path value plan).Fails bytes error) :
    (∀ child, (encodeArray child path value plan).Refuses path error) ∨
      ((value.arrayParts path plan).forM (·.encode child path)).Fails bytes error := by
  simp only [encodeArray_eq] at h ⊢
  unfold Value.arrayParts
  cases hof : Elements.of path value plan.wire with
  | error ofError =>
      rw [hof] at h
      obtain ⟨-, rfl⟩ := Emission.fails_fail.1 h
      left
      intro _
      unfold Elements.of at hof
      repeat' split at hof
      all_goals cases hof
      exact ⟨_, rfl, rfl, rfl⟩
  | ok elements =>
      rw [hof, Emission.ofExcept_ok_bind] at h
      simp only [Emission.ofExcept_ok_bind]
      split at h
      next hlong =>
        left
        intro _
        rw [if_pos hlong]
        exact refuses_fail rfl h
      next hfits =>
        right
        rcases Emission.fails_bind.1 h with h | ⟨_, _, _, -, -, h⟩
        · obtain ⟨hsingle, hparts⟩ := fails_encodeItems h
          rw [if_neg hfits, if_neg hsingle]
          exact hparts
        · -- Padding does not fail.
          split at h
          next => exact (Emission.not_fails_write h).elim
          next => cases (Emission.fails_ofExcept.1 h).2

/-- A reference without a value exceeds no limit. -/
theorem isLimit_of_strip {levels : Nat} {fault : Fault}
    (h : value.strip levels = .error fault) : fault.isLimit = false := by
  fun_induction Value.strip levels value
  case case1 => cases h
  case case2 ih => exact ih h
  case case3 ih => exact ih h
  case case4 | case5 =>
    cases h
    rfl
  case case6 => cases h

/-- A value fails by itself and before it writes anything, or as its parts do. -/
theorem fails_encodeWith (h : (encodeWith settings child path value plan).Fails bytes error) :
    (∀ child, (encodeWith settings child path value plan).Refuses path error) ∨
      ((value.parts path plan).forM (·.encode child path)).Fails bytes error := by
  by_cases hignore : plan.wire = .ignore
  · unfold encodeWith at h
    simp [hignore] at h
  by_cases hpad : plan.wire = .pad
  · unfold encodeWith at h
    simp [hpad] at h
  simp only [encodeWith_coded hpad hignore] at h ⊢
  rw [Value.parts, if_neg (by simp [hignore, hpad])]
  cases hstrip : value.strip plan.indirection with
  | error fault =>
      simp only [hstrip] at h
      exact .inl fun _ => refuses_fail (isLimit_of_strip hstrip) h
  | ok content =>
      simp only [hstrip] at h ⊢
      split at h
      next harray =>
        simp only [if_pos harray]
        exact fails_encodeArray h
      next harray =>
        simp only [if_neg harray]
        exact fails_encodeLeaf h

/-- The parts of a record are fields of its layout. -/
theorem exists_of_mem_fieldParts {record : Record} {index : Nat} {rest : List FieldLayout}
    {part : Part} (hrest : record.layout.fields.drop index = rest)
    (h : part ∈ fieldParts path record index rest) :
    ∃ position field, record.layout.fields[position]? = some field ∧
      part = FieldLayout.part path record position field := by
  induction rest generalizing index with
  | nil => cases h
  | cons field rest ih =>
      obtain ⟨hfield, hlater⟩ := Layout.fields_of_drop hrest
      rw [fieldParts] at h
      split at h
      next =>
        rcases List.mem_cons.1 h with rfl | h
        · exact ⟨index, field, hfield, rfl⟩
        · exact ih hlater h
      next => exact ih hlater h

/-- A part of an array is one of its elements at some index. -/
theorem exists_of_mem_elementParts {index : Nat} {items : List Value} {part : Part}
    (h : part ∈ elementParts path plan index items) :
    ∃ position, ∃ item ∈ items, part = plan.elementPart path position item := by
  induction items generalizing index with
  | nil => cases h
  | cons item items ih =>
      rcases List.mem_cons.1 h with rfl | h
      · exact ⟨index, item, List.mem_cons_self, rfl⟩
      · obtain ⟨position, item', hitem, rfl⟩ := ih h
        exact ⟨position, item', List.mem_cons_of_mem _ hitem, rfl⟩

/-- The parts of a value are the fields of a record or the elements of an array behind its
references. -/
theorem exists_of_mem_parts {part : Part} (h : part ∈ value.parts path plan) :
    ∃ content, value.strip plan.indirection = .ok content ∧
      ((∃ layout fields index field, content.target = .record layout fields ∧
          layout.fields[index]? = some field ∧
          part = FieldLayout.part path ⟨layout, fields⟩ index field) ∨
        ∃ elements index item, Elements.of path content plan.wire = .ok elements ∧
          item ∈ elements.items ∧ part = plan.elementPart path index item) := by
  unfold Value.parts at h
  split at h
  · cases h
  split at h
  · cases h
  next content hstrip =>
    refine ⟨content, hstrip, ?_⟩
    split at h
    next =>
      unfold Value.arrayParts at h
      split at h
      · cases h
      next elements hof =>
        repeat' split at h
        · cases h
        · cases h
        · obtain ⟨index, item, hitem, rfl⟩ := exists_of_mem_elementParts h
          exact .inr ⟨elements, index, item, hof, hitem, rfl⟩
    next =>
      unfold Value.leafParts at h
      split at h
      next layout fields htarget =>
        split at h
        · obtain ⟨index, field, hfield, rfl⟩ := exists_of_mem_fieldParts List.drop_zero h
          exact .inl ⟨layout, fields, index, field, htarget, hfield, rfl⟩
        · cases h
      · cases h

/-- That a part has no plan is its own fault. -/
theorem isOwn_of_mem_parts {part : Part} (hpart : part ∈ value.parts path plan)
    (h : part.planned = .error error) : error.IsOwn (part.step :: path) := by
  obtain ⟨content, -, hplace⟩ := exists_of_mem_parts hpart
  rcases hplace with ⟨layout, fields, index, field, -, -, rfl⟩ | ⟨_, index, item, -, -, rfl⟩
  · simp only [FieldLayout.part] at h
    split at h
    next =>
      cases h
      exact .fault rfl
    next tag _ =>
      split at h
      · cases h
      split at h
      next defect _ =>
        cases h
        exact .broken defect
      next => exact Plan.isOwn_of_resolve (error_of_map h)
  · exact Plan.isOwn_of_element (error_of_map h)

end parts

/-- The parts are encoded completely, each at its turn, below a value with room for one more step
than `room`. -/
abbrev Complete (settings : Settings) (room : Nat) (path : Path) (parts : List Part)
    (written : List Bytes) : Prop :=
  List.Forall₂
    (fun part bytes => (part.encode (some (encodeIn settings room)) path).Yields bytes ())
    parts written

/-- The sub-value at `place` is the first one, in the order of encoding, whose own encoding fails,
while the value at `path` is encoded by its plan. The fault is `fault`, and the bytes are the
complete encodings of everything before the sub-value. -/
inductive FirstFailure (settings : Settings) :
    (room : Nat) → (path : Path) → Value → Plan → (place : Path) → Bytes → Fault → Prop where
  /-- The value itself cannot be encoded, whatever is done with its parts. -/
  | own {room : Nat} {path : Path} {value : Value} {plan : Plan} {fault : Fault}
      (hown : ∀ child, encodeWith settings child path value plan = .fail (.located path fault)) :
      FirstFailure settings room path value plan path [] fault
  /-- The first part lies too deep. -/
  | tooDeep {path : Path} {value : Value} {plan : Plan} {part : Part} {after : List Part}
      (hparts : value.parts path plan = part :: after) :
      FirstFailure settings 0 path value plan (part.step :: path) [] .recursionLimit
  /-- A part has no plan. -/
  | unplanned {room : Nat} {path : Path} {value : Value} {plan : Plan} {before after : List Part}
      {part : Part} {written : List Bytes} {fault : Fault}
      (hparts : value.parts path plan = before ++ part :: after)
      (hbefore : Complete settings room path before written)
      (hpart : part.planned = .error (.located (part.step :: path) fault)) :
      FirstFailure settings (room + 1) path value plan (part.step :: path) written.flatten fault
  /-- The failure is within a part. -/
  | within {room : Nat} {path place : Path} {value item : Value} {plan itemPlan : Plan}
      {before after : List Part} {part : Part} {written : List Bytes} {bytes : Bytes}
      {fault : Fault} (hparts : value.parts path plan = before ++ part :: after)
      (hbefore : Complete settings room path before written)
      (hpart : part.planned = .ok (some (item, itemPlan)))
      (hwithin : FirstFailure settings room (part.step :: path) item itemPlan place bytes fault) :
      FirstFailure settings (room + 1) path value plan place (written.flatten ++ bytes) fault

/-- The first failure of a value that is encoded as a tag says. -/
inductive FirstFailureAs (settings : Settings) (tag : Tag) (value : Value) :
    (place : Path) → Bytes → Fault → Prop where
  /-- The value has no plan. -/
  | unplanned {fault : Fault}
      (hplan : Plan.resolve .top value tag none = .error (.located .top fault)) :
      FirstFailureAs settings tag value .top [] fault
  /-- The failure is within the value, of which the plan is `plan`. -/
  | planned {plan : Plan} {place : Path} {bytes : Bytes} {fault : Fault}
      (hplan : Plan.resolve .top value tag none = .ok plan)
      (hfailure : FirstFailure settings settings.limits.recursion .top value plan place bytes
        fault) :
      FirstFailureAs settings tag value place bytes fault

/-- The path that an error names: that of the sub-value at `place`, or that of its container if it
lies too deep. -/
def Fault.location (fault : Fault) (place : Path) : Path :=
  if fault = .recursionLimit then place.tail else place

section run

variable {settings : Settings} {bytes : Bytes} {error : Error}

/-- A fault at no limit is reported where it is. -/
theorem Fault.location_of_isLimit (fault : Fault) {path : Path} (h : fault.isLimit = false) :
    fault.location path = path := by
  refine if_neg ?_
  rintro rfl
  cases h

/-- A value's own error is located at it. -/
theorem Error.IsOwn.exists_fault {path : Path} (hown : error.IsOwn path)
    (hintact : ∀ defect, error ≠ .broken defect) :
    ∃ fault, error = .located path fault ∧ fault.location path = path := by
  cases hown with
  | fault hfault => exact ⟨_, rfl, Fault.location_of_isLimit _ hfault⟩
  | broken defect => exact absurd rfl (hintact defect)

variable {path : Path} {value : Value} {plan : Plan}

/-- A value that is refused, whatever is done with its parts, is its own first failure. -/
theorem firstFailure_of_refuses {child : Option ChildEncoder} {room : Nat}
    (hrefuses : ∀ child, (encodeWith settings child path value plan).Refuses path error)
    (h : (encodeWith settings child path value plan).Fails bytes error) :
    ∃ place fault, FirstFailure settings room path value plan place bytes fault ∧
      error = .located (fault.location place) fault := by
  obtain ⟨fault, hfault, rfl, hfail⟩ := hrefuses child
  rw [hfail] at h
  obtain ⟨rfl, -⟩ := Emission.fails_fail.1 h
  refine ⟨path, fault, .own fun child => ?_, by rw [fault.location_of_isLimit hfault]⟩
  obtain ⟨_, -, -, hfail⟩ := hrefuses child
  exact hfail

/-- Without room below a value, the first of its parts lies too deep. -/
theorem firstFailure_of_parts_zero
    (h : ((value.parts path plan).forM (·.encode none path)).Fails bytes error) :
    ∃ place fault, FirstFailure settings 0 path value plan place bytes fault ∧
      error = .located (fault.location place) fault := by
  obtain ⟨before, part, after, written, back, hparts, hbefore, hpart, rfl⟩ :=
    Emission.fails_forM.1 h
  cases hbefore with
  | nil =>
      obtain ⟨rfl, rfl⟩ := Emission.fails_fail.1 hpart
      exact ⟨part.step :: path, .recursionLimit, .tooDeep hparts, rfl⟩
  | cons hfirst => exact (Emission.not_yields_fail hfirst).elim

/-- With room below a value, the failure of its parts is the first one within one of them. -/
theorem firstFailure_of_parts_succ {room : Nat}
    (hchild : ∀ {bytes : Bytes} {path : Path} {value : Value} {plan : Plan},
      (encodeIn settings room path value plan).Fails bytes error →
        ∃ place fault, FirstFailure settings room path value plan place bytes fault ∧
          error = .located (fault.location place) fault)
    (h : ((value.parts path plan).forM (·.encode (some (encodeIn settings room)) path)).Fails bytes
      error)
    (hintact : ∀ defect, error ≠ .broken defect) :
    ∃ place fault, FirstFailure settings (room + 1) path value plan place bytes fault ∧
      error = .located (fault.location place) fault := by
  obtain ⟨before, part, after, written, back, hparts, hbefore, hpart, rfl⟩ :=
    Emission.fails_forM.1 h
  have hmem : part ∈ value.parts path plan := by simp [hparts]
  simp only [Part.encode, descend, Emission.pure_eq, Emission.ofExcept_ok_bind] at hpart
  cases hplanned : part.planned with
  | error planError =>
      rw [hplanned] at hpart
      obtain ⟨rfl, rfl⟩ := Emission.fails_fail.1 hpart
      obtain ⟨fault, rfl, hlocation⟩ := (isOwn_of_mem_parts hmem hplanned).exists_fault hintact
      rw [List.append_nil]
      exact ⟨part.step :: path, fault, .unplanned hparts hbefore hplanned, by rw [hlocation]⟩
  | ok planned =>
      cases planned with
      | none =>
          rw [hplanned] at hpart
          cases (Emission.fails_ofExcept.1 hpart).2
      | some planned =>
          rw [hplanned] at hpart
          obtain ⟨place, fault, hfailure, rfl⟩ := hchild hpart
          exact ⟨place, fault, .within hparts hbefore hplanned hfailure, rfl⟩

/-- An encoding that fails has a first failure, behind the bytes that it has written and at the
place that its error names. -/
theorem firstFailure_of_encodeIn {room : Nat}
    (h : (encodeIn settings room path value plan).Fails bytes error)
    (hintact : ∀ defect, error ≠ .broken defect) :
    ∃ place fault, FirstFailure settings room path value plan place bytes fault ∧
      error = .located (fault.location place) fault := by
  induction room generalizing path value plan bytes with
  | zero =>
      rcases fails_encodeWith h with hrefuses | hparts
      · exact firstFailure_of_refuses hrefuses h
      · exact firstFailure_of_parts_zero hparts
  | succ room ih =>
      rcases fails_encodeWith h with hrefuses | hparts
      · exact firstFailure_of_refuses hrefuses h
      · exact firstFailure_of_parts_succ ih hparts hintact

/-- An encoding by a tag that fails has a first failure as well. -/
theorem firstFailure_of_encodeTagged {tag : Tag}
    (h : (encodeTagged settings tag value).Fails bytes error)
    (hintact : ∀ defect, error ≠ .broken defect) :
    ∃ place fault, FirstFailureAs settings tag value place bytes fault ∧
      error = .located (fault.location place) fault := by
  unfold encodeTagged at h
  cases hplan : Plan.resolve .top value tag none with
  | error planError =>
      rw [hplan] at h
      obtain ⟨rfl, rfl⟩ := Emission.fails_fail.1 h
      obtain ⟨fault, rfl, hlocation⟩ := (Plan.isOwn_of_resolve hplan).exists_fault hintact
      exact ⟨.top, fault, .unplanned hplan, by rw [hlocation]⟩
  | ok plan =>
      rw [hplan, Emission.ofExcept_ok_bind] at h
      obtain ⟨place, fault, hfailure, rfl⟩ := firstFailure_of_encodeIn h hintact
      exact ⟨place, fault, .planned hplan hfailure, rfl⟩

end run

/-- A run that fails on a sink that does not has carried out all writes of the emission. -/
theorem Encoder.fails_of_run {α : Type} {encoder after : Encoder} {emission : Emission α}
    {error : Error} (hsink : encoder.sink.NeverFails)
    (h : encoder.run emission = (.error error, after)) :
    ∃ bytes, emission.Fails bytes error ∧
      after.sink.held.toList = encoder.sink.held.toList ++ bytes := by
  have habsorb := hsink emission.writes
  unfold run at h
  split at h
  next sinkError sink hwrites =>
    rw [hwrites] at habsorb
    cases habsorb
  next sink hwrites =>
    obtain ⟨houtcome, rfl⟩ := Prod.mk.inj h
    exact ⟨emission.bytes, ⟨houtcome, rfl⟩, Sink.held_of_absorb_ok hwrites⟩

/-- If encoding a value to a sink that never fails ends with an error, then there is a first
sub-value whose own encoding fails: the sink has taken the complete encodings of everything before
it and nothing else, and the error names the fields and elements on the path to it, or to its
container if it lies too deep. Values whose records have the fields of their layouts never break a
contract, as `Encoder.encodeAs_ne_broken` says. -/
theorem Encoder.firstFailure_of_encodeAs {encoder after : Encoder} {tag : Tag} {value : Value}
    {error : Error} (hsink : encoder.sink.NeverFails)
    (h : encoder.encodeAs tag value = (.error error, after))
    (hintact : ∀ defect, error ≠ .broken defect) :
    ∃ place bytes fault, FirstFailureAs encoder.settings tag value place bytes fault ∧
      after.sink.held.toList = encoder.sink.held.toList ++ bytes ∧
      error = .located (fault.location place) fault ∧
      error.message =
        String.join ((fault.location place).reverse.map Step.toText) ++ fault.message := by
  obtain ⟨bytes, hfails, hheld⟩ := fails_of_run hsink h
  obtain ⟨place, fault, hfailure, rfl⟩ :=
    firstFailure_of_encodeTagged (Emission.fails_sized.1 hfails) hintact
  exact ⟨place, bytes, fault, hfailure, hheld, rfl, rfl⟩

section keys

/-- A 32-bit integer as a value. -/
def int32 (value : Int) (h : IntType.i32.Holds value) : Value :=
  .scalar (.int ⟨.i32, value, h⟩)

/-- A record with a number and the keys 1, 2, 3 and 300, which are to be bytes. -/
def keys : Value :=
  .record (.build "Keys" [⟨"id", "", true⟩, ⟨"key", "[]uint8", true⟩])
    [.ofByte 7, .sequence .growable (.scalar (.int .i32))
      [int32 1 (by decide), int32 2 (by decide), int32 3 (by decide), int32 300 (by decide)]]

/-- Of the keys 1, 2, 3 and 300, the last one fails behind the bytes of the other ones. -/
theorem encodeAs_keys :
    (⟨⟨.bigEndian, {}, .empty⟩, .willing #[9]⟩ : Encoder).encodeAs .empty keys =
      (.error (.located [.index 3, .field "key"] (.notFit "300" "uint8")),
        ⟨⟨.bigEndian, {}, .empty⟩, .willing #[9, 7, 1, 2, 3]⟩) := by cbv

/-- The last key does not fit; the number and the other keys come before it. -/
theorem firstFailure_keys :
    FirstFailureAs ⟨.bigEndian, {}, .empty⟩ .empty keys [.index 3, .field "key"] [7, 1, 2, 3]
        (.notFit "300" "uint8") ∧
      (Error.located [.index 3, .field "key"] (.notFit "300" "uint8")).message =
        "field \"key\": array index [3]: value 300 not fit in uint8" := by
  obtain ⟨place, bytes, fault, hfailure, hheld, herror, -⟩ :=
    Encoder.firstFailure_of_encodeAs (Sink.neverFails_willing _) encodeAs_keys nofun
  obtain ⟨hplace, rfl⟩ := Error.located.inj herror
  cases hplace
  cases hheld
  exact ⟨hfailure, by decide⟩

end keys

/-- The place of a value, or of a sub-value in it that is no ignored field. -/
inductive IsCodedPlace : (path : Path) → Value → Plan → (place : Path) → Prop where
  | here {path : Path} {value : Value} {plan : Plan} : IsCodedPlace path value plan path
  | part {path : Path} {value : Value} {plan : Plan} {part : Part}
      (hpart : part ∈ value.parts path plan) (hcoded : part.planned ≠ .ok none) :
      IsCodedPlace path value plan (part.step :: path)
  | within {path place : Path} {value item : Value} {plan itemPlan : Plan} {part : Part}
      (hpart : part ∈ value.parts path plan) (hplanned : part.planned = .ok (some (item, itemPlan)))
      (hplace : IsCodedPlace (part.step :: path) item itemPlan place) :
      IsCodedPlace path value plan place

section crate

/-- The plan of a record by itself. -/
def recordPlan : Plan := ⟨.struct, false, none, none, 0, none⟩

/-- A record of which the only field is ignored. -/
def lid : Value := .record (.build "Lid" [⟨"note", "ignore", true⟩]) [.ofByte 1]

/-- A record that holds a record of which the only field is ignored. -/
def crate : Value := .record (.build "Crate" [⟨"lid", "", true⟩]) [lid]

/-- With a limit of one step, a crate cannot be encoded although nothing in its lid is coded. -/
theorem encode_crate :
    ((⟨⟨.bigEndian, { recursion := 1 }, .empty⟩, .unbounded⟩ : Encoder).encode crate).1 =
      .error (.located [.field "lid"] .recursionLimit) := by cbv

/-- The only part of a crate is its lid. -/
theorem parts_crate :
    crate.parts .top recordPlan = [⟨.field "lid", .ok (some (lid, recordPlan))⟩] := by cbv

/-- The only part of a lid is the ignored note. -/
theorem parts_lid :
    lid.parts [.field "lid"] recordPlan = [⟨.field "note", .ok none⟩] := by cbv

/-- In a lid, nothing but the lid itself is coded. -/
theorem eq_of_isCodedPlace_lid {place : Path}
    (h : IsCodedPlace [.field "lid"] lid recordPlan place) : place = [.field "lid"] := by
  cases h with
  | here => rfl
  | part hpart hcoded =>
      rw [parts_lid, List.mem_singleton] at hpart
      subst hpart
      exact absurd rfl hcoded
  | within hpart hplanned =>
      rw [parts_lid, List.mem_singleton] at hpart
      subst hpart
      cases hplanned

/-- In a crate, nothing but the crate itself and its lid is coded. -/
theorem eq_of_isCodedPlace_crate {place : Path} (h : IsCodedPlace .top crate recordPlan place) :
    place = .top ∨ place = [.field "lid"] := by
  cases h with
  | here => exact .inl rfl
  | part hpart =>
      rw [parts_crate, List.mem_singleton] at hpart
      subst hpart
      exact .inr rfl
  | within hpart hplanned hplace =>
      rw [parts_crate, List.mem_singleton] at hpart
      subst hpart
      cases hplanned
      exact .inr (eq_of_isCodedPlace_lid hplace)

/-- An ignored field counts for the depth although nothing is encoded for it: with one step of room
it lies too deep, and the error names its container, which contains no other sub-value. -/
theorem location_ne_of_isCodedPlace_crate :
    Sink.unbounded.NeverFails ∧
    ((⟨⟨.bigEndian, { recursion := 1 }, .empty⟩, .unbounded⟩ : Encoder).encode crate).1 =
      .error (.located [.field "lid"] .recursionLimit) ∧
    Plan.resolve .top crate .empty none = .ok recordPlan ∧
    ∀ place, IsCodedPlace .top crate recordPlan place →
      Fault.recursionLimit.location place ≠ [.field "lid"] := by
  refine ⟨Sink.neverFails_willing _, encode_crate, rfl, ?_⟩
  intro place hplace
  rcases eq_of_isCodedPlace_crate hplace with rfl | rfl
  · exact nofun
  · exact nofun

end crate

end PackedRecord
