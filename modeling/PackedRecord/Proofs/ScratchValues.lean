import PackedRecord.Proofs.Dispatch
import PackedRecord.Proofs.Noninterference

/-!
# Scratch values

The decoder reads the slots of an array that its destination has no place for into one scratch
value, which starts as the default of the element type and keeps what one slot leaves in it for the
next one. `Value.Serves` relates a default to what may be left of it, and `serves_decodeIn` says
that such a value takes the same bytes as the default: where a plan takes a length from its
destination, it is still that of the default, and what a size expression refers to was decoded anew
before it is evaluated. For the latter, a field that counts for others must not be an array that may
be without elements, because the value of a field without elements is left as it was.
-/

namespace PackedRecord

/-- A size expression of a field that is not ignored names the field at `target`. -/
def Layout.Counts (layout : Layout) (target : Nat) : Prop :=
  ∃ index tag, layout.visitedTag? index = some tag ∧ tag.Names target

/-- No coded field that counts for others is an array that may have no elements. -/
def Layout.FillsCounts (layout : Layout) : Prop :=
  ∀ target tag expr values, layout.Counts target → layout.codedTag? target = some tag →
    tag.brackets = .length expr → expr.eval (some ⟨layout, values⟩) ≠ .ok 0

namespace HostType

/-- The type `part` occurs in another one. -/
inductive OccursIn (schema : Schema) (part : HostType) : HostType → Prop where
  | refl : OccursIn schema part part
  | vector {element : HostType} (h : OccursIn schema part element) :
      OccursIn schema part (.vector element)
  | array {length : Nat} {element : HostType} (h : OccursIn schema part element) :
      OccursIn schema part (.array length element)
  | optional {content : HostType} (h : OccursIn schema part content) :
      OccursIn schema part (.optional content)
  | pointer {kind : PointerKind} {target : HostType} (h : OccursIn schema part target) :
      OccursIn schema part (.pointer kind target)
  | record {key : String} {type : RecordType} {fieldType : HostType}
      (hlookup : schema.lookup key = some type) (hfield : fieldType ∈ type.types)
      (h : OccursIn schema part fieldType) : OccursIn schema part (.record key)

/-- Every record type that occurs in the type is registered, with a layout that was built, and none
of its coded fields counts for others while it may be an array without elements. -/
def Steady (schema : Schema) (type : HostType) : Prop :=
  ∀ key, OccursIn schema (.record key) type → ∃ registered name declared,
    schema.lookup key = some registered ∧ registered.layout = .build name declared ∧
      registered.layout.FillsCounts

namespace Steady

variable {schema : Schema} {element : HostType}

/-- The elements of a steady vector are steady. -/
theorem of_vector (h : (vector element).Steady schema) : element.Steady schema :=
  fun key hkey => h key (.vector hkey)

/-- The elements of a steady array are steady. -/
theorem of_array {length : Nat} (h : (array length element).Steady schema) :
    element.Steady schema :=
  fun key hkey => h key (.array hkey)

/-- The content of a steady optional is steady. -/
theorem of_optional (h : (optional element).Steady schema) : element.Steady schema :=
  fun key hkey => h key (.optional hkey)

/-- The target of a steady pointer is steady. -/
theorem of_pointer {kind : PointerKind} (h : (pointer kind element).Steady schema) :
    element.Steady schema :=
  fun key hkey => h key (.pointer hkey)

/-- The fields of a steady record are steady. -/
theorem of_record {key : String} {type : RecordType} (h : (record key).Steady schema)
    (hlookup : schema.lookup key = some type) (hfield : element ∈ type.types) :
    element.Steady schema :=
  fun inner hinner => h inner (.record hlookup hfield hinner)

/-- The record types of a steady type are known. -/
theorem known {type : HostType} (h : type.Steady schema) : type.Known schema := by
  induction type with
  | record key =>
      obtain ⟨registered, -, -, hlookup, -⟩ := h key .refl
      show schema.lookup key ≠ none
      rw [hlookup]
      exact nofun
  | pointer kind target ih => exact ih h.of_pointer
  | _ => trivial

end Steady

end HostType

namespace Plan

/-- The plan takes the length of a string from the destination. -/
def TakesLength (plan : Plan) : Prop :=
  (plan.wire = .string ∨ plan.wire = .any) ∧ plan.bufferLength = none ∨
    plan.wire.isNumeric = true ∧ plan.arrayLength = none

/-- The plans differ in lengths that both of them give, if at all. -/
structure SameShape (plan plan' : Plan) : Prop where
  wire_eq : plan'.wire = plan.wire
  arrayLength_iff : plan'.arrayLength = none ↔ plan.arrayLength = none
  bufferLength_iff : plan'.bufferLength = none ↔ plan.bufferLength = none

variable {plan plan' itemPlan : Plan} {path path' : Path} {value value' item : Value} {tag : Tag}
  {record record' : Option Record}

/-- Of two plans of one shape, both take the length of a string from the destination or
neither does. -/
theorem SameShape.takesLength_iff (h : plan.SameShape plan') :
    plan'.TakesLength ↔ plan.TakesLength := by
  unfold TakesLength
  rw [h.wire_eq, h.arrayLength_iff, h.bufferLength_iff]

/-- The plan for an element does not depend on where the element stands, nor on its length. -/
theorem element_of_natural (hnatural : value'.natural.unsized = value.natural.unsized)
    (h : plan.element path value = .ok itemPlan) : plan.element path' value' = .ok itemPlan := by
  obtain ⟨hwire, harray, hindirection⟩ := Natural.unsized_inj.1 hnatural
  have helement {wire : WireType} (hitem : elementWire path plan.wire value = .ok wire) :
      elementWire path' plan.wire value' = .ok wire := by
    unfold elementWire at *
    rw [hwire]
    split at hitem <;> simp_all
  unfold element at *
  cases hitem : elementWire path plan.wire value with
  | error error =>
      rw [hitem] at h
      cases h
  | ok wire =>
      rw [hitem] at h
      rw [helement hitem, harray, hindirection]
      exact h

/-- The elements of plans of one shape have plans of one shape. -/
theorem SameShape.element (h : plan.SameShape plan')
    (hitem : plan'.element path item = .ok itemPlan) :
    ∃ itemPlan', plan.element path item = .ok itemPlan' ∧ itemPlan'.SameShape itemPlan := by
  unfold Plan.element at *
  rw [h.wire_eq] at hitem
  cases hwire : elementWire path plan.wire item with
  | error error =>
      rw [hwire] at hitem
      cases hitem
  | ok wire =>
      rw [hwire] at hitem
      cases hitem
      exact ⟨_, rfl, rfl, Iff.rfl, h.bufferLength_iff⟩

/-- A tag gives plans of one shape, whatever the sizes are. -/
theorem sameShape_of_resolve (h : resolve path value tag record = .ok plan)
    (h' : resolve path' value tag record' = .ok plan') : plan.SameShape plan' := by
  obtain ⟨hwire, harray, hbuffer, -⟩ := parts_of_resolve h
  obtain ⟨hwire', harray', hbuffer', -⟩ := parts_of_resolve h'
  refine ⟨?_, ?_, ?_⟩
  · rw [wire_of_resolveWire hwire, wire_of_resolveWire hwire']
  · unfold resolveArray at harray harray'
    cases hbrackets : tag.brackets with
    | absent | blank =>
        rw [hbrackets] at harray harray'
        rw [← (Prod.mk.inj (Except.ok.inj harray)).2, ← (Prod.mk.inj (Except.ok.inj harray')).2]
    | length expr =>
        obtain ⟨-, length, hlength, -⟩ := eval_of_resolve_length h hbrackets
        obtain ⟨-, length', hlength', -⟩ := eval_of_resolve_length h' hbrackets
        rw [hlength, hlength']
        exact iff_of_false nofun nofun
  · cases hexpr : tag.bufferLength with
    | none =>
        rw [hexpr] at hbuffer hbuffer'
        rw [← Except.ok.inj hbuffer, ← Except.ok.inj hbuffer']
    | some expr =>
        obtain ⟨size, hsize, -⟩ := eval_of_resolve_size h hexpr
        obtain ⟨size', hsize', -⟩ := eval_of_resolve_size h' hexpr
        rw [hsize, hsize']
        exact iff_of_false nofun nofun

end Plan

namespace Value

/-- Nothing can be decoded into the value by a plan that codes it. -/
def IsInert : Value → Prop
  | .borrowedText _ | .foreign _ | .dynamic none | .sequence .borrowed _ _ => True
  | _ => False

/-- The second value may be left of the first one, which is a default, by decodings under the tag
or the array that the plan is for. It serves as well for the next one. -/
inductive Serves (schema : Schema) : Plan → Value → Value → Prop where
  | scalar {plan : Plan} {content content' : Scalar} (h : content'.type = content.type) :
      Serves schema plan (.scalar content) (.scalar content')
  | text {plan : Plan} {content : String} (h : plan.TakesLength → content = "") :
      Serves schema plan (.text "") (.text content)
  | inert {plan : Plan} {value : Value} (h : value.IsInert) : Serves schema plan value value
  | vector {plan : Plan} {element : HostType} {items : List Value}
      (hsteady : element.Steady schema) (hlength : plan.arrayLength = none → items = [])
      (hitems : ∀ item ∈ items, ∀ path itemPlan,
        plan.element path (schema.default element) = .ok itemPlan →
        Serves schema itemPlan (schema.default element) item) :
      Serves schema plan (.sequence .growable element []) (.sequence .growable element items)
  | array {plan : Plan} {element : HostType} {items items' : List Value}
      (hsteady : element.Steady schema) (hlength : items'.length = items.length)
      (hbytes : element = .byte → ∀ item ∈ items, ∃ byte, item = .ofByte byte)
      (hitems : ∀ (index : Nat) item item' path itemPlan, items[index]? = some item →
        items'[index]? = some item' → plan.element path item = .ok itemPlan →
        Serves schema itemPlan item item') :
      Serves schema plan (.sequence .fixed element items) (.sequence .fixed element items')
  | empty {plan : Plan} {type : HostType} (hsteady : type.Steady schema) :
      Serves schema plan (.optional type none) (.optional type none)
  | filled {plan : Plan} {type : HostType} {content : Value} (hsteady : type.Steady schema)
      (h : Serves schema plan (schema.default type) content) :
      Serves schema plan (.optional type none) (.optional type (some content))
  | pointer {plan : Plan} {kind : PointerKind} {target target' : Value}
      (h : Serves schema plan target target') :
      Serves schema plan (.pointer kind target) (.pointer kind target')
  | record {plan : Plan} {name : String} {declared : List FieldDescriptor} {layout : Layout}
      {values values' : List Value} (hbuilt : layout = .build name declared)
      (hcounts : layout.FillsCounts) (hlength : values'.length = values.length)
      (huncoded : ∀ index, layout.codedTag? index = none → values'[index]? = values[index]?)
      (hcoded : ∀ (index : Nat) tag value value' path record fieldPlan,
        layout.codedTag? index = some tag → values[index]? = some value →
        values'[index]? = some value' →
        Plan.resolve path value tag (some record) = .ok fieldPlan →
        Serves schema fieldPlan value value') :
      Serves schema plan (.record layout values) (.record layout values')

namespace Serves

variable {schema : Schema} {plan plan' : Plan} {value value' : Value}

/-- What may be left of a value is represented as the value, but for the lengths of sequences. -/
theorem natural_eq (h : Serves schema plan value value') :
    value'.natural.unsized = value.natural.unsized := by
  induction h with
  | scalar h =>
      show Natural.unsized (.single (_ : Scalar).type.natural) = Natural.unsized (.single _)
      rw [h]
  | text | inert | vector | array | empty | record => rfl
  | filled hsteady h ih =>
      have hcontent := ih.trans (HostType.natural_default hsteady.known)
      obtain ⟨hwire, harray, hindirection⟩ := Natural.unsized_inj.1 hcontent
      exact Natural.unsized_inj.2 ⟨hwire, harray, congrArg (· + 1) hindirection⟩
  | pointer h ih => exact ih

/-- Behind its pointers, what is left of a default may be left of what is behind those of the
default. -/
theorem target (h : Serves schema plan value value') :
    Serves schema plan value.target value'.target := by
  induction h with
  | pointer h ih => exact ih
  | scalar h => exact .scalar h
  | text h => exact .text h
  | inert h =>
      rename_i value
      cases value <;> first | exact .inert h | exact h.elim
  | vector hsteady hlength hitems => exact .vector hsteady hlength hitems
  | array hsteady hlength hbytes hitems => exact .array hsteady hlength hbytes hitems
  | empty hsteady => exact .empty hsteady
  | filled hsteady h => exact .filled hsteady h
  | record hbuilt hcounts hlength huncoded hcoded =>
      exact .record hbuilt hcounts hlength huncoded hcoded

/-- What is put behind the pointers of both values may be left of what was there. -/
theorem withTarget {content : Value} (h : Serves schema plan value value')
    (hcontent : Serves schema plan value.target content) :
    Serves schema plan value (value'.withTarget content) := by
  induction h with
  | pointer h ih => exact .pointer (ih hcontent)
  | inert h =>
      rename_i value
      cases value <;> first | exact hcontent | exact h.elim
  | _ => exact hcontent

/-- What is left of a default can be written to exactly if the default can. -/
theorem isReadOnly_eq (h : Serves schema plan value value') :
    value'.isReadOnly = value.isReadOnly := by
  induction h with
  | @pointer plan kind target target' h ih => cases kind <;> first | rfl | exact ih
  | _ => rfl

/-- The lengths that a plan gives do not matter. -/
theorem congr (h : Serves schema plan value value') (hshape : plan.SameShape plan') :
    Serves schema plan' value value' := by
  induction h generalizing plan' with
  | scalar h => exact .scalar h
  | text h => exact .text fun htakes => h (hshape.takesLength_iff.1 htakes)
  | inert h => exact .inert h
  | vector hsteady hlength hitems ih =>
      refine .vector hsteady (fun hnone => hlength (hshape.arrayLength_iff.1 hnone)) ?_
      intro item hitem path itemPlan hplan
      obtain ⟨itemPlan', hplan', hshape'⟩ := hshape.element hplan
      exact ih item hitem path itemPlan' hplan' hshape'
  | array hsteady hlength hbytes hitems ih =>
      refine .array hsteady hlength hbytes ?_
      intro index item item' path itemPlan hitem hitem' hplan
      obtain ⟨itemPlan', hplan', hshape'⟩ := hshape.element hplan
      exact ih index item item' path itemPlan' hitem hitem' hplan' hshape'
  | empty hsteady => exact .empty hsteady
  | filled hsteady h ih => exact .filled hsteady (ih hshape)
  | pointer h ih => exact .pointer (ih hshape)
  | record hbuilt hcounts hlength huncoded hcoded =>
      exact .record hbuilt hcounts hlength huncoded hcoded

end Serves

end Value

/-- A default may be left of itself if those of record types may. -/
theorem HostType.serves_defaultWith {schema : Schema} {recordDefault : String → Value}
    (hrecord : ∀ key, (record key).Steady schema → ∀ plan,
      Value.Serves schema plan (recordDefault key) (recordDefault key))
    {type : HostType} (hsteady : type.Steady schema) (plan : Plan) :
    Value.Serves schema plan (type.defaultWith recordDefault) (type.defaultWith recordDefault) := by
  induction type generalizing plan with
  | scalar type => exact .scalar rfl
  | text => exact .text fun _ => rfl
  | borrowedText | slice | dynamic | foreign => exact .inert trivial
  | vector element => exact .vector hsteady.of_vector (fun _ => rfl) nofun
  | array length element ih =>
      refine .array hsteady.of_array rfl ?_ ?_
      · rintro rfl item hitem
        rw [List.eq_of_mem_replicate hitem]
        exact ⟨0, rfl⟩
      · intro index item item' path itemPlan hitem hitem' hplan
        cases hitem.symm.trans hitem'
        rw [List.eq_of_mem_replicate (List.mem_of_getElem? hitem)]
        exact ih hsteady.of_array itemPlan
  | optional content => exact .empty hsteady.of_optional
  | pointer kind target ih => exact .pointer (ih hsteady.of_pointer plan)
  | record key => exact hrecord key hsteady plan

/-- The default of a steady record serves as its own scratch, under every plan. -/
theorem Schema.serves_defaultRecord {schema : Schema} (depth : Nat) {key : String}
    (hsteady : (HostType.record key).Steady schema) (plan : Plan) :
    Value.Serves schema plan (schema.defaultRecord depth key) (schema.defaultRecord depth key) := by
  induction depth generalizing key plan with
  | zero => exact .inert trivial
  | succ depth ih =>
      obtain ⟨registered, name, declared, hlookup, hbuilt, hcounts⟩ := hsteady key .refl
      rw [Schema.defaultRecord, hlookup]
      refine .record hbuilt hcounts rfl (fun _ _ => rfl) ?_
      intro index tag value value' path record fieldPlan _ hvalue hvalue' _
      cases hvalue.symm.trans hvalue'
      rw [List.getElem?_map, Option.map_eq_some_iff] at hvalue
      obtain ⟨fieldType, hfield, rfl⟩ := hvalue
      exact HostType.serves_defaultWith (fun inner hinner plan => ih hinner plan)
        (hsteady.of_record hlookup (List.mem_of_getElem? hfield)) fieldPlan

/-- A default may be left of itself. -/
theorem Schema.serves_default {schema : Schema} {type : HostType} (hsteady : type.Steady schema)
    (plan : Plan) : Value.Serves schema plan (schema.default type) (schema.default type) :=
  HostType.serves_defaultWith (fun _ hkey plan => schema.serves_defaultRecord _ hkey plan)
    hsteady plan

end PackedRecord
