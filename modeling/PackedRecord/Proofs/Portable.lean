import Mathlib.Data.List.Forall2
import PackedRecord.Host.Access
import PackedRecord.Proofs.TextFrames
import PackedRecord.Proofs.TypePlans

/-!
# Values that can be restored

`Value.Portable` says of a value of a type that everything that is coded of it can be told from its
bytes: its scalars and strings go over wires that lose nothing, its arrays fill the lengths that
their tags give, and nothing exceeds the limits. `Value.Agrees` says of a destination that it holds
what the bytes do not: the private, ignored and padding fields, and the lengths that no tag gives.
-/

namespace PackedRecord

/-- Two lists are related entry by entry if they are at each index. -/
theorem forall₂_iff_getElem? {α β : Type} {related : α → β → Prop} {items : List α}
    {items' : List β} :
    List.Forall₂ related items items' ↔ items'.length = items.length ∧
      ∀ (index : Nat) item item', items[index]? = some item → items'[index]? = some item' →
        related item item' := by
  rw [List.forall₂_iff_get, eq_comm]
  refine and_congr_right fun _ => ?_
  constructor
  · intro h index item item' hitem hitem'
    obtain ⟨hinside, rfl⟩ := List.getElem?_eq_some_iff.1 hitem
    obtain ⟨hinside', rfl⟩ := List.getElem?_eq_some_iff.1 hitem'
    exact h index hinside hinside'
  · intro h index hinside hinside'
    exact h index _ _ (List.getElem?_eq_getElem hinside) (List.getElem?_eq_getElem hinside')

/-- The tag of a field that is coded: exported, and neither ignored nor padding. -/
def FieldLayout.codedTag? (field : FieldLayout) : Option Tag :=
  match field.tag with
  | .error _ => none
  | .ok tag =>
      if field.exported ∧ tag.wire ≠ some .ignore ∧ tag.wire ≠ some .pad then some tag else none

/-- The tag of the coded field at `index`. -/
def Layout.codedTag? (layout : Layout) (index : Nat) : Option Tag :=
  layout.fields[index]?.bind FieldLayout.codedTag?

/-- The tag of the field at `index`, if it is exported and not ignored. -/
def Layout.visitedTag? (layout : Layout) (index : Nat) : Option Tag :=
  match layout.fields[index]? with
  | some ⟨_, true, .ok tag⟩ => if tag.wire = some .ignore then none else some tag
  | _ => none

/-- An exported field whose tag was read and does not ignore it is visited. -/
theorem Layout.visitedTag?_eq_some {layout : Layout} {index : Nat} {field : FieldLayout} {tag : Tag}
    (hfield : layout.fields[index]? = some field) (hexported : field.exported = true)
    (htag : field.tag = .ok tag) (hignore : tag.wire ≠ some .ignore) :
    layout.visitedTag? index = some tag := by
  obtain ⟨name, exported, tag'⟩ := field
  cases hexported
  cases htag
  simp only [visitedTag?, hfield, if_neg hignore]

/-- The fields that are coded are those that are visited and are not padding. -/
theorem Layout.codedTag?_eq_some {layout : Layout} {index : Nat} {tag : Tag} :
    layout.codedTag? index = some tag ↔
      layout.visitedTag? index = some tag ∧ tag.wire ≠ some .pad := by
  unfold codedTag? visitedTag?
  cases layout.fields[index]? with
  | none => simp
  | some field =>
      obtain ⟨name, exported, tag⟩ := field
      cases tag with
      | error error => simp [FieldLayout.codedTag?]
      | ok tag =>
          cases exported with
          | false => simp [FieldLayout.codedTag?]
          | true =>
              simp only [FieldLayout.codedTag?, Option.bind_some]
              grind

/-- The plan gives no other length of an array than `length`. -/
def Plan.Admits (plan : Plan) (length : Nat) : Prop :=
  ∀ given, plan.arrayLength = some given → given = length

/-- The plan for the elements of an array gives no length at all. -/
theorem Plan.ofElement_admits (plan : Plan) (type : HostType) (length : Nat) :
    (plan.ofElement type).Admits length := by
  intro given hgiven
  cases hgiven

namespace Value

/-- `Portable schema limits type plan value` says that `value` is of the type, that its scalars and
strings go over wires that lose nothing, that no string ends with a NUL, that every array has
exactly the length that its tag gives, if it gives one, and that arrays and framed strings are
within the limits. An array of a single value has the length 1. -/
inductive Portable (schema : Schema) (limits : Limits) : HostType → Plan → Value → Prop where
  | scalar {plan type content} :
      content.type = type → type.isExactAs plan.wire = true → plan.Admits 1 →
      Portable schema limits (.scalar type) plan (.scalar content)
  | text {plan content} :
      plan.wire.isText = true → plan.encoding = none → ¬ EndsWithNul content →
      plan.wire.blobSize plan.bufferLength content.utf8ByteSize ≤ limits.blob → plan.Admits 1 →
      Portable schema limits .text plan (.text content)
  | vector {plan element items} :
      plan.Admits items.length → items.length ≤ limits.collect →
      (∀ item ∈ items, Portable schema limits element (plan.ofElement element) item) →
      Portable schema limits (.vector element) plan (.sequence .growable element items)
  | array {plan length element items} :
      items.length = length → plan.Admits length → length ≤ limits.collect →
      (∀ item ∈ items, Portable schema limits element (plan.ofElement element) item) →
      Portable schema limits (.array length element) plan (.sequence .fixed element items)
  | optional {plan type content} :
      Portable schema limits type plan content →
      Portable schema limits (.optional type) plan (.optional type (some content))
  | owned {plan type content} :
      Portable schema limits type plan content →
      Portable schema limits (.pointer .owned type) plan (.pointer .owned content)
  | record {plan key type fields} :
      schema.lookup key = some type →
      (∃ name declared, type.layout = .build name declared) →
      fields.length = type.types.length →
      (∀ (index : Nat) tag value fieldType path fieldPlan,
        type.layout.codedTag? index = some tag → fields[index]? = some value →
        type.types[index]? = some fieldType →
        Plan.resolve path value tag (some ⟨type.layout, fields⟩) = .ok fieldPlan →
        Portable schema limits fieldType fieldPlan value) →
      Portable schema limits (.record key) plan (.record type.layout fields)

/-- `Agrees schema plan value current` says that `current` is of the type of `value`, that their
private, ignored and padding fields are the same, and that vectors without a given length and
strings without a frame are of the same length. What the decoder creates counts as the default of
its type. -/
inductive Agrees (schema : Schema) : Plan → Value → Value → Prop where
  | scalar {plan content current} :
      content.type = current.type → Agrees schema plan (.scalar content) (.scalar current)
  | text {plan content current} :
      (plan.wire = .string → plan.bufferLength = none →
        content.utf8ByteSize = current.utf8ByteSize) →
      Agrees schema plan (.text content) (.text current)
  | vector {plan element items current} :
      (plan.arrayLength = none → items.length = current.length) →
      (∀ (index : Nat) item place, items[index]? = some item →
        (resized (schema.default element) items.length current)[index]? = some place →
        Agrees schema (plan.ofElement element) item place) →
      Agrees schema plan (.sequence .growable element items) (.sequence .growable element current)
  | array {plan element items current} :
      items.length = current.length →
      (∀ (index : Nat) item place, items[index]? = some item → current[index]? = some place →
        Agrees schema (plan.ofElement element) item place) →
      Agrees schema plan (.sequence .fixed element items) (.sequence .fixed element current)
  | optional {plan type content current} :
      Agrees schema plan content (current.getD (schema.default type)) →
      Agrees schema plan (.optional type (some content)) (.optional type current)
  | owned {plan content current} :
      Agrees schema plan content current →
      Agrees schema plan (.pointer .owned content) (.pointer .owned current)
  | record {plan layout fields current} :
      fields.length = current.length →
      (∀ index : Nat, layout.codedTag? index = none → current[index]? = fields[index]?) →
      (∀ (index : Nat) tag value place path fieldPlan,
        layout.codedTag? index = some tag → fields[index]? = some value →
        current[index]? = some place →
        Plan.resolve path value tag (some ⟨layout, fields⟩) = .ok fieldPlan →
        Agrees schema fieldPlan value place) →
      Agrees schema plan (.record layout fields) (.record layout current)

variable {schema : Schema} {limits : Limits} {type : HostType} {plan : Plan}
  {value current : Value}

/-- A portable value has the natural representation of its type. -/
theorem Portable.natural_eq (h : Portable schema limits type plan value) :
    value.natural.unsized = type.natural.unsized := by
  induction h with
  | scalar htype => rw [← htype]; rfl
  | text => rfl
  | vector => rfl
  | array => rfl
  | optional _ ih =>
      rw [Natural.unsized_inj] at ih ⊢
      exact ⟨ih.1, ih.2.1, congrArg (· + 1) ih.2.2⟩
  | owned _ ih => exact ih
  | record => rfl

/-- So does a destination that agrees with it. -/
theorem Agrees.natural_eq (hagrees : Agrees schema plan value current)
    (h : Portable schema limits type plan value) :
    current.natural.unsized = type.natural.unsized := by
  induction hagrees generalizing type with
  | scalar hsame =>
      cases h with
      | scalar htype => rw [← htype, hsame]; rfl
  | text => cases h; rfl
  | vector => cases h; rfl
  | array => cases h; rfl
  | @optional plan type content current _ ih =>
      cases h with
      | optional hcontent =>
          cases current with
          | none => rfl
          | some current =>
              have hnatural := ih hcontent
              rw [Natural.unsized_inj] at hnatural ⊢
              exact ⟨hnatural.1, hnatural.2.1, congrArg (· + 1) hnatural.2.2⟩
  | owned _ ih =>
      cases h with
      | owned hcontent =>
          have hnatural := ih hcontent
          exact hnatural
  | record => cases h; rfl

/-- A destination that agrees with a value can be written to. -/
theorem Agrees.isReadOnly_eq (h : Agrees schema plan value current) :
    current.isReadOnly = false := by
  induction h with
  | owned _ ih => exact ih
  | _ => rfl

/-- Values agree if what is behind their pointers agrees. -/
theorem Agrees.target (h : Agrees schema plan value current) :
    Agrees schema plan value.target current.target ∧ current.withTarget value.target = value := by
  induction h with
  | owned _ ih => exact ⟨ih.1, congrArg (Value.pointer .owned) ih.2⟩
  | scalar hsame => exact ⟨.scalar hsame, rfl⟩
  | text hsize => exact ⟨.text hsize, rfl⟩
  | vector hlength hitems => exact ⟨.vector hlength hitems, rfl⟩
  | array hlength hitems => exact ⟨.array hlength hitems, rfl⟩
  | optional hcontent => exact ⟨.optional hcontent, rfl⟩
  | record hcount hrest hcoded => exact ⟨.record hcount hrest hcoded, rfl⟩

/-- What is behind the pointers of a portable value is portable and no pointer. -/
theorem Portable.target (h : Portable schema limits type plan value) :
    ∃ type', Portable schema limits type' plan value.target ∧ type'.natural = type.natural ∧
      ∀ kind inner, value.target ≠ .pointer kind inner := by
  induction h with
  | owned _ ih => exact ih
  | scalar htype hexact hlength => exact ⟨_, .scalar htype hexact hlength, rfl, nofun⟩
  | text hwire hencoding hnul hblob hlength =>
      exact ⟨_, .text hwire hencoding hnul hblob hlength, rfl, nofun⟩
  | vector hlength hcollect hitems => exact ⟨_, .vector hlength hcollect hitems, rfl, nofun⟩
  | array hcount hlength hcollect hitems =>
      exact ⟨_, .array hcount hlength hcollect hitems, rfl, nofun⟩
  | optional hcontent => exact ⟨_, .optional hcontent, rfl, nofun⟩
  | record hlookup hbuilt hcount hfields =>
      exact ⟨_, .record hlookup hbuilt hcount hfields, rfl, nofun⟩

/-- Whether the value is a single scalar or string. -/
def IsSingle (value : Value) : Prop :=
  (∃ content, value.target = .scalar content) ∨ ∃ content, value.target = .text content

/-- A single value is as portable as an element of an array, which has to be of length 1. -/
theorem Portable.single (h : Portable schema limits type plan value) (hsingle : value.IsSingle) :
    plan.wire ≠ .any ∧ plan.Admits 1 ∧
      Portable schema limits type (plan.ofElement type) value := by
  have hwire {wire : WireType} (hwire : wire ≠ .any) (type : HostType) :
      (if wire = .any then type.natural.wire.getD .any else wire) = wire := if_neg hwire
  induction h with
  | @scalar plan type content htype hexact hlength =>
      have hany : plan.wire ≠ .any := by
        intro hany
        rw [hany] at hexact
        cases type <;> cases hexact
      refine ⟨hany, hlength, .scalar htype ?_ (plan.ofElement_admits _ 1)⟩
      rwa [Plan.ofElement, hwire hany]
  | @text plan content htext hencoding hnul hblob hlength =>
      have hany : plan.wire ≠ .any := by
        intro hany
        rw [hany] at htext
        cases htext
      refine ⟨hany, hlength, .text ?_ hencoding hnul ?_ (plan.ofElement_admits _ 1)⟩
      · rwa [Plan.ofElement, hwire hany]
      · rwa [Plan.ofElement, hwire hany]
  | owned _ ih =>
      obtain ⟨hany, hlength, hcontent⟩ := ih hsingle
      exact ⟨hany, hlength, .owned hcontent⟩
  | vector => rcases hsingle with ⟨_, h⟩ | ⟨_, h⟩ <;> cases h
  | array => rcases hsingle with ⟨_, h⟩ | ⟨_, h⟩ <;> cases h
  | optional => rcases hsingle with ⟨_, h⟩ | ⟨_, h⟩ <;> cases h
  | record => rcases hsingle with ⟨_, h⟩ | ⟨_, h⟩ <;> cases h

/-- A destination that agrees with a single value does so as an element of an array. -/
theorem Agrees.single (h : Agrees schema plan value current) (hsingle : value.IsSingle)
    (hany : plan.wire ≠ .any) (type : HostType) :
    Agrees schema (plan.ofElement type) value current := by
  have hwire : (plan.ofElement type).wire = plan.wire := if_neg hany
  induction h with
  | scalar hsame => exact .scalar hsame
  | text hsize => exact .text (fun hstring => hsize (by rw [← hwire, hstring]))
  | owned _ ih => exact .owned (ih hsingle hany hwire)
  | vector => rcases hsingle with ⟨_, h⟩ | ⟨_, h⟩ <;> cases h
  | array => rcases hsingle with ⟨_, h⟩ | ⟨_, h⟩ <;> cases h
  | optional => rcases hsingle with ⟨_, h⟩ | ⟨_, h⟩ <;> cases h
  | record => rcases hsingle with ⟨_, h⟩ | ⟨_, h⟩ <;> cases h

end Value

end PackedRecord
