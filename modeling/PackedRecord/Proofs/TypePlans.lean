import PackedRecord.Host.Type
import PackedRecord.Proofs.References

/-!
# Plans by type

A value of a known type is planned as its type says. `Plan.element_eq` gives the plan for an element
of an array, and `Plan.resolve_empty` the one for a value without a tag.
-/

namespace PackedRecord

/-- No type is padding or ignored by itself. -/
theorem HostType.natural_wire_ne (type : HostType) :
    type.natural.wire ≠ some .pad ∧ type.natural.wire ≠ some .ignore := by
  have hsequence {natural : Natural} {length : Option Nat}
      (h : natural.wire ≠ some .pad ∧ natural.wire ≠ some .ignore) :
      (Natural.sequence natural length).wire ≠ some .pad ∧
        (Natural.sequence natural length).wire ≠ some .ignore := by
    unfold Natural.sequence
    split
    · exact ⟨nofun, nofun⟩
    · exact h
  induction type with
  | scalar type =>
      cases type with
      | int type => cases type <;> exact ⟨nofun, nofun⟩
      | _ => exact ⟨nofun, nofun⟩
  | vector element ih => exact hsequence ih
  | array length element ih => exact hsequence ih
  | slice element ih => exact hsequence ih
  | optional content ih => exact ih
  | pointer kind target ih => exact ih
  | _ => exact ⟨nofun, nofun⟩

/-- No type is padding or ignored by nature. -/
theorem HostType.natural_wire_getD_ne (type : HostType) :
    type.natural.wire.getD .any ≠ .pad ∧ type.natural.wire.getD .any ≠ .ignore := by
  have hne := type.natural_wire_ne
  cases htype : type.natural.wire with
  | none => exact ⟨nofun, nofun⟩
  | some wire =>
      rw [htype] at hne
      exact ⟨fun hpad => hne.1 (congrArg some hpad), fun hignore => hne.2 (congrArg some hignore)⟩

/-- A sequence of elements with a representation has one, whatever its length. -/
theorem Natural.wire_sequence {natural : Natural} (h : natural.wire ≠ none)
    (length : Option Nat) :
    (sequence natural length).wire = some ((sequence natural none).wire.getD .any) := by
  obtain ⟨wire, hwire⟩ := Option.ne_none_iff_exists'.1 h
  unfold sequence
  split
  · rfl
  · show natural.wire = some (natural.wire.getD .any)
    rw [hwire, Option.getD_some]

/-- The elements of a sequence have their own wire type, whether the sequence leaves it open or
not. -/
theorem HostType.wire_of_sequence (type : HostType) :
    (if (Natural.sequence type.natural none).wire.getD .any = .any then
      type.natural.wire.getD .any else (Natural.sequence type.natural none).wire.getD .any) =
        type.natural.wire.getD .any := by
  unfold Natural.sequence
  by_cases hopen : type.natural.isArray ∨ 0 < type.natural.indirection
  · rw [if_pos hopen]
    exact if_pos rfl
  · rw [if_neg hopen]
    split
    next => rfl
    next => rfl

namespace Plan

/-- The plan for the elements of the type of an array. -/
def ofElement (plan : Plan) (type : HostType) : Plan :=
  { wire := if plan.wire = .any then type.natural.wire.getD .any else plan.wire
    isArray := type.natural.isArray
    arrayLength := none
    bufferLength := plan.bufferLength
    indirection := type.natural.indirection
    encoding := plan.encoding }

variable {plan itemPlan : Plan} {path : Path} {type : HostType} {item : Value}

/-- The plan for a coded element is that for elements of its type. -/
theorem element_eq (hpad : plan.wire ≠ .pad) (hignore : plan.wire ≠ .ignore)
    (hnatural : item.natural.unsized = type.natural.unsized)
    (hwire : type.natural.wire ≠ none) : plan.element path item = .ok (plan.ofElement type) := by
  obtain ⟨hsame, harray, hindirection⟩ := Natural.unsized_inj.1 hnatural
  obtain ⟨wire, hwire⟩ := Option.ne_none_iff_exists'.1 hwire
  have helement : elementWire path plan.wire item = .ok (plan.ofElement type).wire := by
    unfold elementWire ofElement
    rw [hsame, hwire]
    split <;> simp_all
  rw [element, helement, harray, hindirection]
  rfl

/-- An element has a plan only if its type has a wire type. -/
theorem natural_wire_of_element (hpad : plan.wire ≠ .pad) (hignore : plan.wire ≠ .ignore)
    (hnatural : item.natural.unsized = type.natural.unsized)
    (h : plan.element path item = .ok itemPlan) : type.natural.wire ≠ none := by
  rw [← (Natural.unsized_inj.1 hnatural).1]
  intro hnone
  simp only [element, elementWire, hnone] at h
  cases h

/-- The plan for a value of the type without a tag. -/
def untagged (type : HostType) : Plan :=
  { wire := type.natural.wire.getD .any
    isArray := type.natural.isArray
    arrayLength := none
    bufferLength := none
    indirection := type.natural.indirection
    encoding := none }

/-- A value has the wire type of its tag, or else its natural one. -/
theorem wire_of_resolveWire {path : Path} {value : Value} {tagged : Option WireType}
    {wire : WireType} (h : resolveWire path value tagged = .ok wire) :
    wire = (tagged <|> value.natural.wire).getD .any := by
  unfold resolveWire at h
  split at h <;> simp_all

/-- Without a tag, a value has its natural wire type. -/
theorem resolveWire_none {path : Path} {value : Value} {wire : WireType}
    (h : value.natural.wire = some wire) : resolveWire path value none = .ok wire := by
  unfold resolveWire
  rw [h]

/-- Without a tag, the plan for a value depends on its type only. -/
theorem resolve_empty {path : Path} {value : Value} {type : HostType} {record : Option Record}
    (hnatural : value.natural.unsized = type.natural.unsized) (hwire : type.natural.wire ≠ none) :
    resolve path value .empty record = .ok (.untagged type) := by
  obtain ⟨hsame, harray, hindirection⟩ := Natural.unsized_inj.1 hnatural
  obtain ⟨wire, hwire⟩ := Option.ne_none_iff_exists'.1 hwire
  unfold resolve
  rw [Tag.empty, resolveWire_none (hsame.trans hwire), untagged, hwire, ← harray, ← hindirection]
  rfl

/-- The plan codes arrays of the element type without a buffer length and an encoding. -/
structure CodesElements (plan : Plan) (element : HostType) : Prop where
  wire_eq : plan.wire = (Natural.sequence element.natural none).wire.getD .any
  bufferLength_eq : plan.bufferLength = none
  encoding_eq : plan.encoding = none

variable {plan : Plan} {element : HostType}

/-- What codes the elements of an array is neither padding nor ignored. -/
theorem CodesElements.not_pad (h : plan.CodesElements element) :
    plan.wire ≠ .pad ∧ plan.wire ≠ .ignore := by
  rw [h.wire_eq]
  exact (HostType.vector element).natural_wire_getD_ne

/-- The elements are coded without a tag. -/
theorem CodesElements.ofElement_eq (h : plan.CodesElements element) :
    plan.ofElement element = .untagged element := by
  rw [ofElement, untagged, h.wire_eq, element.wire_of_sequence, h.bufferLength_eq, h.encoding_eq]

/-- Without a tag, the plan of an array codes its elements. -/
theorem codesElements_untagged (length : Nat) (element : HostType) :
    (untagged (.array length element)).CodesElements element := by
  refine ⟨?_, rfl, rfl⟩
  show (Natural.sequence element.natural (some length)).wire.getD .any = _
  unfold Natural.sequence
  split <;> rfl

end Plan

end PackedRecord
