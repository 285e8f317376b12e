import PackedRecord.Proofs.Intact
import PackedRecord.Proofs.TagGrammar
import PackedRecord.Proofs.Wrappers

/-!
# What is behind the references

A plan says how many references stand in front of its value. `Plan.Matches` is what every plan and
its value have in common, as `Plan.Matches.of_resolve` and `Plan.Matches.of_element` say. It follows
that what is coded behind the references is no reference itself, and that the wire type is not left
open for it unless it is an array: `Plan.Matches.isSettled` is the statement to read.
-/

namespace PackedRecord

/-- The plan is for a value with this many references, and it leaves the wire type of a value that
is no array open only if the value does. -/
structure Plan.Matches (plan : Plan) (value : Value) : Prop where
  indirection_eq : plan.indirection = value.natural.indirection
  isArray_eq : plan.isArray = false → value.natural.isArray = false
  wire_eq : plan.isArray = false → plan.wire = .any → value.natural.wire = some .any

/-- Whether the plan can code the value without taking a reference off it or settling on a wire
type. -/
def Plan.isSettled (plan : Plan) (content : Value) : Bool :=
  content.form != .optional && content.form != .dynamic && plan.wire != .any

/-- One representation leads over so many references to the other one. An open wire type stays
open. -/
structure Natural.Leads (outer : Natural) (levels : Nat) (inner : Natural) : Prop where
  indirection_eq : outer.indirection = levels + inner.indirection
  isArray_eq : inner.isArray = outer.isArray
  wire_eq : outer.wire = some .any → inner.wire = some .any

namespace Natural

/-- A representation leads to itself over no reference. -/
theorem leads_zero (natural : Natural) : natural.Leads 0 natural :=
  ⟨(Nat.zero_add _).symm, rfl, id⟩

/-- One more reference leads to what is behind it. -/
theorem leads_through (natural : Natural) : natural.through.Leads 1 natural :=
  ⟨Nat.add_comm _ _, rfl, id⟩

/-- References that lead to others lead over both together. -/
theorem Leads.trans {outer middle inner : Natural} {levels levels' : Nat}
    (h : outer.Leads levels middle) (h' : middle.Leads levels' inner) :
    outer.Leads (levels' + levels) inner where
  indirection_eq := by rw [h.indirection_eq, h'.indirection_eq, Nat.add_left_comm, Nat.add_assoc]
  isArray_eq := h'.isArray_eq.trans h.isArray_eq
  wire_eq hany := h'.wire_eq (h.wire_eq hany)

/-- The first of several references is taken off, and then the other ones. -/
theorem Leads.step {outer middle inner : Natural} {levels : Nat} (h : outer.Leads 1 middle)
    (hlevels : levels + 1 ≤ outer.indirection)
    (hrest : levels ≤ middle.indirection → middle.Leads levels inner) :
    outer.Leads (levels + 1) inner := by
  have hcount := h.indirection_eq
  exact h.trans (hrest (by omega))

end Natural

namespace Value

variable {value content : Value}

/-- Behind all pointers of a value is no pointer. -/
theorem target_ne_pointer (value : Value) (kind : PointerKind) (inner : Value) :
    value.target ≠ .pointer kind inner := by
  fun_induction Value.target value
  case case1 ih => exact ih
  case case2 value hvalue => exact fun h => hvalue kind inner h

/-- A value without references is none. -/
theorem form_of_direct (h : value.natural.indirection = 0) :
    value.form ≠ .optional ∧ value.form ≠ .dynamic := by
  rw [← natural_target] at h
  unfold form
  generalize value.target = target at h
  cases target with
  | optional type content =>
      cases content <;> cases h
  | dynamic content =>
      cases content <;> cases h
  | _ => constructor <;> rintro ⟨⟩

/-- A value that is neither a reference nor a sequence does not leave its wire type open. -/
theorem wire_of_direct (h : value.natural.indirection = 0)
    (harray : value.natural.isArray = false) : value.natural.wire ≠ some .any := by
  fun_induction Value.natural value
  case case1 content =>
    have hscalar : content.type.natural ≠ .any := by
      generalize content.type = type
      cases type with
      | int type => cases type <;> rintro ⟨⟩
      | _ => rintro ⟨⟩
    exact fun hany => hscalar (Option.some.inj hany)
  case case4 => cases harray
  case case5 | case6 | case7 | case8 => cases h
  case case9 ih => exact ih h harray
  case case2 | case3 | case10 | case11 => rintro ⟨⟩

/-- A filled optional leads to its content. -/
theorem leads_of_filled {type : HostType} (h : value.target = .optional type (some content)) :
    value.natural.Leads 1 content.natural := by
  rw [← natural_target, h]
  exact content.natural.leads_through

/-- A filled dynamic reference leads to its content. -/
theorem leads_of_dynamic (h : value.target = .dynamic (some content)) :
    value.natural.Leads 1 content.natural := by
  rw [← natural_target, h]
  exact content.natural.leads_through

/-- Taking references off a value takes them off its representation. -/
theorem leads_of_strip {levels : Nat} (hlevels : levels ≤ value.natural.indirection)
    (h : value.strip levels = .ok content) : value.natural.Leads levels content.natural := by
  fun_induction Value.strip levels value
  case case1 =>
    cases h
    exact Natural.leads_zero _
  case case2 levels value type inner htarget ih =>
    exact (leads_of_filled htarget).step hlevels fun hless => ih hless h
  case case3 levels value inner htarget ih =>
    exact (leads_of_dynamic htarget).step hlevels fun hless => ih hless h
  case case4 | case5 => cases h
  case case6 levels value hoptional hdynamic hempty hnothing =>
    -- This value is no reference, but there is one left to take off.
    rw [← natural_target] at hlevels
    have hpointer := target_ne_pointer value
    generalize value.target = target at *
    cases target with
    | optional type content =>
        cases content with
        | none => exact absurd rfl (hempty type)
        | some inner => exact absurd rfl (hoptional type inner)
    | dynamic content =>
        cases content with
        | none => exact absurd rfl hnothing
        | some inner => exact absurd rfl (hdynamic inner)
    | pointer kind inner => exact absurd rfl (hpointer kind inner)
    | _ => cases hlevels

end Value

/-- The default value of a type is represented as the type is. Of a record type that is not known it
has no representation, which is no open one. -/
theorem HostType.leads_default (schema : Schema) (type : HostType) :
    type.natural.Leads 0 (schema.default type).natural := by
  unfold Schema.default
  induction type with
  | scalar type =>
      show (Natural.single type.natural).Leads 0 (Natural.single (Scalar.zero type).type.natural)
      rw [Scalar.type_zero]
      exact Natural.leads_zero _
  | pointer kind target ih => exact ih
  | record key =>
      show (Natural.single .struct).Leads 0 (schema.defaultRecord schema.length key).natural
      -- The default of a record type that is not known is foreign and has no wire type at all.
      unfold Schema.defaultRecord
      repeat' split
      all_goals exact ⟨rfl, rfl, by rintro ⟨⟩⟩
  | vector | array | slice => exact ⟨rfl, rfl, id⟩
  | text | borrowedText | optional | dynamic | foreign => exact ⟨(Nat.zero_add _).symm, rfl, id⟩

/-- What an optional is filled with is represented as what it says that it holds. -/
theorem Value.leads_of_optional (schema : Schema) {value : Value} {type : HostType}
    {content : Option Value} (h : value.target = .optional type content) :
    value.natural.Leads 1 (content.getD (schema.default type)).natural := by
  cases content with
  | some content => exact leads_of_filled h
  | none =>
      have hempty : value.natural.Leads 1 type.natural := by
        rw [← natural_target, h]
        exact ⟨Nat.add_comm _ _, rfl, id⟩
      exact hempty.trans (type.leads_default schema)

namespace Plan.Matches

variable {plan elementPlan : Plan} {value : Value} {path : Path}

/-- A tag that does not name the open wire type makes a plan for its value. -/
theorem of_resolve {tag : Tag} {record : Option Record} (htag : tag.wire ≠ some .any)
    (h : Plan.resolve path value tag record = .ok plan) : plan.Matches value := by
  obtain ⟨hwire, harray, -, hindirection, -⟩ := Plan.parts_of_resolve h
  refine ⟨hindirection, fun hsingle => ?_, fun _ hany => ?_⟩
  · unfold Plan.resolveArray at harray
    rw [hsingle] at harray
    split at harray
    · exact congrArg Prod.fst (Except.ok.inj harray)
    · cases harray
    next expr _ =>
      cases hsize : Plan.evalSize path expr record <;> rw [hsize] at harray <;> cases harray
  · unfold Plan.resolveWire at hwire
    rw [hany] at hwire
    split at hwire
    · cases hwire
    · cases hwire
    · cases hwire
    next wire _ hnone htagged _ =>
      cases hwire
      exact absurd htagged htag
    next wire htagged hnatural =>
      cases hwire
      exact hnatural

/-- The plan of an element matches it. -/
theorem of_element (h : plan.element path value = .ok elementPlan) : elementPlan.Matches value := by
  unfold Plan.element at h
  cases hwire : Plan.elementWire path plan.wire value with
  | error error =>
      rw [hwire] at h
      cases h
  | ok wire =>
      rw [hwire] at h
      cases h
      refine ⟨rfl, id, fun _ hany => ?_⟩
      cases hany
      unfold Plan.elementWire at hwire
      split at hwire
      next hnatural =>
        cases hwire
        exact hnatural
      · cases hwire
      · cases hwire
      · cases hwire
      next hopen _ _ =>
        injection hwire with hwire
        exact (hopen hwire).elim

/-- Behind the references of its value, a plan that is for no array can code what it comes to. -/
theorem isSettled (h : plan.Matches value) (harray : plan.isArray = false) {content : Value}
    (hleads : value.natural.Leads plan.indirection content.natural) :
    plan.isSettled content = true := by
  have hdirect : content.natural.indirection = 0 := by
    have hlevels := h.indirection_eq
    have hleft := hleads.indirection_eq
    omega
  have hsingle := hleads.isArray_eq.trans (h.isArray_eq harray)
  have hwire : plan.wire ≠ .any := fun hany =>
    Value.wire_of_direct hdirect hsingle (hleads.wire_eq (h.wire_eq harray hany))
  obtain ⟨hoptional, hdynamic⟩ := Value.form_of_direct hdirect
  simp [Plan.isSettled, hoptional, hdynamic, hwire]

end Plan.Matches

/-- Only the tag makes a value padding, or has it ignored. -/
theorem Plan.skipped_iff_of_resolve {plan : Plan} {path : Path} {value : Value} {tag : Tag}
    {record : Option Record} (h : Plan.resolve path value tag record = .ok plan) :
    (plan.wire = .pad ↔ tag.wire = some .pad) ∧
      (plan.wire = .ignore ↔ tag.wire = some .ignore) := by
  obtain ⟨hwire, -⟩ := Plan.parts_of_resolve h
  have hnatural := value.natural_wire_ne
  unfold Plan.resolveWire at hwire
  split at hwire <;> simp_all

/-- A tag that was read does not name the open wire type. -/
theorem Tag.wire_of_parse {resolve : Resolver} {text : String} {tag : Tag}
    (h : parse resolve text = .ok tag) : tag.wire ≠ some .any := by
  have htext : TagText resolve text.toList tag := tagText_of_parseChars h
  generalize text.toList = chars at htext
  obtain ⟨-, -, hname, -⟩ := htext
  cases hname with
  | absent | any => rintro ⟨⟩
  | wire _ hwire => exact fun hany => hwire (Option.some.inj hany)

/-- Nor does the tag of a field of a layout that was built. -/
theorem Layout.wire_of_tag {name : String} {declared : List FieldDescriptor} {index : Nat}
    {field : FieldLayout} {tag : Tag} (hfield : (build name declared).fields[index]? = some field)
    (htag : field.tag = .ok tag) : tag.wire ≠ some .any := by
  simp only [build, List.getElem?_mapIdx, Option.map_eq_some_iff] at hfield
  obtain ⟨own, -, rfl⟩ := hfield
  exact Tag.wire_of_parse htag

end PackedRecord
