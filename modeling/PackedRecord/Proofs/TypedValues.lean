import PackedRecord.Proofs.FixedSize
import PackedRecord.Proofs.Wrappers

/-!
# Values of a type

How a value is coded without a tag is inferred twice: from its type, which is all that is known of
the elements of an empty sequence and of the content of an empty option, and from the value itself.
`Value.HasType` says which values a type has. `Plan.resolve_of_hasType` says that the two inferences
agree on them, so that all the values of a type have one plan by a tag, or none for one reason. Only
dynamic references in front of a value, whose types do not say what they refer to, are excepted.
-/

namespace PackedRecord

/-- The value is one of the type. A dynamic reference refers to a value of any type. -/
inductive Value.HasType (schema : Schema) : HostType → Value → Prop where
  | scalar (content : Scalar) : HasType schema (.scalar content.type) (.scalar content)
  | text (content : String) : HasType schema .text (.text content)
  | borrowedText (content : String) : HasType schema .borrowedText (.borrowedText content)
  | vector {element : HostType} {items : List Value}
      (hitems : ∀ item ∈ items, HasType schema element item) :
      HasType schema (.vector element) (.sequence .growable element items)
  | array {element : HostType} {items : List Value}
      (hitems : ∀ item ∈ items, HasType schema element item) :
      HasType schema (.array items.length element) (.sequence .fixed element items)
  | slice {element : HostType} {items : List Value}
      (hitems : ∀ item ∈ items, HasType schema element item) :
      HasType schema (.slice element) (.sequence .borrowed element items)
  | absent (content : HostType) : HasType schema (.optional content) (.optional content none)
  | present {content : HostType} {value : Value} (hvalue : HasType schema content value) :
      HasType schema (.optional content) (.optional content (some value))
  | unset : HasType schema .dynamic (.dynamic none)
  | reference {type : HostType} {value : Value} (hvalue : HasType schema type value) :
      HasType schema .dynamic (.dynamic (some value))
  | pointer (kind : PointerKind) {target : HostType} {value : Value}
      (hvalue : HasType schema target value) :
      HasType schema (.pointer kind target) (.pointer kind value)
  | record {key : String} {type : RecordType} {fields : List Value}
      (hlookup : schema.lookup key = some type) (hlength : fields.length = type.types.length)
      (hfields : ∀ (index : Nat) fieldType value, type.types[index]? = some fieldType →
        fields[index]? = some value → HasType schema fieldType value) :
      HasType schema (.record key) (.record type.layout fields)
  | foreign (name : String) : HasType schema (.foreign name) (.foreign name)

namespace HostType

/-- The name by which errors refer to the values of the type. -/
def valueName (schema : Schema) : HostType → String
  | borrowedText => "str"
  | pointer _ target => target.valueName schema
  | record key => (schema.lookup key).elim key (·.layout.name)
  | type => type.name

/-- The default of a type is referred to like its other values. -/
theorem typeName_default {schema : Schema} {type : HostType} (h : type.Known schema) :
    (schema.default type).typeName = type.valueName schema := by
  unfold Schema.default
  induction type with
  | scalar type =>
      show (Scalar.zero type).type.name = type.name
      rw [Scalar.type_zero]
  | array length element ih =>
      show (Value.sequenceType .fixed element (List.replicate length _).length).name = _
      rw [List.length_replicate]
      rfl
  | pointer kind target ih => exact ih h
  | record key =>
      obtain ⟨type, hlookup⟩ := Option.ne_none_iff_exists'.1 h
      show (schema.defaultRecord schema.length key).typeName = (schema.lookup key).elim key _
      cases schema with
      | nil => cases hlookup
      | cons entry schema =>
          rw [List.length_cons, Schema.defaultRecord, hlookup]
          rfl
  | _ => rfl

end HostType

namespace Value.HasType

variable {schema : Schema} {type : HostType} {value : Value}

/-- The schema holds the types of the records that there are. -/
theorem known (h : value.HasType schema type) : type.Known schema := by
  induction h with
  | pointer kind _ ih => exact ih
  | record hlookup =>
      intro hnone
      cases hlookup.symm.trans hnone
  | _ => trivial

/-- What errors say of a value depends on its type. -/
theorem typeName_eq (h : value.HasType schema type) : value.typeName = type.valueName schema := by
  induction h with
  | pointer kind _ ih => exact ih
  | record hlookup =>
      rw [HostType.valueName, hlookup]
      rfl
  | _ => rfl

/-- A value is coded without a tag as its type says, up to the length of an array, unless there is
a dynamic reference behind its pointers and options. -/
theorem natural_eq (h : value.HasType schema type) (hcore : type.core ≠ .dynamic) :
    value.natural.unsized = type.natural.unsized := by
  induction h with
  | present _ ih =>
      obtain ⟨hwire, hisArray, hindirection⟩ := Natural.unsized_inj.1 (ih hcore)
      exact Natural.unsized_inj.2 ⟨hwire, hisArray, congrArg (· + 1) hindirection⟩
  | pointer kind _ ih => exact ih hcore
  | unset => exact absurd rfl hcore
  | reference => exact absurd rfl hcore
  | _ => rfl

end Value.HasType

namespace Plan

/-- The plan for a value depends on how it is coded without a tag, up to the length of an array, and
on what errors call it. -/
theorem resolve_eq_of_natural {value value' : Value}
    (hnatural : value'.natural.unsized = value.natural.unsized)
    (hname : value'.typeName = value.typeName) (path : Path) (tag : Tag)
    (record : Option Record) :
    resolve path value' tag record = resolve path value tag record := by
  obtain ⟨hsame, hisArray, hindirection⟩ := Natural.unsized_inj.1 hnatural
  rw [resolve, resolve, resolveWire_congr hsame hname, resolveArray_congr hisArray, hindirection]

/-- A value is coded without a tag as its type says: with the same wire type, as an array or not,
and behind equally many references. So by every tag and on every record, all the values of a type
have the same plan or fail with the same error, its default among them. What the values hold further
inside does not matter, so that only a dynamic reference in front is excepted. -/
theorem resolve_of_hasType {schema : Schema} {type : HostType} (hcore : type.core ≠ .dynamic)
    {value : Value} (hvalue : value.HasType schema type) :
    (value.natural.wire = type.natural.wire ∧ value.natural.isArray = type.natural.isArray ∧
      value.natural.indirection = type.natural.indirection) ∧
    ∀ (path : Path) (tag : Tag) (record : Option Record),
      (∀ other : Value, other.HasType schema type →
        resolve path other tag record = resolve path value tag record) ∧
      resolve path (schema.default type) tag record = resolve path value tag record := by
  have hnatural := hvalue.natural_eq hcore
  refine ⟨Natural.unsized_inj.1 hnatural, fun path tag record => ⟨fun other hother => ?_, ?_⟩⟩
  · exact resolve_eq_of_natural ((hother.natural_eq hcore).trans hnatural.symm)
      (hother.typeName_eq.trans hvalue.typeName_eq.symm) path tag record
  · have hknown := hvalue.known
    exact resolve_eq_of_natural ((HostType.natural_default hknown).trans hnatural.symm)
      ((HostType.typeName_default hknown).trans hvalue.typeName_eq.symm) path tag record

/-- A box that may be missing, of a vector of points that may be missing: no box has the plan of a
filled one. -/
theorem resolve_of_hasType_boxed :
    let point : Layout := .build "Point" [⟨"x", "", true⟩]
    let schema : Schema := [("point", ⟨point, [.byte]⟩)]
    let points : HostType := .pointer .owned (.vector (.optional (.record "point")))
    let full : Value := .optional points (some (.pointer .owned (.sequence .growable
      (.optional (.record "point")) [.optional (.record "point") none,
        .optional (.record "point") (some (.record point [.ofByte 7]))])))
    let tag : Tag := ⟨none, .length (.ofNat 4), none, none⟩
    (HostType.optional points).core ≠ .dynamic ∧ full.HasType schema (.optional points) ∧
      (full.natural.wire = some .any ∧ full.natural.isArray = true ∧
        full.natural.indirection = 1) ∧
      resolve .top (.optional points none) tag none = .ok ⟨.any, true, some 4, none, 1, none⟩ ∧
      resolve .top full tag none = .ok ⟨.any, true, some 4, none, 1, none⟩ := by
  intro point schema points full tag
  have hcore : (HostType.optional points).core ≠ .dynamic := nofun
  have hlookup : schema.lookup "point" = some ⟨point, [.byte]⟩ := rfl
  have hpoint : (Value.record point [.ofByte 7]).HasType schema (.record "point") := by
    refine .record hlookup rfl ?_
    intro index fieldType value htype hvalue
    cases index with
    | zero =>
        cases htype
        cases hvalue
        exact .scalar (.ofByte 7)
    | succ index => cases htype
  have hfull : full.HasType schema (.optional points) := by
    refine .present (.pointer .owned (.vector ?_))
    intro item hitem
    rcases List.mem_pair.1 hitem with rfl | rfl
    · exact .absent _
    · exact .present hpoint
  obtain ⟨hnatural, hplans⟩ := resolve_of_hasType hcore hfull
  have hplan : resolve .top full tag none = .ok ⟨.any, true, some 4, none, 1, none⟩ := by cbv
  refine ⟨hcore, hfull, hnatural, ?_, hplan⟩
  rw [((hplans .top tag none).1 _ (.absent points)), hplan]

/-- The values of a dynamic reference are of more than one wire type. -/
example : (Value.dynamic none).natural.wire = some .any ∧
    (Value.dynamic (some (.ofByte 7))).natural.wire = some .uint8 := ⟨rfl, rfl⟩

end Plan

end PackedRecord
