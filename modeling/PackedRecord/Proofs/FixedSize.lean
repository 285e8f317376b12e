import Mathlib
import PackedRecord.Encode.Value
import PackedRecord.Host.Schema
import PackedRecord.Proofs.TypePlans

/-!
# Types of a fixed size

The encoded values of some types all take the same number of bytes: truth values and integers,
arrays of a fixed length of such, what owned pointers and optionals hold of such, and records of
such without tags. `HostType.FixedSize` gives that number and `Value.Fits` the values of these
types. `HostType.FixedSize.fits_default` says that the default of such a type is a value of it, and
`HostType.FixedSize.guessedSize_le` that the encoder never guesses too high a size for it.
-/

namespace PackedRecord

namespace RecordType

/-- The type of the field at `index`, if it is exported. -/
def exported? (type : RecordType) (index : Nat) : Option HostType :=
  match type.layout.fields[index]? with
  | some field => if field.exported then type.types[index]? else none
  | none => none

/-- No exported field has a tag, and `sizes` holds a size for every field, which is 0 for a private
one. -/
structure IsPlain (type : RecordType) (sizes : List Nat) : Prop where
  length_fields : type.layout.fields.length = sizes.length
  length_types : type.types.length = sizes.length
  tag_eq : ∀ field ∈ type.layout.fields, field.exported = true → field.tag = .ok .empty
  private_eq : ∀ (index : Nat) (size : Nat), type.exported? index = none →
    sizes[index]? = some size → size = 0

/-- The type of an exported field is a type of the record type, and has a size. -/
theorem IsPlain.of_exported {type : RecordType} {sizes : List Nat} {index : Nat}
    {fieldType : HostType} (h : type.IsPlain sizes)
    (hexported : type.exported? index = some fieldType) :
    type.types[index]? = some fieldType ∧ ∃ size, sizes[index]? = some size := by
  have htype : type.types[index]? = some fieldType := by
    unfold exported? at hexported
    split at hexported
    · split at hexported
      · exact hexported
      · cases hexported
    · cases hexported
  obtain ⟨hinside, -⟩ := List.getElem?_eq_some_iff.1 htype
  rw [h.length_types] at hinside
  exact ⟨htype, _, List.getElem?_eq_getElem hinside⟩

end RecordType

namespace HostType

/-- The encoded values of the type take `size` bytes. No array in it is longer than `greatest`, and
its records nest at most `height` deep. -/
inductive FixedSize (schema : Schema) (greatest : Nat) :
    (height : Nat) → HostType → (size : Nat) → Prop where
  | bool {height} : FixedSize schema greatest height (.scalar .bool) 1
  | int {height type} : FixedSize schema greatest height (.scalar (.int type)) type.width
  | array {height length element size} :
      length ≤ greatest → FixedSize schema greatest height element size →
      FixedSize schema greatest height (.array length element) (length * size)
  | optional {height content size} :
      FixedSize schema greatest height content size →
      FixedSize schema greatest height (.optional content) size
  | owned {height target size} :
      FixedSize schema greatest height target size →
      FixedSize schema greatest height (.pointer .owned target) size
  | record {height key type sizes} :
      schema.lookup key = some type → type.IsPlain sizes →
      (∀ (index : Nat) fieldType size, type.exported? index = some fieldType →
        sizes[index]? = some size → FixedSize schema greatest height fieldType size) →
      FixedSize schema greatest (height + 1) (.record key) sizes.sum

/-- The type behind all pointers. -/
def target : HostType → HostType
  | pointer _ type => type.target
  | type => type

/-- The type behind all pointers and optionals. -/
def core : HostType → HostType
  | pointer _ type => type.core
  | optional type => type.core
  | type => type

end HostType

/-- The values of a type, as far as they are coded: the private fields of a record may hold
anything. Only the types that can be of a fixed size have values here. -/
inductive Value.Fits (schema : Schema) : HostType → Value → Prop where
  | scalar {type content} :
      content.type = type → Fits schema (.scalar type) (.scalar content)
  | array {length element items} :
      items.length = length → (∀ item ∈ items, Fits schema element item) →
      Fits schema (.array length element) (.sequence .fixed element items)
  | optional {type content} :
      (∀ value, content = some value → Fits schema type value) →
      Fits schema (.optional type) (.optional type content)
  | owned {type content} :
      Fits schema type content → Fits schema (.pointer .owned type) (.pointer .owned content)
  | record {key type fields} :
      schema.lookup key = some type → fields.length = type.types.length →
      (∀ (index : Nat) fieldType value, type.exported? index = some fieldType →
        fields[index]? = some value → Fits schema fieldType value) →
      Fits schema (.record key) (.record type.layout fields)

/-- The fields are those of a record of the type, as far as they are coded. -/
structure RecordType.Holds (schema : Schema) (type : RecordType) (fields : List Value) : Prop where
  length_eq : fields.length = type.types.length
  fits : ∀ (index : Nat) fieldType value, type.exported? index = some fieldType →
    fields[index]? = some value → Value.Fits schema fieldType value

/-- A field may be replaced by another value of its type. -/
theorem RecordType.Holds.set {schema : Schema} {type : RecordType} {fields : List Value}
    {index : Nat} {result : Value} (h : type.Holds schema fields)
    (hresult : ∀ fieldType, type.exported? index = some fieldType →
      Value.Fits schema fieldType result) : type.Holds schema (fields.set index result) := by
  refine ⟨by rw [List.length_set, h.length_eq], ?_⟩
  intro position fieldType value hexported hvalue
  rw [List.getElem?_set] at hvalue
  split at hvalue
  next hhere =>
    subst hhere
    split at hvalue
    · cases hvalue
      exact hresult fieldType hexported
    · cases hvalue
  next => exact h.fits position fieldType value hexported hvalue

namespace HostType

variable {schema : Schema} {greatest height size : Nat} {type : HostType}

/-- What is coded behind pointers and optionals is coded by the same wire type. -/
theorem core_natural (type : HostType) :
    type.core.natural.wire = type.natural.wire ∧
      type.core.natural.isArray = type.natural.isArray := by
  induction type with
  | optional content ih => exact ih
  | pointer kind target ih => exact ih
  | _ => exact ⟨rfl, rfl⟩

/-- Pointers do not show in the natural representation of a type. -/
theorem target_natural (type : HostType) : type.target.natural = type.natural := by
  induction type with
  | pointer kind target ih => exact ih
  | _ => rfl

/-- Behind pointers and optionals is the same type with the pointers in front and without. -/
theorem target_core (type : HostType) : type.target.core = type.core := by
  induction type with
  | pointer kind target ih => exact ih
  | _ => rfl

/-- Behind all pointers of a type is no pointer. -/
theorem target_ne_pointer (type : HostType) (kind : PointerKind) (inner : HostType) :
    type.target ≠ .pointer kind inner := by
  induction type with
  | pointer kind target ih => exact ih
  | _ => exact nofun

/-- Behind all pointers and optionals of a type is no pointer. -/
theorem core_ne_pointer (type : HostType) (kind : PointerKind) (inner : HostType) :
    type.core ≠ .pointer kind inner := by
  induction type with
  | pointer kind target ih => exact ih
  | optional content ih => exact ih
  | _ => exact nofun

/-- Behind all pointers and optionals of a type is no optional. -/
theorem core_ne_optional (type : HostType) (inner : HostType) : type.core ≠ .optional inner := by
  induction type with
  | pointer kind target ih => exact ih
  | optional content ih => exact ih
  | _ => exact nofun

/-- Without references in front, there are pointers only. -/
theorem core_of_direct {type : HostType} (h : type.natural.indirection = 0) :
    type.core = type.target := by
  induction type with
  | pointer kind target ih => exact ih h
  | optional content ih => cases h
  | _ => rfl

namespace FixedSize

/-- Behind its pointers, a type has the same fixed size. -/
theorem target (h : FixedSize schema greatest height type size) :
    FixedSize schema greatest height type.target size := by
  induction h with
  | owned _ ih => exact ih
  | bool => exact .bool
  | int => exact .int
  | array hlength helement => exact .array hlength helement
  | optional hcontent => exact .optional hcontent
  | record hlookup hplain hfields => exact .record hlookup hplain hfields

/-- Behind its pointers and optionals, a type has the same fixed size. -/
theorem core (h : FixedSize schema greatest height type size) :
    FixedSize schema greatest height type.core size := by
  induction h with
  | owned _ ih => exact ih
  | optional _ ih => exact ih
  | bool => exact .bool
  | int => exact .int
  | array hlength helement => exact .array hlength helement
  | record hlookup hplain hfields => exact .record hlookup hplain hfields

/-- Values of a fixed size have a representation. -/
theorem natural_wire_ne (h : FixedSize schema greatest height type size) :
    type.natural.wire ≠ none := by
  induction h with
  | array _ _ ih =>
      show (Natural.sequence _ _).wire ≠ none
      unfold Natural.sequence
      split
      · exact nofun
      · exact ih
  | optional _ ih => exact ih
  | owned _ ih => exact ih
  | _ => exact nofun

/-- Records that nest at most so deep nest no deeper than one step more. -/
theorem succ (h : FixedSize schema greatest height type size) :
    FixedSize schema greatest (height + 1) type size := by
  induction h with
  | bool => exact .bool
  | int => exact .int
  | array hlength _ ih => exact .array hlength ih
  | optional _ ih => exact .optional ih
  | owned _ ih => exact .owned ih
  | record hlookup hplain _ ih => exact .record hlookup hplain ih

end FixedSize

end HostType

namespace Value

variable {schema : Schema} {type : HostType} {value : Value}

/-- A value that fits has the natural representation of its type. -/
theorem Fits.natural_eq (h : Fits schema type value) :
    value.natural.unsized = type.natural.unsized := by
  induction h with
  | scalar htype => rw [← htype]; rfl
  | array => rfl
  | @optional type content _ ih =>
      cases content with
      | none => rfl
      | some content =>
          have hnatural := ih content rfl
          rw [Natural.unsized_inj] at hnatural ⊢
          exact ⟨hnatural.1, hnatural.2.1, congrArg (· + 1) hnatural.2.2⟩
  | owned _ ih => exact ih
  | record => rfl

/-- What is behind the pointers of a value that fits can be replaced. -/
theorem Fits.target (h : Fits schema type value) :
    Fits schema type.target value.target ∧ value.isReadOnly = false ∧
      ∀ result, Fits schema type.target result → Fits schema type (value.withTarget result) := by
  induction h with
  | owned _ ih => exact ⟨ih.1, ih.2.1, fun result hresult => .owned (ih.2.2 result hresult)⟩
  | scalar htype => exact ⟨.scalar htype, rfl, fun _ hresult => hresult⟩
  | array hlength hitems => exact ⟨.array hlength hitems, rfl, fun _ hresult => hresult⟩
  | optional hcontent => exact ⟨.optional hcontent, rfl, fun _ hresult => hresult⟩
  | record hlookup hcount hfields =>
      exact ⟨.record hlookup hcount hfields, rfl, fun _ hresult => hresult⟩

end Value

/-- An integer goes over its natural wire type in its own width. -/
theorem IntType.byteSize_natural (type : IntType) :
    (ScalarType.int type).natural.byteSize = type.width := by
  cases type <;> rfl

namespace HostType

variable {schema : Schema} {greatest height size : Nat} {type : HostType}

/-- The size that the encoder takes an element of the type for if it has not written any. -/
def guessedSize (element : HostType) : Nat :=
  staticSize ((Natural.sequence element.natural none).wire.getD .any) element.natural

/-- The guess for an array is that for all its elements, and any other type takes one number. -/
theorem guessedSize_eq (type : HostType) :
    type.guessedSize =
      if type.natural.isArray then
        sizeMul (type.natural.wire.getD .any).byteSize (type.natural.length.getD 0)
      else (type.natural.wire.getD .any).byteSize := by
  rw [guessedSize, staticSize, type.wire_of_sequence]

/-- The encoder never guesses too much for a type of a fixed size. -/
theorem FixedSize.guessedSize_le (h : FixedSize schema greatest height type size) :
    type.guessedSize ≤ size := by
  -- For the induction over arrays, the two ways in which the guess is made are kept apart.
  have hparts : (type.natural.isArray = false → (type.natural.wire.getD .any).byteSize ≤ size) ∧
      (type.natural.wire.getD .any).byteSize * type.natural.length.getD 0 ≤ size := by
    induction h with
    | bool => exact ⟨fun _ => Nat.le_refl 1, Nat.zero_le 1⟩
    | @int _ type => exact ⟨fun _ => Nat.le_of_eq type.byteSize_natural, Nat.zero_le _⟩
    | @array _ length element size _ _ ih =>
        refine ⟨nofun, ?_⟩
        show ((Natural.sequence element.natural (some length)).wire.getD .any).byteSize * length ≤
          length * size
        unfold Natural.sequence
        by_cases hopen : element.natural.isArray ∨ 0 < element.natural.indirection
        · rw [if_pos hopen]
          show 0 * length ≤ length * size
          rw [Nat.zero_mul]
          exact Nat.zero_le _
        · rw [if_neg hopen, Nat.mul_comm]
          have hnested : element.natural.isArray = false :=
            Bool.eq_false_iff.2 fun harray => hopen (.inl harray)
          exact Nat.mul_le_mul_left length (ih.1 hnested)
    | optional _ ih => exact ⟨ih.1, Nat.zero_le _⟩
    | owned _ ih => exact ih
    | record => exact ⟨fun _ => Nat.zero_le _, Nat.zero_le _⟩
  rw [guessedSize_eq]
  cases harray : type.natural.isArray with
  | true => exact Nat.le_trans (Nat.min_le_right _ _) hparts.2
  | false => exact hparts.1 harray

section default

open scoped Classical

/-- The record types of the schema that are of a fixed size and nest at most `height` deep. -/
noncomputable def fixedKeys (schema : Schema) (greatest height : Nat) : Finset String :=
  (schema.map Prod.fst).toFinset.filter fun key =>
    ∃ size, FixedSize schema greatest height (.record key) size

/-- What nests at most so deep nests at most one deeper. -/
theorem fixedKeys_subset :
    fixedKeys schema greatest height ⊆ fixedKeys schema greatest (height + 1) :=
  Finset.monotone_filter_right _ fun _ _ ⟨size, hsize⟩ => ⟨size, hsize.succ⟩

/-- A registered record type is among those of a fixed size exactly if it has one. -/
theorem mem_fixedKeys {key : String} {type : RecordType} (hlookup : schema.lookup key = some type) :
    key ∈ fixedKeys schema greatest height ↔
      ∃ size, FixedSize schema greatest height (.record key) size := by
  obtain ⟨front, back, hschema, -⟩ := List.lookup_eq_some_iff.1 hlookup
  have hkey : key ∈ schema.map Prod.fst :=
    List.mem_map.2 ⟨(key, type), by rw [hschema]; simp, rfl⟩
  rw [fixedKeys, Finset.mem_filter, List.mem_toFinset]
  exact and_iff_right hkey

/-- No more record types are of a fixed size than are registered. -/
theorem card_fixedKeys_le : (fixedKeys schema greatest height).card ≤ schema.length := by
  refine Nat.le_trans (Finset.card_filter_le _ _) ?_
  refine Nat.le_trans (List.toFinset_card_le _) ?_
  rw [List.length_map]

/-- The default of a type of a fixed size is a value of it, if its records may nest as deep as
there are record types of a fixed size. -/
theorem FixedSize.fits_defaultWith {depth : Nat} (h : FixedSize schema greatest height type size)
    (hdepth : (fixedKeys schema greatest height).card ≤ depth) :
    Value.Fits schema type (type.defaultWith (schema.defaultRecord depth)) := by
  -- The outer induction is on the height of the records, the inner one on the type.
  induction height using Nat.strongRecOn generalizing type size depth with
  | ind height hbelow =>
      induction h generalizing depth with
      | bool => exact .scalar rfl
      | int => exact .scalar rfl
      | @array height length element size _ _ ih =>
          have hitems : ∀ item ∈
              List.replicate length (element.defaultWith (schema.defaultRecord depth)),
                Value.Fits schema element item := by
            intro item hitem
            rw [List.eq_of_mem_replicate hitem]
            exact ih hbelow hdepth
          exact .array List.length_replicate hitems
      | optional => exact .optional nofun
      | owned _ ih => exact .owned (ih hbelow hdepth)
      | @record height key recordType sizes hlookup hplain hfields _ =>
          by_cases hlower : ∃ size, FixedSize schema greatest height (.record key) size
          · obtain ⟨size, hsize⟩ := hlower
            exact hbelow height (Nat.lt_succ_self height) hsize
              (Nat.le_trans (Finset.card_le_card fixedKeys_subset) hdepth)
          -- The fields do not hold such a record again, so there is one record type less for them.
          · have hfewer : (fixedKeys schema greatest height).card <
                (fixedKeys schema greatest (height + 1)).card := by
              refine Finset.card_lt_card ⟨fixedKeys_subset, fun hsubset => hlower ?_⟩
              exact (mem_fixedKeys hlookup).1 (hsubset ((mem_fixedKeys hlookup).2
                ⟨_, .record hlookup hplain hfields⟩))
            obtain ⟨depth, rfl⟩ : ∃ lower, depth = lower + 1 :=
              Nat.exists_eq_add_one.2 (by omega)
            show Value.Fits schema (.record key) (schema.defaultRecord (depth + 1) key)
            rw [Schema.defaultRecord, hlookup]
            refine .record hlookup (List.length_map _) ?_
            intro index fieldType value hexported hvalue
            obtain ⟨htype, size, hsize⟩ := hplain.of_exported hexported
            rw [List.getElem?_map, htype] at hvalue
            cases hvalue
            have hfield := hfields index fieldType size hexported hsize
            exact hbelow height (Nat.lt_succ_self height) hfield (by omega)

/-- The default of a type of a fixed size is a value of it. -/
theorem FixedSize.fits_default (h : FixedSize schema greatest height type size) :
    Value.Fits schema type (schema.default type) :=
  h.fits_defaultWith card_fixedKeys_le

end default

end HostType

end PackedRecord
