import PackedRecord.Proofs.Calls
import PackedRecord.Proofs.Frame

/-!
# References in front of values

References do not show in what is encoded and decoded. `Plan.resolve_indirect` says that they change
the plan of a value in the number of references only, and that number is what the encoder and the
decoder pass over on their way to the value. `references_transparent` is the statement to read: a
value and what it is wrapped in are encoded alike, and a type and its options are decoded alike.
-/

namespace PackedRecord

/-- One reference or pointer in front of a value. -/
inductive Wrapper where
  /-- An option of the given type that is filled. -/
  | optional (type : HostType)
  /-- A dynamic reference that is filled. -/
  | dynamic
  | pointer (kind : PointerKind)

/-- The value with a reference in front of it. -/
def Wrapper.wrap : Wrapper → Value → Value
  | optional type, value => .optional type (some value)
  | dynamic, value => .dynamic (some value)
  | pointer kind, value => .pointer kind value

/-- How many levels of indirection the references are. Pointers do not count. -/
def Wrapper.levels : List Wrapper → Nat
  | [] => 0
  | .pointer _ :: wrappers => levels wrappers
  | _ :: wrappers => levels wrappers + 1

namespace Natural

/-- The second representation is that of the same value behind so many more references, up to the
length of an array. -/
structure Behind (natural : Natural) (levels : Nat) (natural' : Natural) : Prop where
  wire_eq : natural'.wire = natural.wire
  isArray_eq : natural'.isArray = natural.isArray
  indirection_eq : natural'.indirection = levels + natural.indirection

/-- A representation is behind no references of its own. -/
theorem behind_zero (natural : Natural) : natural.Behind 0 natural :=
  ⟨rfl, rfl, (Nat.zero_add _).symm⟩

/-- One more reference in front of a value is one more level. -/
theorem Behind.through {natural natural' : Natural} {levels : Nat}
    (h : natural.Behind levels natural') : natural.Behind (levels + 1) natural'.through where
  wire_eq := h.wire_eq
  isArray_eq := h.isArray_eq
  indirection_eq := by
    show natural'.indirection + 1 = _
    rw [h.indirection_eq, Nat.add_right_comm]

end Natural

namespace Value

/-- The value behind references, the first of which is the outermost. -/
def wrapped (wrappers : List Wrapper) (value : Value) : Value :=
  wrappers.foldr Wrapper.wrap value

/-- Pointers do not show in the name of a type. -/
theorem typeName_target (value : Value) : value.target.typeName = value.typeName := by
  fun_induction Value.target value
  case case1 kind value ih => exact ih
  case case2 => rfl

/-- No value is padding or ignored by itself. -/
theorem natural_wire_ne (value : Value) :
    value.natural.wire ≠ some .pad ∧ value.natural.wire ≠ some .ignore := by
  fun_induction Value.natural value
  case case1 content => exact (HostType.scalar content.type).natural_wire_ne
  case case2 => exact HostType.text.natural_wire_ne
  case case3 => exact HostType.text.natural_wire_ne
  case case4 kind element items => exact (HostType.array items.length element).natural_wire_ne
  case case5 type content ih => exact ih
  case case6 type _ => exact (HostType.optional type).natural_wire_ne
  case case7 content ih => exact ih
  case case8 => exact HostType.dynamic.natural_wire_ne
  case case9 kind target ih => exact ih
  case case10 layout fields => exact ⟨nofun, nofun⟩
  case case11 name => exact ⟨nofun, nofun⟩

/-- References change the natural representation of a value in the number of references only. -/
theorem natural_wrapped (wrappers : List Wrapper) (value : Value) :
    value.natural.Behind (Wrapper.levels wrappers) (value.wrapped wrappers).natural := by
  induction wrappers with
  | nil => exact value.natural.behind_zero
  | cons wrapper wrappers ih =>
      cases wrapper with
      | pointer kind => exact ih
      | optional type => exact ih.through
      | dynamic => exact ih.through

/-- What is behind references does not depend on pointers. -/
theorem strip_target {value value' : Value} (h : value'.target = value.target) (levels : Nat) :
    (value'.strip levels).map target = (value.strip levels).map target := by
  cases levels with
  | zero => exact congrArg Except.ok h
  | succ levels =>
      unfold strip
      rw [h]
      split
      next => rfl
      next => rfl
      next => rfl
      next => rfl
      next => exact congrArg Except.ok h

/-- Behind the references that a value is wrapped in, there is the value, up to pointers. -/
theorem strip_wrapped (wrappers : List Wrapper) (value : Value) (levels : Nat) :
    ((value.wrapped wrappers).strip (Wrapper.levels wrappers + levels)).map target =
      (value.strip levels).map target := by
  induction wrappers with
  | nil =>
      show (value.strip (0 + levels)).map target = _
      rw [Nat.zero_add]
  | cons wrapper wrappers ih =>
      cases wrapper with
      | pointer kind =>
          have hpointer : (Value.pointer kind (value.wrapped wrappers)).target =
              (value.wrapped wrappers).target := rfl
          exact (strip_target hpointer _).trans ih
      | optional type =>
          show ((value.wrapped ((Wrapper.optional type) :: wrappers)).strip
            (Wrapper.levels wrappers + 1 + levels)).map target = _
          rw [Nat.add_right_comm]
          exact ih
      | dynamic =>
          show ((value.wrapped (Wrapper.dynamic :: wrappers)).strip
            (Wrapper.levels wrappers + 1 + levels)).map target = _
          rw [Nat.add_right_comm]
          exact ih

end Value

namespace Error

/-- The errors are the same, or say of two types that their values have no representation. -/
inductive SameKind : Error → Error → Prop where
  | refl (error : Error) : SameKind error error
  | unencodable (path : Path) (name name' : String) :
      SameKind (.located path (.notEncodable (.type name)))
        (.located path (.notEncodable (.type name')))

end Error

/-- Two runs end with the same result, or with errors of the same kind. -/
inductive SameEnd {α : Type} : Except Error α → Except Error α → Prop where
  | ok (result : α) : SameEnd (.ok result) (.ok result)
  | error {error error' : Error} (h : error.SameKind error') :
      SameEnd (.error error) (.error error')

/-- A run ends like itself. -/
theorem SameEnd.refl {α : Type} (outcome : Except Error α) : SameEnd outcome outcome := by
  cases outcome with
  | ok result => exact .ok result
  | error error => exact .error (.refl error)

namespace Plan

variable {path : Path} {value value' : Value} {tag : Tag} {record : Option Record}

/-- The plan of a value behind so many more references. -/
def indirect (levels : Nat) (plan : Plan) : Plan :=
  { plan with indirection := levels + plan.indirection }

/-- Two values of one natural wire type have one wire type by a tag that does not make them padding
and does not ignore them, or both have none. -/
theorem resolveWire_indirect (hwire : value'.natural.wire = value.natural.wire)
    (hpad : tag.wire ≠ some .pad) (hignore : tag.wire ≠ some .ignore) :
    (∃ wire, resolveWire path value tag.wire = .ok wire ∧
      resolveWire path value' tag.wire = .ok wire ∧ wire ≠ .pad ∧ wire ≠ .ignore) ∨
    (resolveWire path value tag.wire =
        .error (.located path (.notEncodable (.type value.typeName))) ∧
      resolveWire path value' tag.wire =
        .error (.located path (.notEncodable (.type value'.typeName)))) := by
  have hnatural := value.natural_wire_ne
  unfold resolveWire
  rw [hwire]
  split
  next htag => exact absurd htag hpad
  next htag => exact absurd htag hignore
  next => exact .inr ⟨rfl, rfl⟩
  next wire _ hnotpad hnotignore _ _ => exact .inl ⟨wire, rfl, rfl, hnotpad, hnotignore⟩
  next wire _ hsome =>
    rw [hsome] at hnatural
    exact .inl ⟨wire, rfl, rfl, fun h => hnatural.1 (congrArg some h),
      fun h => hnatural.2 (congrArg some h)⟩

/-- More references in front of a value change its plan in their number only. If there is no plan,
the reasons are of the same kind. -/
theorem resolve_indirect (path : Path) (record : Option Record) {levels : Nat}
    (h : value.natural.Behind levels value'.natural)
    (hpad : tag.wire ≠ some .pad) (hignore : tag.wire ≠ some .ignore) :
    (∃ plan, resolve path value tag record = .ok plan ∧
      resolve path value' tag record = .ok (plan.indirect levels) ∧
      plan.wire ≠ .pad ∧ plan.wire ≠ .ignore) ∨
    ∃ error error', resolve path value tag record = .error error ∧
      resolve path value' tag record = .error error' ∧ error.SameKind error' := by
  unfold resolve
  rw [resolveArray_congr h.isArray_eq, h.indirection_eq]
  rcases resolveWire_indirect h.wire_eq hpad hignore with
    ⟨wire, hsame, hsame', hcoded⟩ | ⟨hnone, hnone'⟩
  · rw [hsame, hsame']
    cases harray : resolveArray path value tag.brackets record with
    | error error => exact .inr ⟨error, error, rfl, rfl, .refl error⟩
    | ok array =>
        cases hbuffer : resolveBuffer path tag.bufferLength record with
        | error error => exact .inr ⟨error, error, rfl, rfl, .refl error⟩
        | ok bufferLength => exact .inl ⟨_, rfl, rfl, hcoded⟩
  · rw [hnone, hnone']
    exact .inr ⟨_, _, rfl, rfl, .unencodable path _ _⟩

end Plan

section encoder

variable {settings : Settings} {child : Option ChildEncoder} {path : Path} {plan : Plan}
  {value value' : Value}

/-- The encoder one step further down does not see pointers. -/
def Transparent (child : Option ChildEncoder) : Prop :=
  ∀ encode, child = some encode → ∀ path value value' plan, value'.target = value.target →
    encode path value' plan = encode path value plan

/-- References in front of an array do not change the plans of its elements. -/
theorem Plan.element_indirect (plan : Plan) (levels : Nat) (path : Path) (item : Value) :
    (plan.indirect levels).element path item = plan.element path item := rfl

/-- Pointers in front of an element do not change its plan. -/
theorem Plan.element_target (plan : Plan) (h : value'.target = value.target) :
    plan.element path value' = plan.element path value := by
  have hnatural : value'.natural = value.natural := by
    rw [← value'.natural_target, h, value.natural_target]
  have hname : value'.typeName = value.typeName := by
    rw [← value'.typeName_target, h, value.typeName_target]
  exact element_congr hnatural hname plan path

/-- References in front of an array do not change how its elements are encoded. -/
theorem encodeElements_indirect (levels index : Nat) (last : Option Nat) (items : List Value) :
    encodeElements child path (plan.indirect levels) index last items =
      encodeElements child path plan index last items := by
  induction items generalizing index last with
  | nil => rfl
  | cons item items ih => simp only [encodeElements, Plan.element_indirect, ih]

/-- The elements of an array are encoded without regard to the references in front of it. -/
theorem encodeArray_indirect (levels : Nat) :
    encodeArray child path value (plan.indirect levels) = encodeArray child path value plan := by
  have hitems (elements : Elements) :
      encodeItems child path (plan.indirect levels) elements =
        encodeItems child path plan elements := by
    unfold encodeItems
    simp only [encodeElements_indirect]
    rfl
  rw [encodeArray_eq, encodeArray_eq]
  simp only [hitems]
  rfl

/-- An array is encoded without regard to pointers in front of it. -/
theorem encodeArray_target (hchild : Transparent child) (h : value'.target = value.target) :
    encodeArray child path value' plan = encodeArray child path value plan := by
  have hnatural : value'.natural = value.natural := by
    rw [← value'.natural_target, h, value.natural_target]
  have hsingle : encodeItems child path plan ⟨[value'], none, value.natural⟩ =
      encodeItems child path plan ⟨[value], none, value.natural⟩ := by
    simp only [encodeItems, encodeElements]
    cases child with
    | none => rfl
    | some encode =>
        simp only [descend, Emission.pure_eq, Emission.ofExcept_ok_bind, Plan.element_target plan h,
          hchild encode rfl _ value value' _ h]
  rw [encodeArray_eq, encodeArray_eq]
  unfold Elements.of
  rw [h]
  split
  next => rfl
  next => rfl
  next =>
    split
    next => rfl
    next => simp only [hnatural, Emission.ofExcept_ok_bind, hsingle, List.length_singleton]
  next =>
    split
    next => rfl
    next => simp only [hnatural, Emission.ofExcept_ok_bind, hsingle, List.length_singleton]
  next => simp only [hnatural, Emission.ofExcept_ok_bind, hsingle, List.length_singleton]

/-- References in front of a value do not change how it is encoded behind them. -/
theorem encodeLeaf_indirect (levels : Nat) :
    encodeLeaf settings child path value (plan.indirect levels) =
      encodeLeaf settings child path value plan := rfl

/-- Pointers in front of a value do not change how it is encoded without an array. -/
theorem encodeLeaf_target (h : value'.target = value.target) :
    encodeLeaf settings child path value' plan = encodeLeaf settings child path value plan := by
  have hname : value'.typeName = value.typeName := by
    rw [← value'.typeName_target, h, value.typeName_target]
  unfold encodeLeaf
  rw [h, hname]

/-- What two values are behind their references decides how they are encoded. -/
theorem encodeWith_indirect (hchild : Transparent child) (hpad : plan.wire ≠ .pad)
    (hignore : plan.wire ≠ .ignore) {levels : Nat}
    (h : (value'.strip (levels + plan.indirection)).map Value.target =
      (value.strip plan.indirection).map Value.target) :
    encodeWith settings child path value' (plan.indirect levels) =
      encodeWith settings child path value plan := by
  have hpad' : (plan.indirect levels).wire ≠ .pad := hpad
  have hignore' : (plan.indirect levels).wire ≠ .ignore := hignore
  have hindirection : (plan.indirect levels).indirection = levels + plan.indirection := rfl
  have hisArray : (plan.indirect levels).isArray = plan.isArray := rfl
  rw [encodeWith_coded hpad hignore, encodeWith_coded hpad' hignore', hindirection, hisArray]
  cases hstrip : value.strip plan.indirection with
  | error fault =>
      rw [hstrip] at h
      rw [error_of_map h]
  | ok content =>
      rw [hstrip] at h
      cases hstrip' : value'.strip (levels + plan.indirection) with
      | error fault =>
          rw [hstrip'] at h
          cases h
      | ok content' =>
          rw [hstrip'] at h
          have htarget : content'.target = content.target := Except.ok.inj h
          simp only [encodeArray_indirect, encodeLeaf_indirect, encodeArray_target hchild htarget,
            encodeLeaf_target htarget]

/-- A value is encoded without regard to pointers in front of it. -/
theorem encodeWith_target (hchild : Transparent child) (h : value'.target = value.target) :
    encodeWith settings child path value' plan = encodeWith settings child path value plan := by
  by_cases hignore : plan.wire = .ignore
  · simp only [encodeWith, hignore]
  by_cases hpad : plan.wire = .pad
  · simp only [encodeWith, hpad, Plan.padLength, Plan.currentLength, h]
  have hnone : plan.indirect 0 = plan := by
    unfold Plan.indirect
    rw [Nat.zero_add]
  have hstrip : (value'.strip (0 + plan.indirection)).map Value.target =
      (value.strip plan.indirection).map Value.target := by
    rw [Nat.zero_add]
    exact Value.strip_target h plan.indirection
  have hbehind : encodeWith settings child path value' (plan.indirect 0) =
      encodeWith settings child path value plan := encodeWith_indirect hchild hpad hignore hstrip
  rwa [hnone] at hbehind

end encoder

/-- Where nothing is encoded below, no pointer is seen. -/
theorem transparent_none : Transparent none := by
  intro encode h
  cases h

/-- However much room there is, the encoder does not see pointers. -/
theorem transparent_encodeIn (settings : Settings) (room : Nat) :
    Transparent (some (encodeIn settings room)) := by
  induction room with
  | zero =>
      intro encode hencode path value value' plan h
      cases hencode
      exact encodeWith_target transparent_none h
  | succ room ih =>
      intro encode hencode path value value' plan h
      cases hencode
      exact encodeWith_target ih h

/-- A value is encoded without regard to the references in front of it. -/
theorem encodeValue_wrapped {settings : Settings} {path : Path} {plan : Plan}
    (wrappers : List Wrapper) (value : Value) (hpad : plan.wire ≠ .pad)
    (hignore : plan.wire ≠ .ignore) :
    encodeValue settings path (value.wrapped wrappers) (plan.indirect (Wrapper.levels wrappers)) =
      encodeValue settings path value plan := by
  have hstrip := Value.strip_wrapped wrappers value plan.indirection
  unfold encodeValue
  cases settings.limits.room path with
  | zero => exact encodeWith_indirect transparent_none hpad hignore hstrip
  | succ room => exact encodeWith_indirect (transparent_encodeIn settings room) hpad hignore hstrip

section decoder

variable {schema : Schema} {settings : Settings} {child : Option ChildDecoder} {path : Path}
  {plan : Plan} {value : Value}

/-- References in front of an array do not change how its elements are decoded. -/
theorem decodeElements_indirect (levels index : Nat) (decoded items : List Value) :
    decodeElements child path (plan.indirect levels) index decoded items =
      decodeElements child path plan index decoded items := by
  induction items generalizing index decoded with
  | nil => rfl
  | cons item items ih =>
      simp only [decodeElements, ih]
      rfl

/-- References in front of an array do not change how elements are read and dropped. -/
theorem discardElements_indirect (levels count index : Nat) (scratch : Value) :
    discardElements child path (plan.indirect levels) count index scratch =
      discardElements child path plan count index scratch := by
  induction count generalizing index scratch with
  | zero => rfl
  | succ count ih =>
      simp only [discardElements, ih]
      rfl

/-- References in front of a sequence do not change how its items are decoded. -/
theorem decodeItems_indirect (levels : Nat) (element : HostType) (items : List Value) :
    decodeItems child path (plan.indirect levels) element items =
      decodeItems child path plan element items := by
  unfold decodeItems
  rw [decodeElements_indirect]
  rfl

/-- References in front of an array do not change how slots are passed over. -/
theorem discardSlots_indirect (levels : Nat) (scratch : Value) (stored slots : Nat) :
    discardSlots child path (plan.indirect levels) scratch stored slots =
      discardSlots child path plan scratch stored slots := by
  unfold discardSlots
  simp only [discardElements_indirect, Plan.element_indirect]

/-- The elements of an array are decoded without regard to the references in front of it. -/
theorem decodeArray_indirect (levels : Nat) :
    decodeArray schema settings child path value (plan.indirect levels) =
      decodeArray schema settings child path value plan := by
  unfold decodeArray decodeSequence decodeNumbersAsText decodeSingle
  simp only [decodeItems_indirect, discardSlots_indirect]
  rfl

/-- References in front of a value do not change how it is decoded behind them. -/
theorem decodeLeaf_indirect (levels : Nat) :
    decodeLeaf settings child path value (plan.indirect levels) =
      decodeLeaf settings child path value plan := rfl

end decoder

namespace HostType

/-- The type of options of options, and so on, of the type. -/
def options (type : HostType) : (levels : Nat) → HostType
  | 0 => type
  | levels + 1 => .optional (type.options levels)

/-- A value of the type as the content of filled options. -/
def filled (type : HostType) (value : Value) : (levels : Nat) → Value
  | 0 => value
  | levels + 1 => .optional (type.options levels) (some (type.filled value levels))

/-- The type is not that of a record, or of pointers to one, that the schema does not hold. -/
def Known (schema : Schema) : HostType → Prop
  | record key => schema.lookup key ≠ none
  | pointer _ target => target.Known schema
  | _ => True

/-- The default value of a type has the representation of the type, up to the length of an array. -/
theorem natural_default {schema : Schema} {type : HostType} (h : type.Known schema) :
    (schema.default type).natural.unsized = type.natural.unsized := by
  unfold Schema.default
  induction type with
  | scalar type =>
      show (Natural.single (Scalar.zero type).type.natural).unsized = _
      rw [Scalar.type_zero]
      rfl
  | pointer kind target ih => exact ih h
  | record key =>
      show (schema.defaultRecord schema.length key).natural.unsized = _
      cases schema with
      | nil => exact absurd rfl h
      | cons entry schema =>
          rw [List.length_cons, Schema.defaultRecord]
          split
          next hnone => exact absurd hnone h
          next => rfl
  | _ => rfl

/-- The options of a type are represented as the type behind as many references. -/
theorem natural_options (type : HostType) (levels : Nat) :
    type.natural.Behind levels (type.options levels).natural := by
  induction levels with
  | zero => exact type.natural.behind_zero
  | succ levels ih =>
      obtain ⟨hwire, hisArray, hindirection⟩ := ih.through
      exact ⟨hwire, hisArray, hindirection⟩

/-- The default of options of a type is represented as that of the type, behind references. -/
theorem natural_default_options {schema : Schema} {type : HostType} (h : type.Known schema)
    (levels : Nat) :
    (schema.default type).natural.Behind levels
      (schema.default (type.options levels)).natural := by
  cases levels with
  | zero => exact (schema.default type).natural.behind_zero
  | succ levels =>
      obtain ⟨hwire, hisArray, hindirection⟩ := type.natural_options (levels + 1)
      obtain ⟨hwire', hisArray', hindirection'⟩ := Natural.unsized_inj.1 (natural_default h)
      rw [← hwire'] at hwire
      rw [← hisArray'] at hisArray
      rw [← hindirection'] at hindirection
      exact ⟨hwire, hisArray, hindirection⟩

end HostType

/-- To decode behind options that are empty is to decode into the default of their content. -/
theorem decodeBehind_options (schema : Schema) (path : Path) (decode : Value → Intake Value Value)
    (type : HostType) (levels inner : Nat) :
    decodeBehind schema path decode (levels + inner) (schema.default (type.options levels)) =
      (decodeBehind schema path decode inner (schema.default type)).within
        (type.filled · levels) := by
  induction levels with
  | zero =>
      rw [Nat.zero_add]
      exact (Intake.bimap_id _).symm
  | succ levels ih =>
      rw [Nat.add_right_comm]
      show (decodeBehind schema path decode (levels + inner)
        (schema.default (type.options levels))).within
          (fun content => Value.optional (type.options levels) (some content)) = _
      rw [ih]
      exact Intake.bimap_bimap _ _ _ _ _

/-- Decoding into empty options decodes into the default of the type and fills the options. -/
theorem decodeWith_options {schema : Schema} {settings : Settings} {child : Option ChildDecoder}
    {path : Path} {plan : Plan} (type : HostType) (levels : Nat) (hpad : plan.wire ≠ .pad)
    (hignore : plan.wire ≠ .ignore) :
    decodeWith schema settings child path (schema.default (type.options levels))
        (plan.indirect levels) =
      (decodeWith schema settings child path (schema.default type) plan).within
        (type.filled · levels) := by
  have hpad' : (plan.indirect levels).wire ≠ .pad := hpad
  have hignore' : (plan.indirect levels).wire ≠ .ignore := hignore
  rw [decodeWith_coded hpad hignore, decodeWith_coded hpad' hignore', ← decodeBehind_options]
  simp only [decodeArray_indirect, decodeLeaf_indirect]
  rfl

section tag

variable (settings : Settings) (path : Path) (record : Option Record) {tag : Tag}

/-- A value and what it is wrapped in are encoded alike, or are both refused. -/
theorem encodeAt_wrapped (wrappers : List Wrapper) (value : Value) (hpad : tag.wire ≠ some .pad)
    (hignore : tag.wire ≠ some .ignore) :
    encodeAt settings path record tag (value.wrapped wrappers) =
        encodeAt settings path record tag value ∨
      ∃ error error', encodeAt settings path record tag value = .fail error ∧
        encodeAt settings path record tag (value.wrapped wrappers) = .fail error' ∧
        error.SameKind error' := by
  unfold encodeAt
  rcases Plan.resolve_indirect path record (value.natural_wrapped wrappers) hpad hignore with
    ⟨plan, hplan, hplan', hnotpad, hnotignore⟩ | ⟨error, error', herror, herror', hkind⟩
  · rw [hplan, hplan']
    exact .inl (encodeValue_wrapped wrappers value hnotpad hnotignore)
  · rw [herror, herror']
    exact .inr ⟨error, error', rfl, rfl, hkind⟩

/-- Empty options are decoded as the default of what they are options of, or both are refused. -/
theorem decodeAt_options {schema : Schema} {type : HostType} (hknown : type.Known schema)
    (levels : Nat) (hpad : tag.wire ≠ some .pad) (hignore : tag.wire ≠ some .ignore) :
    decodeAt schema settings path record tag (schema.default (type.options levels)) =
        (decodeAt schema settings path record tag (schema.default type)).within
          (type.filled · levels) ∨
      ∃ error error', decodeAt schema settings path record tag (schema.default type) =
          .fail error (schema.default type) ∧
        decodeAt schema settings path record tag (schema.default (type.options levels)) =
          .fail error' (schema.default (type.options levels)) ∧
        error.SameKind error' := by
  unfold decodeAt
  rcases Plan.resolve_indirect path record (HostType.natural_default_options hknown levels) hpad
      hignore with
    ⟨plan, hplan, hplan', hnotpad, hnotignore⟩ | ⟨error, error', herror, herror', hkind⟩
  · rw [hplan, hplan']
    refine .inl ?_
    unfold decodeValue
    cases settings.limits.room path with
    | zero => exact decodeWith_options type levels hnotpad hnotignore
    | succ room => exact decodeWith_options type levels hnotpad hnotignore
  · rw [herror, herror']
    exact .inr ⟨error, error', rfl, rfl, hkind⟩

end tag

section runs

variable (path : Path) (record : Option Record) {tag : Tag}

/-- A value and what it is wrapped in leave the encoder in one state. -/
theorem Encoder.encodeAt_wrapped (encoder : Encoder) (wrappers : List Wrapper) (value : Value)
    (hpad : tag.wire ≠ some .pad) (hignore : tag.wire ≠ some .ignore) :
    (encoder.encodeAt path record tag (value.wrapped wrappers)).2 =
        (encoder.encodeAt path record tag value).2 ∧
      SameEnd (encoder.encodeAt path record tag value).1
        (encoder.encodeAt path record tag (value.wrapped wrappers)).1 := by
  unfold Encoder.encodeAt
  rcases PackedRecord.encodeAt_wrapped encoder.settings path record wrappers value hpad hignore with
    hsame | ⟨error, error', h, h', hkind⟩
  · rw [hsame]
    exact ⟨rfl, .refl _⟩
  · rw [h, h']
    exact ⟨rfl, .error hkind⟩

/-- Empty options of a type and the default of the type leave the decoder in one state. -/
theorem Decoder.decodeAt_options (decoder : Decoder) {type : HostType}
    (hknown : type.Known decoder.schema) (levels : Nat) (hpad : tag.wire ≠ some .pad)
    (hignore : tag.wire ≠ some .ignore) :
    let bare := decoder.decodeAt path record tag (decoder.schema.default type)
    let optional := decoder.decodeAt path record tag (decoder.schema.default (type.options levels))
    optional.2 = bare.2 ∧ SameEnd bare.1.outcome optional.1.outcome ∧
      ∀ count, bare.1.outcome = .ok count →
        optional.1.value = type.filled bare.1.value levels := by
  intro bare optional
  unfold bare optional Decoder.decodeAt
  rcases PackedRecord.decodeAt_options decoder.settings path record hknown levels hpad hignore with
    hsame | ⟨error, error', h, h', hkind⟩
  · rw [hsame, Intake.within, Source.supply_bimap]
    generalize decoder.source.supply decoder.boundary _ = run
    obtain ⟨stop | value, source⟩ := run
    · refine ⟨rfl, .refl _, ?_⟩
      intro count hcount
      cases hcount
    · exact ⟨rfl, .refl _, fun _ _ => rfl⟩
  · rw [h, h']
    refine ⟨rfl, .error hkind, ?_⟩
    intro count hcount
    cases hcount

end runs

/-- References are transparent. With any tag that does not make them padding and does not ignore
them, a value and what it is wrapped in leave the encoder in the same state, with the same number of
bytes or errors of the same kind. Empty options of a type leave the decoder in the same state as the
default of the type does, again with the same number of bytes or errors of the same kind, and what
they are filled with is what becomes of that. -/
theorem references_transparent (path : Path) (record : Option Record) {tag : Tag}
    (hpad : tag.wire ≠ some .pad) (hignore : tag.wire ≠ some .ignore) :
    (∀ (encoder : Encoder) (wrappers : List Wrapper) (value : Value),
      let bare := encoder.encodeAt path record tag value
      let wrapped := encoder.encodeAt path record tag (value.wrapped wrappers)
      wrapped.2 = bare.2 ∧ SameEnd bare.1 wrapped.1) ∧
    ∀ (decoder : Decoder) (type : HostType) (levels : Nat), type.Known decoder.schema →
      let bare := decoder.decodeAt path record tag (decoder.schema.default type)
      let optional :=
        decoder.decodeAt path record tag (decoder.schema.default (type.options levels))
      optional.2 = bare.2 ∧ SameEnd bare.1.outcome optional.1.outcome ∧
        ∀ count, bare.1.outcome = .ok count →
          optional.1.value = type.filled bare.1.value levels := by
  constructor
  · intro encoder wrappers value
    exact encoder.encodeAt_wrapped path record wrappers value hpad hignore
  · intro decoder type levels hknown
    exact decoder.decodeAt_options path record hknown levels hpad hignore

/-- A byte behind an option, a pointer and a dynamic reference, and one for which there are two
options, both as 16-bit numbers. -/
theorem references_transparent_byte :
    let tag : Tag := ⟨some .uint16, .absent, none, none⟩
    let encoder : Encoder := ⟨⟨.bigEndian, {}, .empty⟩, .unbounded⟩
    let decoder : Decoder := ⟨[], ⟨.bigEndian, {}, .empty⟩, .ofData [0, 9], 0⟩
    let wrappers : List Wrapper :=
      [.optional (.pointer .owned .dynamic), .pointer .owned, .dynamic]
    tag.wire ≠ some .pad ∧ tag.wire ≠ some .ignore ∧ HostType.byte.Known [] ∧
    (encoder.encodeAt .top none tag ((Value.ofByte 7).wrapped wrappers)).2.sink.held = #[0, 7] ∧
    (decoder.decodeAt .top none tag (Schema.default [] (HostType.byte.options 2))).1.value =
      .optional (.optional .byte) (some (.optional .byte (some (.ofByte 9)))) := by
  intro tag encoder decoder wrappers
  have hpad : tag.wire ≠ some .pad := nofun
  have hignore : tag.wire ≠ some .ignore := nofun
  obtain ⟨hencode, hdecode⟩ := references_transparent .top none hpad hignore
  have hheld : (encoder.encodeAt .top none tag (.ofByte 7)).2.sink.held = #[0, 7] := by cbv
  have hbare : (decoder.decodeAt .top none tag (Schema.default [] .byte)).1 =
      ⟨.ofByte 9, .ok 2⟩ := by cbv
  obtain ⟨-, -, hfilled⟩ := hdecode decoder .byte 2 trivial
  refine ⟨hpad, hignore, trivial, ?_, ?_⟩
  · rw [(hencode encoder wrappers (.ofByte 7)).1]
    exact hheld
  · rw [hfilled 2 (congrArg Decoded.outcome hbare)]
    exact congrArg (HostType.byte.filled ·.value 2) hbare

end PackedRecord
