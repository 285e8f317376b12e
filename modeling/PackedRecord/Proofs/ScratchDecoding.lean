import PackedRecord.Proofs.ScratchArrays

/-!
# Decoding into scratch values

`serves_decodeIn` says that what may be left of a default takes the same bytes as the default
itself, and that what is decoded into it may be left of the default again. For a record,
`FieldsServed` is what the fields decoded so far keep: those that others count with have the same
sizes in both runs.
-/

namespace PackedRecord

/-- A field that is private, ignored or padding is not coded. -/
theorem Layout.codedTag?_eq_none {layout : Layout} {index : Nat} {field : FieldLayout}
    (hfield : layout.fields[index]? = some field)
    (h : ∀ tag, field.exported = true → field.tag = .ok tag →
      tag.wire = some .ignore ∨ tag.wire = some .pad) : layout.codedTag? index = none := by
  rw [codedTag?, hfield, Option.bind_some, FieldLayout.codedTag?]
  cases htag : field.tag with
  | error error => rfl
  | ok tag =>
      refine if_neg ?_
      rintro ⟨hexported, hignore, hpad⟩
      exact (h tag hexported htag).elim hignore hpad

/-- While the fields of a record from `index` on are still to be decoded: `half` are the values when
the decoding began with `values`, and `half'` when it began with what may be left of them. -/
structure FieldsServed (schema : Schema) (layout : Layout) (values half half' : List Value)
    (index : Nat) : Prop where
  length_eq : half.length = values.length
  length_eq' : half'.length = values.length
  /-- The fields that are still to be decoded have their first values. -/
  ahead : ∀ position, index ≤ position → half[position]? = values[position]?
  uncoded : ∀ position, layout.codedTag? position = none →
    half[position]? = values[position]? ∧ half'[position]? = values[position]?
  coded : ∀ (position : Nat) tag value value' path record plan,
    layout.codedTag? position = some tag → values[position]? = some value →
    half'[position]? = some value' → Plan.resolve path value tag (some record) = .ok plan →
    value.Serves schema plan value'
  /-- What was decoded counts the same for the fields to come. -/
  counted : ∀ (position : Nat) value value', position < index → layout.Counts position →
    half[position]? = some value → half'[position]? = some value' → value'.size? = value.size?

section fields

variable {schema : Schema} {settings : Settings} {room : Nat} {path : Path} {layout : Layout}
  {values half half' : List Value} {index : Nat}

namespace FieldsServed

variable (h : FieldsServed schema layout values half half' index)
include h

/-- A field that is not coded is the same in both. -/
theorem eq_of_uncoded {position : Nat} {value value' : Value}
    (huncoded : layout.codedTag? position = none) (hvalue : half[position]? = some value)
    (hvalue' : half'[position]? = some value') : value' = value := by
  obtain ⟨hsame, hsame'⟩ := h.uncoded position huncoded
  exact (Option.some.inj ((hvalue.symm.trans hsame).trans (hsame'.symm.trans hvalue'))).symm

/-- The decoding goes on behind a field that is not coded. -/
theorem pass (huncoded : layout.codedTag? index = none) :
    FieldsServed schema layout values half half' (index + 1) where
  length_eq := h.length_eq
  length_eq' := h.length_eq'
  ahead position hposition := h.ahead position (Nat.le_of_succ_le hposition)
  uncoded := h.uncoded
  coded := h.coded
  counted position value value' hposition hcounts hvalue hvalue' := by
    obtain hbefore | rfl := Nat.lt_succ_iff_lt_or_eq.1 hposition
    · exact h.counted position value value' hbefore hcounts hvalue hvalue'
    · rw [h.eq_of_uncoded huncoded hvalue hvalue']

/-- A field that is coded is decoded. -/
theorem set {tag : Tag} {value decoded decoded' : Value} (htag : layout.codedTag? index = some tag)
    (hvalue : values[index]? = some value)
    (hserves : ∀ path record plan, Plan.resolve path value tag (some record) = .ok plan →
      value.Serves schema plan decoded')
    (hsize : layout.Counts index → decoded'.size? = decoded.size?) :
    FieldsServed schema layout values (half.set index decoded) (half'.set index decoded')
      (index + 1) := by
  obtain ⟨hlength, -⟩ := List.getElem?_eq_some_iff.1 hvalue
  have hinside : index < half.length := h.length_eq ▸ hlength
  have hinside' : index < half'.length := h.length_eq' ▸ hlength
  refine ⟨?_, ?_, ?_, ?_, ?_, ?_⟩
  · rw [List.length_set, h.length_eq]
  · rw [List.length_set, h.length_eq']
  · intro position hposition
    rw [List.getElem?_set_ne (Nat.ne_of_lt hposition)]
    exact h.ahead position (Nat.le_of_succ_le hposition)
  · intro position huncoded
    have hne : index ≠ position := by
      rintro rfl
      rw [htag] at huncoded
      cases huncoded
    rw [List.getElem?_set_ne hne, List.getElem?_set_ne hne]
    exact h.uncoded position huncoded
  · intro position tag' value₁ value₁' path record plan htag' hvalue₁ hvalue₁' hplan
    by_cases hne : index = position
    · subst hne
      cases htag.symm.trans htag'
      cases hvalue.symm.trans hvalue₁
      cases (List.getElem?_set_self hinside').symm.trans hvalue₁'
      exact hserves path record plan hplan
    · rw [List.getElem?_set_ne hne] at hvalue₁'
      exact h.coded position tag' value₁ value₁' path record plan htag' hvalue₁ hvalue₁' hplan
  · intro position value₁ value₁' hposition hcounts hvalue₁ hvalue₁'
    obtain hbefore | rfl := Nat.lt_succ_iff_lt_or_eq.1 hposition
    · rw [List.getElem?_set_ne (Nat.ne_of_gt hbefore)] at hvalue₁ hvalue₁'
      exact h.counted position value₁ value₁' hbefore hcounts hvalue₁ hvalue₁'
    · cases (List.getElem?_set_self hinside).symm.trans hvalue₁
      cases (List.getElem?_set_self hinside').symm.trans hvalue₁'
      exact hsize hcounts

/-- The sizes of a field that is to be decoded next are the same. -/
theorem sameSizes {name : String} {declared : List FieldDescriptor} {field : FieldLayout}
    {tag : Tag} (hbuilt : layout = .build name declared)
    (hfield : layout.fields[index]? = some field) (hexported : field.exported = true)
    (htag : field.tag = .ok tag) (hignore : tag.wire ≠ some .ignore) :
    Plan.SameSizes tag (some ⟨layout, half⟩) (some ⟨layout, half'⟩) := by
  refine Plan.sameSizes_of_getElem? (by rw [h.length_eq, h.length_eq']) ?_
  intro target value value' hnames hvalue hvalue'
  rw [hbuilt] at hfield
  obtain hbefore | ⟨named, hnamed, hprivate⟩ :=
    Layout.available_of_names hfield hexported htag hnames
  · rw [← hbuilt] at hfield
    have hvisited := Layout.visitedTag?_eq_some hfield hexported htag hignore
    exact h.counted target value value' hbefore ⟨index, tag, hvisited, hnames⟩ hvalue hvalue'
  · rw [← hbuilt] at hnamed
    have huncoded := Layout.codedTag?_eq_none hnamed fun _ hpublic => by
      rw [hprivate] at hpublic
      cases hpublic
    rw [h.eq_of_uncoded huncoded hvalue hvalue']

end FieldsServed

/-- Replacing an item by itself changes nothing. -/
theorem set_of_getElem? {values : List Value} {value : Value} (h : values[index]? = some value) :
    values.set index value = values := by
  obtain ⟨hinside, rfl⟩ := List.getElem?_eq_some_iff.1 h
  exact List.set_getElem_self hinside

/-- Padding leaves the destination as it is. -/
theorem eq_of_accepts_padding {decode : ChildDecoder} {plan : Plan} {value result : Value}
    {bytes : Bytes} (hchild : decodeBelow schema settings room = some decode)
    (hpad : plan.wire = .pad) (h : (decode path value plan).Accepts bytes result) :
    result = value := by
  cases room with
  | zero => cases hchild
  | succ room =>
      cases hchild
      rw [decodeIn_eq, decodeWith, hpad] at h
      obtain ⟨_, _, _, -, -, -, rfl⟩ := Intake.accepts_bind.1 h
      rfl

/-- A fixed number of slots comes from an expression in the brackets of the tag. -/
theorem arrayLength_of_resolve {path : Path} {value : Value} {tag : Tag} {record : Option Record}
    {plan : Plan} {slots : Nat} (h : Plan.resolve path value tag record = .ok plan)
    (hslots : plan.arrayLength = some slots) :
    ∃ expr, tag.brackets = .length expr ∧ expr.eval record = .ok (slots : Int) := by
  obtain ⟨-, harray, -⟩ := Plan.parts_of_resolve h
  cases hbrackets : tag.brackets with
  | absent | blank =>
      rw [hbrackets] at harray
      cases hslots.symm.trans (congrArg Prod.snd (Except.ok.inj harray)).symm
  | length expr =>
      obtain ⟨-, length, hlength, heval⟩ := Plan.eval_of_resolve_length h hbrackets
      cases hslots.symm.trans hlength
      exact ⟨expr, rfl, heval⟩

/-- The value that a field was decoded to may be left of its first value again, and counts the same,
since an array that counts has an element. -/
theorem FieldsServed.set_of_refilled (h : FieldsServed schema layout values half half' index)
    (hcounts : layout.FillsCounts) {tag : Tag} {value decoded decoded' : Value} {plan : Plan}
    (hcoded : layout.codedTag? index = some tag) (hvalue : values[index]? = some value)
    (hplan : Plan.resolve path value tag (some ⟨layout, half⟩) = .ok plan)
    (hrefilled : value.Refilled schema plan decoded decoded') :
    FieldsServed schema layout values (half.set index decoded) (half'.set index decoded')
      (index + 1) := by
  refine h.set hcoded hvalue (fun _ _ plan' hplan' => ?_) fun hcounted => ?_
  · exact hrefilled.serves.congr (Plan.sameShape_of_resolve hplan hplan')
  · refine hrefilled.size_eq fun hzero => ?_
    obtain ⟨expr, hbrackets, heval⟩ := arrayLength_of_resolve hplan hzero
    exact hcounts index tag expr half hcounted hcoded hbrackets heval

/-- A field takes the same bytes in both runs, and they agree behind it again. -/
theorem tracks_decodeField (hbelow : ServesBelow schema settings room) {name : String}
    {declared : List FieldDescriptor} (hbuilt : layout = .build name declared)
    (hcounts : layout.FillsCounts) {field : FieldLayout}
    (hfield : layout.fields[index]? = some field)
    (h : FieldsServed schema layout values half half' index) :
    Intake.Tracks
      (fun result result' => FieldsServed schema layout values result result' (index + 1))
      (decodeField (decodeBelow schema settings room) path ⟨layout, half⟩ index field)
      (decodeField (decodeBelow schema settings room) path ⟨layout, half'⟩ index field) := by
  intro bytes result haccepts
  obtain ⟨hprivate, rfl, rfl⟩ | ⟨decode, tag, hchild, hexported, htag, hvalue⟩ :=
    accepts_decodeField_iff.1 haccepts
  · refine ⟨half', accepts_decodeField_iff.2 (.inl ⟨hprivate, rfl, rfl⟩), h.pass ?_⟩
    refine Layout.codedTag?_eq_none hfield fun _ hexported => ?_
    rw [hprivate] at hexported
    cases hexported
  obtain ⟨hignore, rfl, rfl⟩ | ⟨hignore, value, plan, decoded, hvalue, hplan, hdecoded, rfl⟩ :=
    hvalue
  · refine ⟨half', accepts_decodeField_iff.2 (.inr ⟨decode, tag, hchild, hexported, htag,
      .inl ⟨hignore, rfl, rfl⟩⟩), h.pass ?_⟩
    refine Layout.codedTag?_eq_none hfield fun tag' _ htag' => ?_
    cases htag.symm.trans htag'
    exact .inl hignore
  -- The sizes in the tag are those of the first run.
  obtain ⟨hinside, -⟩ := List.getElem?_eq_some_iff.1 hvalue
  have hinside' : index < half'.length := by rwa [h.length_eq', ← h.length_eq]
  have hfresh : values[index]? = some value := by rw [← h.ahead index (Nat.le_refl _), hvalue]
  have hvalue' := List.getElem?_eq_getElem hinside'
  generalize half'[index] = value' at hvalue'
  have hsizes := h.sameSizes hbuilt hfield hexported htag hignore
  have hplan' : Plan.resolve (.field field.name :: path) value tag (some ⟨layout, half'⟩) =
      .ok plan := (Plan.resolve_of_alike (.refl value) hsizes).trans hplan
  have hstep {decoded' : Value} (hplan : Plan.resolve (.field field.name :: path) value' tag
        (some ⟨layout, half'⟩) = .ok plan)
      (haccepts : (decode (.field field.name :: path) value' plan).Accepts bytes decoded') :
      (decodeField (decodeBelow schema settings room) path ⟨layout, half'⟩ index field).Accepts
        bytes (half'.set index decoded') :=
    accepts_decodeField hchild hexported htag hignore hvalue' hplan haccepts
  obtain ⟨hpad_iff, hignore_iff⟩ := Plan.skipped_iff_of_resolve hplan
  by_cases hpad : tag.wire = some .pad
  · have huncoded := Layout.codedTag?_eq_none hfield fun tag' _ htag' => by
      cases htag.symm.trans htag'
      exact .inr hpad
    cases h.eq_of_uncoded huncoded hvalue hvalue'
    have hsame := h.pass huncoded
    have hleft := eq_of_accepts_padding hchild (hpad_iff.2 hpad) hdecoded
    refine ⟨_, hstep hplan' hdecoded, ?_⟩
    rwa [hleft, set_of_getElem? hvalue, set_of_getElem? hvalue']
  · have hcoded : layout.codedTag? index = some tag := Layout.codedTag?_eq_some.2
      ⟨Layout.visitedTag?_eq_some hfield hexported htag hignore, hpad⟩
    have hserves := h.coded index tag value value' _ _ plan hcoded hfresh hvalue' hplan
    have hindirection := (Plan.parts_of_resolve hplan).2.2.2.1
    obtain ⟨decoded', hdecoded', hrefilled⟩ := hbelow decode hchild (mt hpad_iff.1 hpad)
      (mt hignore_iff.1 hignore) hindirection hserves bytes decoded hdecoded
    refine ⟨_, hstep (Plan.resolve_of_natural hserves.natural_eq hplan') hdecoded', ?_⟩
    exact h.set_of_refilled hcounts hcoded hfresh hplan hrefilled

/-- The fields from any of them on take the same bytes in both runs. -/
theorem tracks_decodeFields (hbelow : ServesBelow schema settings room) {name : String}
    {declared : List FieldDescriptor} (hbuilt : layout = .build name declared)
    (hcounts : layout.FillsCounts) {rest : List FieldLayout}
    (hrest : layout.fields.drop index = rest)
    (h : FieldsServed schema layout values half half' index) :
    Intake.Tracks (fun result result' => FieldsServed schema layout values result result'
        (index + rest.length))
      (decodeFields (decodeBelow schema settings room) path layout index rest half)
      (decodeFields (decodeBelow schema settings room) path layout index rest half') := by
  induction rest generalizing index half half' with
  | nil => exact Intake.tracks_done h
  | cons field rest ih =>
      obtain ⟨hfield, hdrop⟩ := Layout.fields_of_drop hrest
      refine (tracks_decodeField hbelow hbuilt hcounts hfield h).bind ?_
      intro _ result result' _ hresult
      rw [List.length_cons, Nat.add_comm rest.length, ← Nat.add_assoc]
      exact ih hdrop hresult

end fields

section step

variable {schema : Schema} {settings : Settings} {room : Nat} {path : Path} {plan : Plan}
  {value value' : Value}

/-- A value without an array takes the same bytes as its default, if the values below do. -/
theorem tracks_decodeLeaf (hbelow : ServesBelow schema settings room)
    (hserves : value.Serves schema plan value') :
    Intake.Tracks (Value.Refilled schema plan value)
      (decodeLeaf settings (decodeBelow schema settings room) path value plan)
      (decodeLeaf settings (decodeBelow schema settings room) path value' plan) := by
  have htarget := hserves.target
  unfold decodeLeaf
  rw [hserves.isReadOnly_eq]
  split
  · exact Intake.tracks_fail _ _ _
  generalize hcontent : value.target = content, hcontent' : value'.target = content' at htarget
  cases htarget with
  | @scalar _ content content' htype =>
      simp only [htype]
      split
      · refine (Intake.tracks_same _).bimap_id.bind ?_
        rintro _ decoded _ hleaving rfl
        obtain ⟨_, hdecoded, rfl⟩ := Intake.accepts_bimap.1 hleaving
        refine Intake.tracks_done ⟨hserves.withTarget ?_, fun _ => ?_⟩
        · rw [hcontent]
          exact .scalar (accepts_decodeScalar_type hdecoded).2
        · rw [size?_withTarget, size?_withTarget]
      · exact Intake.tracks_fail _ _ _
  | text hempty =>
      simp only
      split
      next htext => exact tracks_putText hserves hcontent (tracks_decodeText htext hempty)
      next => exact Intake.tracks_fail _ _ _
  | @record _ name declared layout values values' hbuilt hcounts hlength huncoded hcoded =>
      simp only
      split
      · have hstart : FieldsServed schema layout values values values' 0 :=
          ⟨rfl, hlength, fun _ _ => rfl, fun position h => ⟨rfl, huncoded position h⟩, hcoded,
            nofun⟩
        refine (tracks_decodeFields hbelow hbuilt hcounts rfl hstart).bimap ?_
        intro _ _ hserved
        refine ⟨hserves.withTarget ?_, fun _ => ?_⟩
        · rw [hcontent]
          exact .record hbuilt hcounts hserved.length_eq' (fun position h =>
            (hserved.uncoded position h).2) hserved.coded
        · rw [size?_withTarget, size?_withTarget]
          rfl
      · exact Intake.tracks_fail _ _ _
  | @inert _ content h =>
      cases content with
      | scalar | text | record => exact h.elim
      | _ => exact Intake.tracks_fail _ _ _
  | vector | array | empty | filled | pointer => exact Intake.tracks_fail _ _ _

/-- Behind references, what may be left of a default takes the same bytes if its target does. -/
theorem tracks_decodeBehind {decode : Value → Intake Value Value}
    (hdecode : ∀ {value value' : Value}, value.natural.indirection = 0 →
      value.Serves schema plan value' →
      Intake.Tracks (Value.Refilled schema plan value) (decode value) (decode value'))
    (levels : Nat)
    (hlevels : value.natural.indirection = levels) (hserves : value.Serves schema plan value') :
    Intake.Tracks (Value.Refilled schema plan value) (decodeBehind schema path decode levels value)
      (decodeBehind schema path decode levels value') := by
  induction levels generalizing value value' with
  | zero => exact hdecode hlevels hserves
  | succ levels ih =>
      have htarget := hserves.target
      have hcontent (type : HostType) : value.target = .optional type none →
          (schema.default type).natural.indirection = levels := by
        intro hempty
        have hleads := (Value.leads_of_optional schema hempty).indirection_eq
        rw [hlevels, Option.getD_none] at hleads
        omega
      unfold decodeBehind
      simp only
      rw [hserves.isReadOnly_eq]
      split
      · exact Intake.tracks_fail _ _ _
      have hfilled {type : HostType} {content : Value} (hempty : value.target = .optional type none)
          (hsteady : type.Steady schema)
          (hserves' : (schema.default type).Serves schema plan content) :
          Intake.Tracks (Value.Refilled schema plan value)
            ((decodeBehind schema path decode levels (schema.default type)).within
              fun filled => value.withTarget (.optional type (some filled)))
            ((decodeBehind schema path decode levels content).within
              fun filled => value'.withTarget (.optional type (some filled))) := by
        refine (ih (hcontent type hempty) hserves').bimap fun result result' hrefilled => ?_
        refine ⟨hserves.withTarget ?_, fun _ => ?_⟩
        · rw [hempty]
          exact .filled hsteady hrefilled.serves
        · rw [size?_withTarget, size?_withTarget]
          rfl
      generalize htarget₁ : value.target = target, htarget₂ : value'.target = target' at htarget
      cases htarget with
      | empty hsteady => exact hfilled htarget₁ hsteady (schema.serves_default hsteady plan)
      | filled hsteady hserves' => exact hfilled htarget₁ hsteady hserves'
      | @inert _ target h =>
          cases target with
          | dynamic content =>
              cases content with
              | none => exact Intake.tracks_fail _ _ _
              | some content => exact h.elim
          | optional => exact h.elim
          | _ => exact Intake.tracks_fail _ _ _
      | scalar | text | vector | array | pointer | record => exact Intake.tracks_fail _ _ _

/-- What may be left of a default takes the same bytes, if the values below do. -/
theorem tracks_decodeWith (hbelow : ServesBelow schema settings room) (hpad : plan.wire ≠ .pad)
    (hignore : plan.wire ≠ .ignore) (hindirection : plan.indirection = value.natural.indirection)
    (hserves : value.Serves schema plan value') :
    Intake.Tracks (Value.Refilled schema plan value)
      (decodeWith schema settings (decodeBelow schema settings room) path value plan)
      (decodeWith schema settings (decodeBelow schema settings room) path value' plan) := by
  rw [decodeWith_coded hpad hignore, decodeWith_coded hpad hignore]
  refine tracks_decodeBehind ?_ plan.indirection hindirection.symm hserves
  intro content content' hdirect hcontent
  split
  · exact tracks_decodeArray hbelow hpad hignore hdirect hcontent
  · exact tracks_decodeLeaf hbelow hcontent

/-- However much room there is, what may be left of a default takes the same bytes as the
default. -/
theorem servesBelow (schema : Schema) (settings : Settings) (room : Nat) :
    ServesBelow schema settings room := by
  induction room with
  | zero => exact nofun
  | succ room ih =>
      rintro _ ⟨⟩ path plan value value' hpad hignore hindirection hserves
      rw [decodeIn_eq]
      exact tracks_decodeWith ih hpad hignore hindirection hserves

/-- What may be left of a value takes the same bytes as the value itself, and what is decoded into
it may be left of the value again. -/
theorem serves_decodeIn {path : Path} {bytes : Bytes} {result : Value} (hpad : plan.wire ≠ .pad)
    (hignore : plan.wire ≠ .ignore) (hindirection : plan.indirection = value.natural.indirection)
    (hserves : value.Serves schema plan value')
    (h : (decodeIn schema settings room path value plan).Accepts bytes result) :
    ∃ result', (decodeIn schema settings room path value' plan).Accepts bytes result' ∧
      value.Serves schema plan result' := by
  obtain ⟨result', haccepts, hrefilled⟩ := servesBelow schema settings (room + 1) _ rfl hpad hignore
    hindirection hserves bytes result h
  exact ⟨result', haccepts, hrefilled.serves⟩

end step

end PackedRecord
