import PackedRecord.Proofs.ArrayRoundTrip

/-!
# Records that come back

The decoder meets a record of which the fields in front are those of the encoded record, and the
other ones are still those of the destination. The fields that the tag of a field names are the
right ones by then, so that the decoder finds the plans of the encoder.
-/

namespace PackedRecord

open Value

section plans

variable {path : Path} {plan : Plan} {type : HostType}

/-- The plan for a field whose tag says how it is coded is that of a coded value. -/
theorem Plan.suits_of_resolve {tag : Tag} {value : Value} {record : Option Record}
    (hpad : tag.wire ≠ some .pad) (hignore : tag.wire ≠ some .ignore)
    (hnatural : value.natural.unsized = type.natural.unsized)
    (h : Plan.resolve path value tag record = .ok plan) : plan.Suits type := by
  obtain ⟨wire, hwire, h⟩ := ok_of_bind h
  obtain ⟨⟨isArray, arrayLength⟩, -, h⟩ := ok_of_bind h
  obtain ⟨bufferLength, -, h⟩ := ok_of_bind h
  cases h
  obtain ⟨hsame, -, hindirection⟩ := Natural.unsized_inj.1 hnatural
  have hcoded : wire ≠ .pad ∧ wire ≠ .ignore := by
    have hne := type.natural_wire_ne
    unfold Plan.resolveWire at hwire
    rw [hsame] at hwire
    split at hwire <;> simp_all
  exact ⟨hindirection, hcoded.1, hcoded.2⟩

/-- A padding field is padding. -/
theorem Plan.wire_of_resolve_pad {tag : Tag} {value : Value} {record : Option Record}
    (hpad : tag.wire = some .pad) (h : Plan.resolve path value tag record = .ok plan) :
    plan.wire = .pad := by
  obtain ⟨wire, hwire, h⟩ := ok_of_bind h
  obtain ⟨⟨isArray, arrayLength⟩, -, h⟩ := ok_of_bind h
  obtain ⟨bufferLength, -, h⟩ := ok_of_bind h
  cases h
  rw [hpad] at hwire
  cases hwire
  rfl

end plans

section record

variable {fields current : List Value} {index : Nat}

/-- The fields of a record of which those in front of `index` are decoded. -/
def halfway (fields current : List Value) (index : Nat) : List Value :=
  fields.take index ++ current.drop index

/-- Halfway through a record, the fields in front are decoded and the other ones are as
they were. -/
theorem getElem?_halfway (hcount : fields.length = current.length) (position : Nat) :
    (halfway fields current index)[position]? =
      if position < index then fields[position]? else current[position]? := by
  rw [halfway, List.getElem?_append, List.length_take]
  split
  next hfront =>
    have hbefore : position < index := by omega
    rw [if_pos hbefore, List.getElem?_take_of_lt hbefore]
  next hback =>
    rw [List.getElem?_drop]
    split
    next hbefore =>
      rw [List.getElem?_eq_none (by omega), List.getElem?_eq_none (by omega)]
    next hbehind =>
      rcases Nat.lt_or_ge index fields.length with hinside | houtside
      · congr 1
        omega
      · rw [List.getElem?_eq_none (by omega), List.getElem?_eq_none (by omega)]

/-- A field that is the same in the destination needs no decoding. -/
theorem halfway_succ_of_eq (hcount : fields.length = current.length)
    (h : current[index]? = fields[index]?) :
    halfway fields current (index + 1) = halfway fields current index := by
  apply List.ext_getElem?
  intro position
  rw [getElem?_halfway hcount, getElem?_halfway hcount]
  by_cases hhere : position = index
  · rw [hhere, if_pos (Nat.lt_succ_self _), if_neg (Nat.lt_irrefl _), h]
  · have hsame : position < index + 1 ↔ position < index := by omega
    simp only [hsame]

/-- A decoded field is put in its place. -/
theorem set_halfway (hcount : fields.length = current.length) {value : Value}
    (hvalue : fields[index]? = some value) :
    (halfway fields current index).set index value = halfway fields current (index + 1) := by
  apply List.ext_getElem?
  intro position
  obtain ⟨hinside, -⟩ := List.getElem?_eq_some_iff.1 hvalue
  rw [List.getElem?_set, getElem?_halfway hcount, getElem?_halfway hcount]
  by_cases hhere : index = position
  · have hlength : index < (halfway fields current index).length := by
      rw [halfway, List.length_append, List.length_take, List.length_drop]
      omega
    rw [if_pos hhere, if_pos hlength, ← hhere, if_pos (Nat.lt_succ_self _), hvalue]
  · have hsame : position < index + 1 ↔ position < index := by omega
    rw [if_neg hhere]
    simp only [hsame]

/-- A record is decoded when no field is left that differs. -/
theorem halfway_eq_of_rest (hcount : fields.length = current.length)
    (h : ∀ position, index ≤ position → current[position]? = fields[position]?) :
    halfway fields current index = fields := by
  apply List.ext_getElem?
  intro position
  rw [getElem?_halfway hcount]
  split
  · rfl
  · exact h position (by omega)

end record

section step

variable {schema : Schema} {settings : Settings} {encode : Option ChildEncoder}
  {decode : Option ChildDecoder} {path : Path} {bytes : Bytes} {layout : Layout}
  {fields current : List Value}

/-- The fields that the tag of a coded field names are in the destination when they are needed. -/
theorem halfway_of_names {name : String} {declared : List FieldDescriptor} {index target : Nat}
    {field : FieldLayout} {tag : Tag} (hbuilt : layout = .build name declared)
    (hcount : fields.length = current.length)
    (hrest : ∀ index, layout.codedTag? index = none → current[index]? = fields[index]?)
    (hfield : layout.fields[index]? = some field) (hexported : field.exported = true)
    (htag : field.tag = .ok tag) (hnames : tag.Names target) :
    (halfway fields current index)[target]? = fields[target]? := by
  subst hbuilt
  rw [getElem?_halfway hcount]
  split
  · rfl
  next hbehind =>
    -- A tag names a field in front of its own, which is decoded, or a private one, which agrees.
    rcases Layout.available_of_names hfield hexported htag hnames with hbefore | hprivate
    · exact absurd hbefore hbehind
    · obtain ⟨named, hnamed, hprivate⟩ := hprivate
      apply hrest
      rw [Layout.codedTag?, hnamed, Option.bind_some, FieldLayout.codedTag?]
      split
      · rfl
      · rw [if_neg (fun hcoded => by rw [hprivate] at hcoded; cases hcoded.1)]

variable {name : String} {declared : List FieldDescriptor} {types : List HostType}
  (hchild : Option.Rel (Restores schema settings.limits) encode decode)
  (hbuilt : layout = .build name declared) (htypes : fields.length = types.length)
  (hcount : fields.length = current.length)
  (hportable : ∀ (index : Nat) tag value fieldType path fieldPlan,
    layout.codedTag? index = some tag → fields[index]? = some value →
    types[index]? = some fieldType →
    Plan.resolve path value tag (some ⟨layout, fields⟩) = .ok fieldPlan →
    Portable schema settings.limits fieldType fieldPlan value)
  (hrest : ∀ index : Nat, layout.codedTag? index = none → current[index]? = fields[index]?)
  (hagrees : ∀ (index : Nat) tag value place path fieldPlan,
    layout.codedTag? index = some tag → fields[index]? = some value →
    current[index]? = some place →
    Plan.resolve path value tag (some ⟨layout, fields⟩) = .ok fieldPlan →
    Agrees schema fieldPlan value place)

include hchild hbuilt htypes hcount hportable hrest hagrees

/-- A field comes back, or stays if it is not coded. -/
theorem accepts_decodeField_of_yields {index : Nat} {field : FieldLayout}
    (hfield : layout.fields[index]? = some field)
    (h : (encodeField encode path ⟨layout, fields⟩ index field).Yields bytes ()) :
    (decodeField decode path ⟨layout, halfway fields current index⟩ index field).Accepts bytes
      (halfway fields current (index + 1)) := by
  have hcodedTag : layout.codedTag? index = field.codedTag? := by
    rw [Layout.codedTag?, hfield, Option.bind_some]
  rcases yields_encodeField h with ⟨hprivate, rfl⟩ | ⟨encodeValue, tag, rfl, hexported, htag, h⟩
  · have huncoded : layout.codedTag? index = none := by
      rw [hcodedTag, FieldLayout.codedTag?]
      split
      · rfl
      · rw [if_neg (fun hcoded => by rw [hprivate] at hcoded; cases hcoded.1)]
    rw [halfway_succ_of_eq hcount (hrest index huncoded)]
    exact accepts_decodeField_private hprivate
  cases hchild with
  | @some _ decodeValue hrestores =>
      have huncoded (h : tag.wire = some .ignore ∨ tag.wire = some .pad) :
          layout.codedTag? index = none := by
        rw [hcodedTag, FieldLayout.codedTag?, htag]
        refine if_neg (fun hcoded => ?_)
        rcases h with h | h
        · exact hcoded.2.1 h
        · exact hcoded.2.2 h
      rcases h with ⟨hignore, rfl⟩ | ⟨hignore, value, plan, hvalue, hplan, hencode⟩
      · rw [halfway_succ_of_eq hcount (hrest index (huncoded (.inl hignore)))]
        exact accepts_decodeField_ignored rfl htag hignore
      have hnamed (target : Nat) (hnames : tag.Names target) :
          (halfway fields current index)[target]? = fields[target]? :=
        halfway_of_names hbuilt hcount hrest hfield hexported htag hnames
      rw [← set_halfway hcount hvalue]
      -- Padding is passed over with the length that the value in the destination gives it.
      by_cases hpad : tag.wire = some .pad
      · have hplace : (halfway fields current index)[index]? = some value := by
          rw [getElem?_halfway hcount, if_neg (Nat.lt_irrefl _),
            hrest index (huncoded (.inr hpad)), hvalue]
        exact accepts_decodeField rfl hexported htag hignore hplace
          (Plan.resolve_congr rfl hnamed hplan)
          (hrestores.accepts_pad (Plan.wire_of_resolve_pad hpad hplan) hencode)
      · have hcoded : layout.codedTag? index = some tag := by
          rw [hcodedTag, FieldLayout.codedTag?, htag]
          exact if_pos ⟨hexported, hignore, hpad⟩
        obtain ⟨hinside, -⟩ := List.getElem?_eq_some_iff.1 hvalue
        obtain ⟨place, hplace⟩ : ∃ place, current[index]? = some place :=
          ⟨_, List.getElem?_eq_getElem (hcount ▸ hinside)⟩
        obtain ⟨fieldType, htype⟩ : ∃ fieldType, types[index]? = some fieldType :=
          ⟨_, List.getElem?_eq_getElem (htypes ▸ hinside)⟩
        have hitem := hportable index tag value fieldType _ plan hcoded hvalue htype hplan
        have hmatch := hagrees index tag value place _ plan hcoded hvalue hplace hplan
        have hnatural := (hmatch.natural_eq hitem).trans hitem.natural_eq.symm
        have hhalf : (halfway fields current index)[index]? = some place := by
          rw [getElem?_halfway hcount, if_neg (Nat.lt_irrefl _), hplace]
        exact accepts_decodeField rfl hexported htag hignore hhalf
          (Plan.resolve_congr hnatural hnamed hplan)
          (hrestores.accepts hitem hmatch
            (Plan.suits_of_resolve hpad hignore hitem.natural_eq hplan) hencode)

/-- The fields of a record from `index` on come back. -/
theorem accepts_decodeFields_of_yields {index : Nat} {rest : List FieldLayout}
    (hdrop : layout.fields.drop index = rest)
    (h : (encodeFields encode path ⟨layout, fields⟩ index rest).Yields bytes ()) :
    (decodeFields decode path layout index rest (halfway fields current index)).Accepts bytes
      fields := by
  induction rest generalizing index bytes with
  | nil =>
      rw [encodeFields, Emission.pure_eq, Emission.yields_ofExcept] at h
      have hend : halfway fields current index = fields := by
        refine halfway_eq_of_rest hcount (fun position hposition => hrest position ?_)
        have hlength : layout.fields.length ≤ index := List.drop_eq_nil_iff.1 hdrop
        rw [Layout.codedTag?, List.getElem?_eq_none (Nat.le_trans hlength hposition),
          Option.bind_none]
      rw [hend]
      exact ⟨h.1, rfl⟩
  | cons field rest ih =>
      obtain ⟨front, back, hfirst, hothers, rfl⟩ := yields_encodeFields_cons.1 h
      obtain ⟨hfield, hnext⟩ := Layout.fields_of_drop hdrop
      exact accepts_decodeFields_cons
        (accepts_decodeField_of_yields hchild hbuilt htypes hcount hportable hrest hagrees hfield
          hfirst)
        (ih hnext hothers)

end step

end PackedRecord
