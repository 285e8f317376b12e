import PackedRecord.Proofs.Contracts
import PackedRecord.Proofs.RecordRoundTrip
import PackedRecord.Proofs.Vectors

/-!
# Sizes that stay what they were

A size expression is evaluated while its record is only half decoded. `decodeFields_sizes` says that
this does not show: on the decoded record, every size expression has the value that was used. What
an expression names is decoded by then or never will be, and the decoding of a field changes that
field only.
-/

namespace PackedRecord

variable {path : Path} {bytes : Bytes}

section fields

variable {child : Option ChildDecoder} {layout : Layout} {index : Nat} {field : FieldLayout}

/-- A field that is decoded is private or ignored and stays as it is, or its value is decoded by the
plan that its tag gives on the record so far, and put in its place. -/
theorem accepts_decodeField_iff {record : Record} {values : List Value} :
    (decodeField child path record index field).Accepts bytes values ↔
      (field.exported = false ∧ bytes = [] ∧ record.fields = values) ∨
      ∃ decode tag, child = some decode ∧ field.exported = true ∧ field.tag = .ok tag ∧
        ((tag.wire = some .ignore ∧ bytes = [] ∧ record.fields = values) ∨
          tag.wire ≠ some .ignore ∧ ∃ value plan decoded, record.fields[index]? = some value ∧
            Plan.resolve (.field field.name :: path) value tag (some record) = .ok plan ∧
            (decode (.field field.name :: path) value plan).Accepts bytes decoded ∧
            record.fields.set index decoded = values) := by
  unfold decodeField
  cases hexported : field.exported with
  | false => simp
  | true =>
      cases hchild : child with
      | none => simp
      | some decode =>
          cases htag : field.tag with
          | error error => simp
          | ok tag =>
              by_cases hignore : tag.wire = some .ignore
              · simp [hignore]
              · cases hvalue : record.fields[index]? with
                | none => simp [Record.field, hignore, hvalue]
                | some value =>
                    cases hplan :
                      Plan.resolve (.field field.name :: path) value tag (some record) with
                    | error error => simp [Record.field, hignore, hvalue, hplan]
                    | ok plan =>
                        simp [Record.field, hignore, hvalue, hplan, Intake.within,
                          Intake.accepts_bimap]

/-- Fields in two parts accept the bytes of the parts, one after the other. -/
theorem accepts_decodeFields_append {first second : List FieldLayout} {values result : List Value} :
    (decodeFields child path layout index (first ++ second) values).Accepts bytes result ↔
      ∃ front half back, bytes = front ++ back ∧
        (decodeFields child path layout index first values).Accepts front half ∧
        (decodeFields child path layout (index + first.length) second half).Accepts back
          result := by
  induction first generalizing index values bytes with
  | nil =>
      constructor
      · intro h
        exact ⟨[], values, bytes, rfl, ⟨rfl, rfl⟩, h⟩
      · rintro ⟨_, _, back, rfl, ⟨rfl, rfl⟩, h⟩
        exact h
  | cons field first ih =>
      have hindex : index + (first.length + 1) = index + 1 + first.length := by omega
      simp only [List.cons_append, decodeFields, Intake.accepts_bind, ih, List.length_cons, hindex]
      constructor
      · rintro ⟨front, values', _, rfl, hfield, middle, half, back, rfl, hfirst, hsecond⟩
        exact ⟨front ++ middle, half, back, by rw [List.append_assoc],
          ⟨front, values', middle, rfl, hfield, hfirst⟩, hsecond⟩
      · rintro ⟨_, half, back, rfl, ⟨front, values', middle, rfl, hfield, hfirst⟩, hsecond⟩
        exact ⟨front, values', middle ++ back, by rw [List.append_assoc], hfield, middle, half,
          back, rfl, hfirst, hsecond⟩

/-- The decoding of a field changes that field only, and only if it is exported. -/
theorem getElem?_of_accepts_decodeField {record : Record} {values : List Value} {position : Nat}
    (h : (decodeField child path record index field).Accepts bytes values)
    (hframe : position ≠ index ∨ field.exported = false) :
    values[position]? = record.fields[position]? := by
  rcases accepts_decodeField_iff.1 h with
    ⟨-, -, rfl⟩ |
      ⟨decode, tag, -, hexported, -, ⟨-, -, rfl⟩ | ⟨-, value, plan, decoded, -, -, -, rfl⟩⟩
  · rfl
  · rfl
  · rcases hframe with hother | hprivate
    · exact List.getElem?_set_ne (Ne.symm hother)
    · rw [hexported] at hprivate
      cases hprivate

/-- The decoding of some of the fields changes neither the fields around them nor private ones. -/
theorem getElem?_of_accepts_decodeFields {fields : List FieldLayout} {values result : List Value}
    {position : Nat} (hstart : fields <+: layout.fields.drop index)
    (h : (decodeFields child path layout index fields values).Accepts bytes result)
    (hframe : position < index ∨ index + fields.length ≤ position ∨
      ∃ named, layout.fields[position]? = some named ∧ named.exported = false) :
    result[position]? = values[position]? := by
  induction fields generalizing index values bytes with
  | nil =>
      obtain ⟨-, rfl⟩ := h
      rfl
  | cons field fields ih =>
      obtain ⟨others, hdrop⟩ := hstart
      obtain ⟨hfield, hrest⟩ := Layout.fields_of_drop hdrop.symm
      rw [decodeFields, Intake.accepts_bind] at h
      obtain ⟨front, half, back, -, hfirst, hothers⟩ := h
      rw [List.length_cons] at hframe
      rw [ih ⟨others, hrest.symm⟩ hothers (by rcases hframe with h | h | h <;> simp [h] <;> omega)]
      refine getElem?_of_accepts_decodeField hfirst ?_
      rcases hframe with hbefore | hbehind | ⟨named, hnamed, hprivate⟩
      · exact .inl (Nat.ne_of_lt hbefore)
      · exact .inl (by omega)
      · by_cases hhere : position = index
        · subst hhere
          cases hfield.symm.trans hnamed
          exact .inr hprivate
        · exact .inl hhere

end fields

section plans

variable {plan : Plan} {value : Value} {tag : Tag} {record : Option Record}

/-- The parts of a plan are resolved one by one. -/
theorem Plan.parts_of_resolve (h : Plan.resolve path value tag record = .ok plan) :
    Plan.resolveWire path value tag.wire = .ok plan.wire ∧
    Plan.resolveArray path value tag.brackets record = .ok (plan.isArray, plan.arrayLength) ∧
    Plan.resolveBuffer path tag.bufferLength record = .ok plan.bufferLength ∧
    plan.indirection = value.natural.indirection ∧ plan.encoding = tag.encoding := by
  obtain ⟨wire, hwire, h⟩ := ok_of_bind h
  obtain ⟨⟨isArray, arrayLength⟩, harray, h⟩ := ok_of_bind h
  obtain ⟨bufferLength, hbuffer, h⟩ := ok_of_bind h
  cases h
  exact ⟨hwire, harray, hbuffer, rfl, rfl⟩

/-- A size is the value of its expression. -/
theorem Plan.eval_of_evalSize {expr : SizeExpr} {size : Nat}
    (h : Plan.evalSize path expr record = .ok size) : expr.eval record = .ok (size : Int) := by
  unfold Plan.evalSize at h
  split at h
  · cases h
  next number hnumber =>
    split at h
    · cases h
    · cases h
      rw [hnumber, Int.toNat_of_nonneg (by omega)]

/-- An array length that a tag gives is the value of its expression. -/
theorem Plan.eval_of_resolve_length {expr : SizeExpr}
    (h : Plan.resolve path value tag record = .ok plan) (hlength : tag.brackets = .length expr) :
    plan.isArray = true ∧
      ∃ length : Nat, plan.arrayLength = some length ∧ expr.eval record = .ok (length : Int) := by
  obtain ⟨-, harray, -⟩ := Plan.parts_of_resolve h
  rw [hlength, Plan.resolveArray] at harray
  cases hsize : Plan.evalSize path expr record with
  | error error =>
      rw [hsize] at harray
      cases harray
  | ok length =>
      rw [hsize] at harray
      injection harray with harray
      obtain ⟨harray, hlength⟩ := Prod.mk.inj harray
      exact ⟨harray.symm, length, hlength.symm, Plan.eval_of_evalSize hsize⟩

/-- A buffer length that a tag gives is the value of its expression. -/
theorem Plan.eval_of_resolve_size {expr : SizeExpr}
    (h : Plan.resolve path value tag record = .ok plan) (hsize : tag.bufferLength = some expr) :
    ∃ size : Nat, plan.bufferLength = some size ∧ expr.eval record = .ok (size : Int) := by
  obtain ⟨-, -, hbuffer, -⟩ := Plan.parts_of_resolve h
  rw [hsize] at hbuffer
  unfold Plan.resolveBuffer at hbuffer
  simp only at hbuffer
  split at hbuffer
  · cases hbuffer
  · cases hbuffer
  next size _ heval =>
    injection hbuffer with hbuffer
    exact ⟨size, hbuffer.symm, Plan.eval_of_evalSize heval⟩

end plans

/-- A value is represented as what is behind its pointers. -/
theorem Value.natural_target (value : Value) : value.target.natural = value.natural := by
  fun_induction Value.target value
  case case1 kind value ih => exact ih
  case case2 => rfl

section vectors

variable {schema : Schema} {settings : Settings} {child : Option ChildDecoder} {plan : Plan}
  {element : HostType} {items result : List Value}

/-- As many elements are decoded as there are. -/
theorem length_of_accepts_decodeElements {index : Nat} {decoded : List Value}
    (h : (decodeElements child path plan index decoded items).Accepts bytes result) :
    result.length = decoded.length + items.length := by
  induction items generalizing index decoded bytes with
  | nil =>
      obtain ⟨-, rfl⟩ := h
      exact List.length_reverse
  | cons item items ih =>
      obtain ⟨front, item', back, -, -, hrest⟩ := accepts_decodeElements_cons.1 h
      rw [ih hrest, List.length_cons, List.length_cons, Nat.add_right_comm, Nat.add_assoc]

/-- Decoded items are as many as before. -/
theorem length_of_accepts_decodeItems
    (h : (decodeItems child path plan element items).Accepts bytes result) :
    result.length = items.length := by
  unfold decodeItems at h
  split at h
  · obtain ⟨front, back, -, hcount, -, rfl⟩ := h
    rw [List.length_map, hcount]
  · rw [length_of_accepts_decodeElements h, List.length_nil, Nat.zero_add]

/-- A decoded vector has the length of its array. -/
theorem length_of_accepts_decodeSequence
    (h : (decodeSequence schema settings child path plan .growable element items).Accepts bytes
      result) : result.length = plan.arrayLength.getD items.length := by
  unfold decodeSequence at h
  cases hcheck : settings.limits.checkCollect path (plan.arrayLength.getD items.length) with
  | error error =>
      simp only [hcheck] at h
      exact h.elim
  | ok =>
      simp only [hcheck, if_true] at h
      obtain ⟨_, _, _, -, hdecoded, hrest⟩ := Intake.accepts_bind.1 h
      obtain ⟨_, _, _, -, -, -, rfl⟩ := Intake.accepts_bind.1 hrest
      obtain ⟨stored, hstored, rfl⟩ := Intake.accepts_bimap.1 hdecoded
      rw [List.length_append, length_of_accepts_decodeItems hstored, ← List.length_append,
        List.take_append_drop, length_resized]

/-- A vector that is decoded as an array becomes a vector of the length of the array. -/
theorem exists_items_of_accepts {value result : Value} (hwire : plan.wire ≠ .pad)
    (hcoded : plan.wire ≠ .ignore) (harray : plan.isArray = true) (hdirect : plan.indirection = 0)
    (hvalue : value.target = .sequence .growable element items)
    (h : (decodeWith schema settings child path value plan).Accepts bytes result) :
    ∃ items', result = value.withTarget (.sequence .growable element items') ∧
      items'.length = plan.arrayLength.getD items.length := by
  rw [decodeWith_coded hwire hcoded, hdirect, decodeBehind, if_pos harray, decodeArray, hvalue] at h
  simp only at h
  split at h
  · exact h.elim
  · obtain ⟨items', hitems, rfl⟩ := Intake.accepts_bimap.1 h
    exact ⟨items', rfl, length_of_accepts_decodeSequence hitems⟩

end vectors

/-- The decoding of the field at `index`, as a part of that of its record from `values` to
`result`. -/
structure FieldDecoding (child : Option ChildDecoder) (path : Path) (layout : Layout) (index : Nat)
    (field : FieldLayout) (tag : Tag) (values result : List Value) where
  /-- The decoder of the value of the field. -/
  decode : ChildDecoder
  /-- The values of the record when the field is reached. -/
  half : List Value
  /-- The value of the field before it is decoded. -/
  value : Value
  /-- The plan by which it is decoded. -/
  plan : Plan
  /-- The value of the field after that. -/
  decoded : Value
  /-- The bytes of the fields in front, of the field and of the fields behind it. -/
  front : Bytes
  own : Bytes
  back : Bytes
  child_eq : child = some decode
  accepts_front : (decodeFields child path layout 0 (layout.fields.take index) values).Accepts front
    half
  value_eq : half[index]? = some value
  plan_eq : Plan.resolve (.field field.name :: path) value tag (some ⟨layout, half⟩) = .ok plan
  accepts_own : (decode (.field field.name :: path) value plan).Accepts own decoded
  accepts_back : (decodeFields child path layout (index + 1) (layout.fields.drop (index + 1))
    (half.set index decoded)).Accepts back result

namespace FieldDecoding

variable {child : Option ChildDecoder} {layout : Layout} {index : Nat} {field : FieldLayout}
  {tag : Tag} {values result : List Value}

/-- An exported field that is not ignored is decoded with its record. -/
theorem of_accepts
    (h : (decodeFields child path layout 0 layout.fields values).Accepts bytes result)
    (hfield : layout.fields[index]? = some field) (hexported : field.exported = true)
    (htag : field.tag = .ok tag) (hcoded : tag.wire ≠ some .ignore) :
    ∃ run : FieldDecoding child path layout index field tag values result,
      bytes = run.front ++ run.own ++ run.back := by
  obtain ⟨hinside, hat⟩ := List.getElem?_eq_some_iff.1 hfield
  have hsplit : layout.fields =
      layout.fields.take index ++ field :: layout.fields.drop (index + 1) := by
    rw [← hat, ← List.drop_eq_getElem_cons hinside, List.take_append_drop]
  have hcount : 0 + (layout.fields.take index).length = index := by
    rw [Nat.zero_add, List.length_take, Nat.min_eq_left (Nat.le_of_lt hinside)]
  rw [hsplit, accepts_decodeFields_append, hcount] at h
  obtain ⟨front, half, _, rfl, hfront, h⟩ := h
  rw [decodeFields, Intake.accepts_bind] at h
  obtain ⟨own, _, back, rfl, hown, hback⟩ := h
  rcases accepts_decodeField_iff.1 hown with
    ⟨hprivate, -⟩ | ⟨decode, tag', hchild, -, htag', ⟨hignore, -⟩ | ⟨-, hown⟩⟩
  · rw [hexported] at hprivate
    cases hprivate
  · cases htag.symm.trans htag'
    exact absurd hignore hcoded
  · cases htag.symm.trans htag'
    obtain ⟨value, plan, decoded, hvalue, hplan, haccepts, rfl⟩ := hown
    exact ⟨⟨decode, half, value, plan, decoded, front, own, back, hchild, hfront, hvalue, hplan,
      haccepts, hback⟩, (List.append_assoc _ _ _).symm⟩

variable (run : FieldDecoding child path layout index field tag values result)
include run

/-- The fields that the tag of a field names do not change any more when the field is reached. -/
theorem getElem?_of_names {name : String} {declared : List FieldDescriptor} {target : Nat}
    (hbuilt : layout = .build name declared) (hfield : layout.fields[index]? = some field)
    (hexported : field.exported = true) (htag : field.tag = .ok tag) (hnames : tag.Names target) :
    result[target]? = run.half[target]? := by
  have havailable : target < index ∨
      ∃ named, layout.fields[target]? = some named ∧ named.exported = false := by
    subst hbuilt
    exact Layout.available_of_names hfield hexported htag hnames
  have hother : index ≠ target := by
    rintro rfl
    rcases havailable with hbefore | ⟨named, hnamed, hprivate⟩
    · exact Nat.lt_irrefl _ hbefore
    · cases hfield.symm.trans hnamed
      rw [hexported] at hprivate
      cases hprivate
  rw [getElem?_of_accepts_decodeFields (List.prefix_refl _) run.accepts_back
    (havailable.imp (Nat.lt_trans · (Nat.lt_succ_self _)) .inr)]
  exact List.getElem?_set_ne hother

/-- The field has the value of the destination when it is reached. -/
theorem values_getElem? : values[index]? = some run.value := by
  rw [← run.value_eq]
  refine (getElem?_of_accepts_decodeFields (List.take_prefix _ _) run.accepts_front
    (.inr (.inl ?_))).symm
  rw [List.length_take]
  omega

/-- The field keeps what was decoded into it. -/
theorem result_getElem? : result[index]? = some run.decoded := by
  obtain ⟨hinside, -⟩ := List.getElem?_eq_some_iff.1 run.value_eq
  rw [getElem?_of_accepts_decodeFields (List.prefix_refl _) run.accepts_back
    (.inl (Nat.lt_succ_self _))]
  exact List.getElem?_set_self hinside

end FieldDecoding

/-- On a decoded record, the size expressions of every exported field that is not ignored have the
values that were used when the field was decoded. A vector has as many elements as the array length
of its tag then says. -/
theorem decodeFields_sizes {schema : Schema} {settings : Settings} {room boundary index : Nat}
    {source source' : Source} {name : String} {declared : List FieldDescriptor} {layout : Layout}
    {values result : List Value} {field : FieldLayout} {tag : Tag}
    (hbuilt : layout = .build name declared)
    (h : source.supply boundary (decodeFields (decodeBelow schema settings room) path layout 0
      layout.fields values) = (.ok result, source'))
    (hfield : layout.fields[index]? = some field) (hexported : field.exported = true)
    (htag : field.tag = .ok tag) (hcoded : tag.wire ≠ some .ignore) :
    ∃ run : FieldDecoding (decodeBelow schema settings room) path layout index field tag values
        result,
      source'.position = source.position + (run.front ++ run.own ++ run.back).length ∧
      (∀ expr, tag.brackets = .length expr → ∃ length : Nat,
        run.plan.arrayLength = some length ∧
        expr.eval (some ⟨layout, result⟩) = .ok (length : Int)) ∧
      (∀ expr, tag.bufferLength = some expr → ∃ size : Nat,
        run.plan.bufferLength = some size ∧
        expr.eval (some ⟨layout, result⟩) = .ok (size : Int)) ∧
      ∀ expr vector element items, tag.brackets = .length expr → tag.wire ≠ some .pad →
        values[index]? = some vector → vector.target = .sequence .growable element items →
        ∃ items', result[index]? = some (vector.withTarget (.sequence .growable element items')) ∧
          expr.eval (some ⟨layout, result⟩) = .ok (items'.length : Int) := by
  obtain ⟨bytes, hposition, haccepts⟩ := Source.accepts_of_supply_ok h
  obtain ⟨run, rfl⟩ := FieldDecoding.of_accepts haccepts hfield hexported htag hcoded
  have hstable (expr : SizeExpr) (hnames : ∀ target, expr.Names target → tag.Names target) :
      expr.eval (some ⟨layout, result⟩) = expr.eval (some ⟨layout, run.half⟩) :=
    SizeExpr.eval_congr fun target htarget =>
      run.getElem?_of_names hbuilt hfield hexported htag (hnames target htarget)
  have hlength (expr : SizeExpr) (hexpr : tag.brackets = .length expr) : ∃ length : Nat,
      run.plan.arrayLength = some length ∧
      expr.eval (some ⟨layout, result⟩) = .ok (length : Int) := by
    rw [hstable expr fun target htarget => .inl ⟨expr, hexpr, htarget⟩]
    exact (Plan.eval_of_resolve_length run.plan_eq hexpr).2
  refine ⟨run, hposition, hlength, ?_, ?_⟩
  · intro expr hexpr
    rw [hstable expr fun target htarget => .inr ⟨expr, hexpr, htarget⟩]
    exact Plan.eval_of_resolve_size run.plan_eq hexpr
  · intro expr vector element items hexpr hpad hvector htarget
    obtain ⟨length, hgiven, heval⟩ := hlength expr hexpr
    cases run.values_getElem?.symm.trans hvector
    have hnatural : run.value.natural.unsized = (HostType.vector element).natural.unsized := by
      rw [← run.value.natural_target, htarget]
      rfl
    have hsuits := Plan.suits_of_resolve hpad hcoded hnatural run.plan_eq
    have hdecoded : ∃ room, decodeWith schema settings (decodeBelow schema settings room) =
        run.decode := by
      cases room with
      | zero => cases run.child_eq
      | succ room => exact ⟨room, (decodeIn_eq schema settings room).symm.trans
          (Option.some.inj run.child_eq)⟩
    obtain ⟨room, hdecode⟩ := hdecoded
    have hown := run.accepts_own
    rw [← hdecode] at hown
    obtain ⟨items', hresult, hcount⟩ := exists_items_of_accepts hsuits.not_pad hsuits.not_ignore
      (Plan.eval_of_resolve_length run.plan_eq hexpr).1 hsuits.indirection_eq htarget hown
    rw [hgiven, Option.getD_some] at hcount
    refine ⟨items', ?_, ?_⟩
    · rw [run.result_getElem?, hresult]
    · rw [heval, hcount]

section shelf

/-- A record type with a count, as many words and a string that is longer by one. -/
def shelfLayout : Layout :=
  .build "Shelf" [⟨"count", "", true⟩, ⟨"items", "[count]uint16", true⟩,
    ⟨"name", "string(count+1)", true⟩]

/-- The fields of a shelf. -/
def shelf (count : UInt8) (items : List Value) (name : String) : List Value :=
  [.ofByte count, .sequence .growable .byte items, .text name]

/-- A count of two is followed by two words and a name of three letters. -/
theorem supply_shelf :
    (Source.ofData [2, 0, 7, 0, 9, 104, 105, 33]).supply 0
      (decodeFields (decodeBelow [] ⟨.bigEndian, {}, .empty⟩ 32) .top shelfLayout 0
        shelfLayout.fields (shelf 0 [] "")) =
      (.ok (shelf 2 [.ofByte 7, .ofByte 9] "hi!"), .steady [] 8) := by cbv

/-- The items of a shelf are counted by its first field. -/
theorem fields_shelfLayout :
    ∃ field, shelfLayout.fields[1]? = some field ∧ field.exported = true ∧
      field.tag = .ok ⟨some .uint16, .length ⟨"count", [⟨false, .field 0 "count"⟩]⟩, none, none⟩ :=
  ⟨_, rfl, rfl, by cbv⟩

/-- A shelf that says that it has two items has two. -/
theorem decodeFields_sizes_shelf :
    ∃ items, (shelf 2 [.ofByte 7, .ofByte 9] "hi!")[1]? =
        some (.sequence .growable .byte items) ∧
      (⟨"count", [⟨false, .field 0 "count"⟩]⟩ : SizeExpr).eval
        (some ⟨shelfLayout, shelf 2 [.ofByte 7, .ofByte 9] "hi!"⟩) = .ok (items.length : Int) := by
  obtain ⟨field, hfield, hexported, htag⟩ := fields_shelfLayout
  obtain ⟨run, -, -, -, hvector⟩ := decodeFields_sizes rfl supply_shelf hfield hexported htag
    (by decide)
  exact hvector _ (.sequence .growable .byte []) .byte [] rfl (by decide) rfl rfl

end shelf

end PackedRecord
