import PackedRecord.Proofs.FixedSize
import PackedRecord.Proofs.ScalarRoundTrip
import PackedRecord.Proofs.Vectors

/-!
# Coding values of a fixed size

What the encoder writes for a value of a fixed size is of that size, and the decoder takes any bytes
of that size for such a value. `Regular` says so of an encoder and a decoder, and `regular_below` of
those at any depth. That there is room enough for the decoder follows from what the encoder wrote.
-/

namespace PackedRecord

section scalars

variable {settings : Settings} {path : Path}

/-- Any bytes will do for a number, if they are as many as its width. -/
theorem acceptsAll_readImage {width : Nat} (hwidth : isScalarWidth width = true) :
    (readImage settings path width).AcceptsAll width fun _ => True := by
  intro bytes hbytes
  subst hbytes
  exact ⟨_, trivial, accepts_readImage_bytes hwidth⟩

/-- Extending the sign of a number of so many bytes stays in the range of the width. -/
theorem signExtend_mem {size n : Nat} (hn : n < 256 ^ size) :
    -256 ^ size ≤ 2 * signExtend size n ∧ 2 * signExtend size n < 256 ^ size := by
  have hcast : ((256 ^ size : Nat) : Int) = 256 ^ size := by push_cast; rfl
  rw [← hcast, signExtend]
  split
  · omega
  · push_cast
    omega

/-- Whatever the natural wire type of an integer type carries is an integer of the type. -/
theorem IntType.ofImage_natural (type : IntType) (image : UInt64) :
    ∃ scalar, (ScalarType.int type).ofImage (ScalarType.int type).natural image = .ok scalar ∧
      scalar.type = .int type := by
  have hlow : image.toNat % 256 ^ type.width < 256 ^ type.width :=
    Nat.mod_lt _ (Nat.pow_pos (by decide))
  have hkind : (ScalarType.int type).natural.kind =
      if type.isSigned then .signed else .unsigned := by
    cases type <;> rfl
  obtain ⟨value, hvalue, hholds⟩ : ∃ value,
      (ScalarType.int type).numberIn (ScalarType.int type).natural image = .ok (.int value) ∧
        type.Holds value := by
    rw [ScalarType.numberIn, hkind, type.byteSize_natural]
    simp only [type.holds_iff]
    cases type.isSigned with
    | true => exact ⟨_, rfl, signExtend_mem hlow⟩
    | false =>
        refine ⟨_, rfl, Int.natCast_nonneg _, ?_⟩
        exact_mod_cast hlow
  refine ⟨.int ⟨type, value, hholds⟩, ?_, rfl⟩
  rw [ScalarType.ofImage, hvalue]
  exact @ScalarType.ofNumber_int (.int ⟨type, value, hholds⟩) value rfl

/-- Any bytes are a scalar in its natural wire type. -/
theorem acceptsAll_decodeScalar {schema : Schema} {greatest height size : Nat} {type : ScalarType}
    (hfixed : HostType.FixedSize schema greatest height (.scalar type) size) :
    type.natural.byteSize = size ∧
      (decodeScalar settings path type.natural type).AcceptsAll size
        fun scalar => scalar.type = type := by
  have hread {size : Nat} (hwidth : isScalarWidth type.natural.byteSize = true)
      (hsize : type.natural.byteSize = size)
      (hscalar : ∀ image, ∃ scalar, type.ofImage type.natural image = .ok scalar ∧
        scalar.type = type) :
      (decodeScalar settings path type.natural type).AcceptsAll size
        fun scalar => scalar.type = type := by
    subst hsize
    refine (acceptsAll_readImage hwidth).bind_done (fun image _ => ?_)
    obtain ⟨scalar, hscalar, htype⟩ := hscalar image
    rw [hscalar]
    exact Intake.acceptsAll_done htype
  cases hfixed with
  | bool => exact ⟨rfl, hread rfl rfl (fun image => ⟨_, rfl, rfl⟩)⟩
  | @int _ type =>
      refine ⟨type.byteSize_natural, hread ?_ type.byteSize_natural type.ofImage_natural⟩
      cases type <;> rfl

end scalars

/-- What the encoder writes for a value of a fixed size is of that size, and unless its arrays are
too long, the decoder takes any bytes of that size for such a value. -/
def Regular (schema : Schema) (limits : Limits) (greatest : Nat) (encode : ChildEncoder)
    (decode : ChildDecoder) : Prop :=
  ∀ {height type size path value bytes}, HostType.FixedSize schema greatest height type size →
    Value.Fits schema type value → (encode path value (.untagged type)).Yields bytes () →
    bytes.length = size ∧ (greatest ≤ limits.collect → ∀ path' place, Value.Fits schema type place →
      (decode path' place (.untagged type)).AcceptsAll size (Value.Fits schema type))

section elements

variable {schema : Schema} {limits : Limits} {greatest height size : Nat}
  {encode : Option ChildEncoder} {decode : Option ChildDecoder} {path : Path} {plan : Plan}
  {element : HostType} {bytes : Bytes}

/-- Elements that accept any bytes of a size accept any bytes of so many times that size. -/
theorem acceptsAll_decodeElements {valid : Value → Prop} {places : List Value}
    (h : ∀ index, ∀ place ∈ places, (decodeElement decode path plan index place).AcceptsAll size
      valid) (index : Nat) {decoded : List Value} (hdecoded : ∀ item ∈ decoded, valid item) :
    (decodeElements decode path plan index decoded places).AcceptsAll (places.length * size)
      fun items => items.length = decoded.length + places.length ∧ ∀ item ∈ items, valid item := by
  induction places generalizing index decoded with
  | nil =>
      rw [List.length_nil, Nat.zero_mul]
      refine Intake.acceptsAll_done ⟨List.length_reverse, fun item hitem => ?_⟩
      exact hdecoded item (List.mem_reverse.1 hitem)
  | cons place places ih =>
      rw [List.length_cons, Nat.succ_mul, Nat.add_comm (places.length * size), decodeElements]
      have hfirst := h index place List.mem_cons_self
      refine (hfirst.bimap fun item hitem => hitem).bind (fun item hitem => ?_)
      have hrest := ih (fun index place hplace => h index place (List.mem_cons_of_mem _ hplace))
        (index + 1) (List.forall_mem_cons.2 ⟨hitem, hdecoded⟩)
      rw [List.length_cons, Nat.add_right_comm] at hrest
      rw [← Nat.add_assoc]
      exact hrest

/-- Elements of a fixed size take so many bytes each, and if there is one, the decoder takes any
bytes for elements. -/
theorem regular_elements (hchild : Option.Rel (Regular schema limits greatest) encode decode)
    (hplan : plan.CodesElements element)
    (hfixed : element.FixedSize schema greatest height size) {items : List Value} {index : Nat}
    {last last' : Option Nat} (hitems : ∀ item ∈ items, Value.Fits schema element item)
    (h : (encodeElements encode path plan index last items).Yields bytes last') :
    bytes.length = items.length * size ∧ (items ≠ [] → last' = some size ∧
      (greatest ≤ limits.collect → ∀ path' plan', plan'.CodesElements element → ∀ index place,
        Value.Fits schema element place →
          (decodeElement decode path' plan' index place).AcceptsAll size
            (Value.Fits schema element))) := by
  induction items generalizing index last bytes with
  | nil =>
      rw [encodeElements, Emission.pure_eq, Emission.yields_ofExcept] at h
      refine ⟨?_, fun hnil => absurd rfl hnil⟩
      rw [h.1, List.length_nil, List.length_nil, Nat.zero_mul]
  | cons item items ih =>
      obtain ⟨encodeItem, itemPlan, front, back, rfl, hitemPlan, hitem, hrest, rfl⟩ :=
        yields_encodeElements_cons.1 h
      have helement {path : Path} {plan : Plan} {place : Value} (hplan : plan.CodesElements element)
          (hplace : Value.Fits schema element place) :
          plan.element path place = .ok (.untagged element) := by
        rw [← hplan.ofElement_eq]
        exact Plan.element_eq hplan.not_pad.1 hplan.not_pad.2 hplace.natural_eq
          hfixed.natural_wire_ne
      have hfits := hitems item List.mem_cons_self
      rw [helement hplan hfits] at hitemPlan
      cases hitemPlan
      cases hchild with
      | some hregular =>
          obtain ⟨hfront, hdecode⟩ := hregular hfixed hfits hitem
          have hitems' : ∀ item ∈ items, Value.Fits schema element item := fun item hitem =>
            hitems item (List.mem_cons_of_mem _ hitem)
          obtain ⟨hback, hothers⟩ := ih hitems' hrest
          refine ⟨?_, fun _ => ⟨?_, ?_⟩⟩
          · rw [List.length_append, hfront, hback, List.length_cons, Nat.succ_mul, Nat.add_comm]
          -- The last size is that of this element only if no other one follows.
          · cases items with
            | nil =>
                rw [encodeElements, Emission.pure_eq, Emission.yields_ofExcept] at hrest
                rw [← hfront]
                exact (Except.ok.inj hrest.2).symm
            | cons => exact (hothers (List.cons_ne_nil _ _)).1
          · intro hcollect path' plan' hplan' index place hplace
            simp only [decodeElement, helement hplan' hplace]
            exact hdecode hcollect _ place hplace

/-- Elements of a fixed size do so at once or one by one. -/
theorem regular_items (hchild : Option.Rel (Regular schema limits greatest) encode decode)
    (hplan : plan.CodesElements element)
    (hfixed : element.FixedSize schema greatest height size) {items : List Value}
    {natural : Natural} {last : Option Nat}
    (hitems : ∀ item ∈ items, Value.Fits schema element item)
    (h : (encodeItems encode path plan ⟨items, Value.bytes? element items, natural⟩).Yields bytes
      last) :
    bytes.length = items.length * size ∧ (items ≠ [] → last = some size ∧
      (greatest ≤ limits.collect → ∀ path' plan', plan'.CodesElements element → ∀ places,
        (∀ place ∈ places, Value.Fits schema element place) →
          (decodeItems decode path' plan' element places).AcceptsAll (places.length * size)
            fun results => results.length = places.length ∧
              ∀ result ∈ results, Value.Fits schema element result)) := by
  -- Bytes are coded at once on both sides, so that no element has to show how deep they nest.
  by_cases hbyte : element = .byte
  · subst hbyte
    have hwire {plan : Plan} (hplan : plan.CodesElements .byte) :
        plan.wire = .byte ∨ plan.wire = .uint8 := .inr hplan.wire_eq
    obtain ⟨data, hdata, rfl⟩ := Value.bytes?_of_bytes (fun item hitem => by
      cases hitems item hitem with
      | scalar htype => exact Value.exists_ofByte htype)
    unfold encodeItems at h
    simp only [hdata, if_pos (hwire hplan)] at h
    obtain ⟨_, _, _, rfl, hwrite, hdone⟩ := Emission.yields_bind.1 h
    obtain ⟨rfl, hlast⟩ := Emission.yields_ofExcept.1 hdone
    cases hfixed
    rw [Emission.yields_write.1 hwrite, List.append_nil, List.length_map]
    refine ⟨(Nat.mul_one _).symm, fun _ => ⟨(Except.ok.inj hlast).symm, ?_⟩⟩
    intro _ path' plan' hplan' places hplaces bytes hbytes
    have hcount : bytes.length = places.length := by rw [hbytes]; exact Nat.mul_one _
    refine ⟨bytes.map Value.ofByte, ⟨?_, ?_⟩, ?_⟩
    · rw [List.length_map, hcount]
    · intro result hresult
      obtain ⟨byte, -, rfl⟩ := List.mem_map.1 hresult
      exact .scalar rfl
    · rw [decodeItems, if_pos ⟨rfl, hwire hplan'⟩]
      exact ⟨bytes, [], (List.append_nil _).symm, hcount, rfl, rfl⟩
  · have hsingly : (encodeElements encode path plan 0 none items).Yields bytes last := by
      unfold encodeItems at h
      rw [Value.bytes?, if_neg hbyte] at h
      exact h
    obtain ⟨hlength, hdecode⟩ := regular_elements hchild hplan hfixed hitems hsingly
    refine ⟨hlength, fun hnonempty => ⟨(hdecode hnonempty).1, ?_⟩⟩
    intro hcollect path' plan' hplan' places hplaces
    rw [decodeItems, if_neg (fun hbulk => hbyte hbulk.1)]
    have hdecoded := acceptsAll_decodeElements
      (fun index place hplace => (hdecode hnonempty).2 hcollect path' plan' hplan' index place
        (hplaces place hplace)) 0 (List.forall_mem_nil _)
    rw [List.length_nil, Nat.zero_add] at hdecoded
    exact hdecoded

end elements

section content

variable {schema : Schema} {settings : Settings} {greatest height size : Nat}
  {encode : Option ChildEncoder} {decode : Option ChildDecoder} {path : Path} {plan : Plan}
  {bytes : Bytes}

/-- An array of a fixed length takes as many bytes as its elements. -/
theorem regular_array
    (hchild : Option.Rel (Regular schema settings.limits greatest) encode decode)
    {length : Nat} {element : HostType} (hplan : plan.CodesElements element)
    (hopen : plan.arrayLength = none)
    (hgreatest : length ≤ greatest) (hfixed : element.FixedSize schema greatest height size)
    {value : Value} (hvalue : Value.Fits schema (.array length element) value.target)
    (h : (encodeArray encode path value plan).Yields bytes ()) :
    bytes.length = length * size ∧ (greatest ≤ settings.limits.collect → ∀ path' place,
      Value.Fits schema (.array length element) place.target → place.isReadOnly = false →
        (decodeArray schema settings decode path' place plan).AcceptsAll (length * size)
          fun result => ∃ content, Value.Fits schema (.array length element) content ∧
            result = place.withTarget content) := by
  generalize hcontent : value.target = content at hvalue
  cases hvalue with
  | @array _ _ items hlength hitems =>
      have hof : Elements.of path value plan.wire =
          .ok ⟨items, Value.bytes? element items, element.natural⟩ := by
        rw [Elements.of, hcontent]
      have hslots (items : List Value) : plan.arrayLength.getD items.length = items.length := by
        rw [hopen, Option.getD_none]
      obtain ⟨last, hfront⟩ := yields_encodeArray_full hof (hslots items) h
      obtain ⟨hbytes, hdecode⟩ := regular_items hchild hplan hfixed hitems hfront
      rw [hlength] at hbytes
      refine ⟨hbytes, ?_⟩
      intro hcollect path' place hplace hwritable data hdata
      generalize hcurrent : place.target = current at hplace
      cases hplace with
      | @array _ _ places hcount hplaces =>
          have hdecoded : ∃ results, (results.length = length ∧
              ∀ result ∈ results, Value.Fits schema element result) ∧
                (decodeItems decode path' plan element places).Accepts data results := by
            -- Without elements nothing was encoded below, and nothing is decoded below either.
            cases items with
            | nil =>
                obtain rfl : length = 0 := hlength.symm
                obtain rfl := List.eq_nil_of_length_eq_zero hcount
                rw [Nat.zero_mul] at hdata
                obtain rfl := List.eq_nil_of_length_eq_zero hdata
                exact ⟨[], ⟨rfl, nofun⟩, accepts_decodeItems_nil⟩
            | cons item items =>
                have hall := (hdecode (List.cons_ne_nil _ _)).2 hcollect path' plan hplan places
                  hplaces
                rw [hcount] at hall
                exact hall data hdata
          obtain ⟨results, ⟨hresults, hfits⟩, haccepts⟩ := hdecoded
          refine ⟨_, ⟨.sequence .fixed element results, .array hresults hfits, rfl⟩, ?_⟩
          have hsequence : (decodeSequence schema settings decode path' plan .fixed element
              places).Accepts data
                (results ++ places.drop (plan.arrayLength.getD places.length)) := by
            refine accepts_decodeSequence places rfl ?_ ?_ ?_
            all_goals rw [hslots places]
            · rw [hcount]
              exact Nat.le_trans hgreatest hcollect
            · rw [List.take_length]
              exact haccepts
          rw [hslots places, List.drop_length, List.append_nil] at hsequence
          rw [decodeArray, hcurrent]
          simp only [hwritable]
          exact hsequence.bimap _ _

section fields

variable {recordType : RecordType} {sizes : List Nat}
  (hchild : Option.Rel (Regular schema settings.limits greatest) encode decode)
  (hplain : recordType.IsPlain sizes)
  (hsizes : ∀ (index : Nat) fieldType size, recordType.exported? index = some fieldType →
    sizes[index]? = some size → HostType.FixedSize schema greatest height fieldType size)
  {fields : List Value} (hfields : recordType.Holds schema fields)

include hchild hplain hsizes hfields

/-- A field takes as many bytes as its size says, none if it is private. -/
theorem regular_field {index : Nat} {field : FieldLayout}
    (hfield : recordType.layout.fields[index]? = some field) (hsize : sizes[index]? = some size)
    (h : (encodeField encode path ⟨recordType.layout, fields⟩ index field).Yields bytes ()) :
    bytes.length = size ∧ (greatest ≤ settings.limits.collect → ∀ path' values,
      recordType.Holds schema values →
        (decodeField decode path' ⟨recordType.layout, values⟩ index field).AcceptsAll size
          (recordType.Holds schema)) := by
  rcases yields_encodeField h with ⟨hprivate, rfl⟩ | ⟨encodeValue, tag, rfl, hexported, htag, h⟩
  · have hnone : recordType.exported? index = none := by
      rw [RecordType.exported?, hfield]
      simp only [hprivate]
      rfl
    obtain rfl := hplain.private_eq index size hnone hsize
    refine ⟨rfl, fun _ path' values hvalues => ?_⟩
    intro data hdata
    obtain rfl := List.eq_nil_of_length_eq_zero hdata
    exact ⟨values, hvalues, accepts_decodeField_private hprivate⟩
  · rw [hplain.tag_eq field (List.mem_of_getElem? hfield) hexported] at htag
    cases htag
    rcases h with ⟨hignore, -⟩ | ⟨hignore, value, plan, hvalue, hplan, hencode⟩
    · cases hignore
    · obtain ⟨hinside, -⟩ := List.getElem?_eq_some_iff.1 hvalue
      rw [hfields.length_eq] at hinside
      obtain ⟨fieldType, htype⟩ : ∃ fieldType, recordType.types[index]? = some fieldType :=
        ⟨_, List.getElem?_eq_getElem hinside⟩
      have hsome : recordType.exported? index = some fieldType := by
        rw [RecordType.exported?, hfield]
        simp only [hexported]
        exact htype
      have hfixed := hsizes index fieldType size hsome hsize
      have hfits := hfields.fits index fieldType value hsome hvalue
      rw [Plan.resolve_empty hfits.natural_eq hfixed.natural_wire_ne] at hplan
      cases hplan
      cases hchild with
      | some hregular =>
          obtain ⟨hlength, hdecode⟩ := hregular hfixed hfits hencode
          refine ⟨hlength, fun hcollect path' values hvalues => ?_⟩
          intro data hdata
          rw [← hvalues.length_eq] at hinside
          obtain ⟨place, hplace⟩ : ∃ place, values[index]? = some place :=
            ⟨_, List.getElem?_eq_getElem hinside⟩
          have hplaceFits := hvalues.fits index fieldType place hsome hplace
          obtain ⟨result, hresult, haccepts⟩ := hdecode hcollect _ place hplaceFits data hdata
          refine ⟨values.set index result, hvalues.set ?_, ?_⟩
          · intro otherType hother
            rw [hsome] at hother
            cases hother
            exact hresult
          · exact accepts_decodeField rfl hexported (hplain.tag_eq field
              (List.mem_of_getElem? hfield) hexported) nofun hplace
              (Plan.resolve_empty hplaceFits.natural_eq hfixed.natural_wire_ne) haccepts

/-- The fields of a record from `index` on take as many bytes as their sizes say. -/
theorem regular_fields {index : Nat} {rest : List FieldLayout}
    (hdrop : recordType.layout.fields.drop index = rest)
    (h : (encodeFields encode path ⟨recordType.layout, fields⟩ index rest).Yields bytes ()) :
    bytes.length = (sizes.drop index).sum ∧ (greatest ≤ settings.limits.collect →
      ∀ path' values, recordType.Holds schema values →
        (decodeFields decode path' recordType.layout index rest values).AcceptsAll
          (sizes.drop index).sum (recordType.Holds schema)) := by
  induction rest generalizing index bytes with
  | nil =>
      have hend : sizes.length ≤ index := by
        rw [← hplain.length_fields]
        exact List.drop_eq_nil_iff.1 hdrop
      rw [encodeFields, Emission.pure_eq, Emission.yields_ofExcept] at h
      rw [List.drop_eq_nil_iff.2 hend, h.1]
      exact ⟨rfl, fun _ path' values hvalues => Intake.acceptsAll_done hvalues⟩
  | cons field rest ih =>
      obtain ⟨front, back, hfirst, hothers, rfl⟩ := yields_encodeFields_cons.1 h
      obtain ⟨hfield, hnext⟩ := Layout.fields_of_drop hdrop
      obtain ⟨hinside, -⟩ := List.getElem?_eq_some_iff.1 hfield
      rw [hplain.length_fields] at hinside
      obtain ⟨hfront, hdecode⟩ := regular_field hchild hplain hsizes hfields hfield
        (List.getElem?_eq_getElem hinside) hfirst
      obtain ⟨hback, hdecodes⟩ := ih hnext hothers
      rw [List.drop_eq_getElem_cons hinside, List.sum_cons]
      refine ⟨by rw [List.length_append, hfront, hback], fun hcollect path' values hvalues => ?_⟩
      rw [decodeFields]
      exact (hdecode hcollect path' values hvalues).bind
        (fun values' => hdecodes hcollect path' values')

end fields

/-- A scalar takes as many bytes as its natural wire type. -/
theorem regular_scalar {type : ScalarType}
    (hfixed : HostType.FixedSize schema greatest height (.scalar type) size)
    (hwire : plan.wire = type.natural) {value : Value}
    (hvalue : Value.Fits schema (.scalar type) value.target)
    (h : (encodeLeaf settings encode path value plan).Yields bytes ()) :
    bytes.length = size ∧ (greatest ≤ settings.limits.collect → ∀ path' place,
      Value.Fits schema (.scalar type) place.target → place.isReadOnly = false →
        (decodeLeaf settings decode path' place plan).AcceptsAll size
          fun result => ∃ content, Value.Fits schema (.scalar type) content ∧
            result = place.withTarget content) := by
  have hnumeric : type.natural.isNumeric = true := by
    cases type with
    | int type => cases type <;> rfl
    | _ => rfl
  obtain ⟨hsize, -⟩ := @acceptsAll_decodeScalar settings path _ _ _ _ _ hfixed
  generalize hcontent : value.target = content at hvalue
  cases hvalue with
  | @scalar _ content htype =>
      unfold encodeLeaf at h
      rw [hcontent, hwire] at h
      simp only [hnumeric, if_true] at h
      split at h
      next image himage =>
        obtain ⟨hlength, -⟩ := accepts_readImage path h
        refine ⟨hlength.trans hsize, fun _ path' place hplace hwritable => ?_⟩
        generalize hcurrent : place.target = current at hplace
        cases hplace with
        | @scalar _ current hother =>
            obtain ⟨-, hdecode⟩ := @acceptsAll_decodeScalar settings path' _ _ _ _ _ hfixed
            unfold decodeLeaf
            rw [hwritable, hcurrent, hwire]
            simp only [hnumeric, if_true, Bool.false_eq_true, if_false, hother]
            refine (hdecode.leaving _).bind_done (fun scalar hscalar => ?_)
            exact Intake.acceptsAll_done ⟨.scalar scalar, .scalar hscalar, rfl⟩
      next => exact (Emission.not_yields_fail h).elim

/-- A record takes as many bytes as its fields. -/
theorem regular_record
    (hchild : Option.Rel (Regular schema settings.limits greatest) encode decode) {key : String}
    (hfixed : HostType.FixedSize schema greatest height (.record key) size)
    (hwire : plan.wire = .struct) {value : Value}
    (hvalue : Value.Fits schema (.record key) value.target)
    (h : (encodeLeaf settings encode path value plan).Yields bytes ()) :
    bytes.length = size ∧ (greatest ≤ settings.limits.collect → ∀ path' place,
      Value.Fits schema (.record key) place.target → place.isReadOnly = false →
        (decodeLeaf settings decode path' place plan).AcceptsAll size
          fun result => ∃ content, Value.Fits schema (.record key) content ∧
            result = place.withTarget content) := by
  cases hfixed with
  | @record height key recordType sizes hlookup hplain hsizes =>
      generalize hcontent : value.target = content at hvalue
      cases hvalue with
      | @record _ otherType fields hother hcount hfields =>
          rw [hlookup] at hother
          cases hother
          unfold encodeLeaf at h
          rw [hcontent] at h
          simp only [if_pos hwire] at h
          obtain ⟨hlength, hdecode⟩ := regular_fields hchild hplain hsizes ⟨hcount, hfields⟩
            List.drop_zero h
          refine ⟨hlength, fun hcollect path' place hplace hwritable => ?_⟩
          generalize hcurrent : place.target = current at hplace
          cases hplace with
          | @record _ otherType values hother hcount hvalues =>
              rw [hlookup] at hother
              cases hother
              unfold decodeLeaf
              rw [hwritable, hcurrent]
              simp only [if_pos hwire, Bool.false_eq_true, if_false]
              have hdecoded := hdecode hcollect path' values ⟨hcount, hvalues⟩
              refine hdecoded.bimap (fun values' hvalues' => ?_)
              exact ⟨.record recordType.layout values',
                .record hlookup hvalues'.length_eq hvalues'.fits, rfl⟩

/-- The plan for a value of the type behind so many references, without a tag. -/
def Plan.behind (type : HostType) (levels : Nat) : Plan :=
  { Plan.untagged type with indirection := levels }

/-- What is coded behind all references takes as many bytes as its type says. -/
theorem regular_content
    (hchild : Option.Rel (Regular schema settings.limits greatest) encode decode) {type : HostType}
    {levels : Nat} (hfixed : type.FixedSize schema greatest height size)
    (hoptional : ∀ inner, type ≠ .optional inner)
    (hpointer : ∀ kind inner, type ≠ .pointer kind inner) {value : Value}
    (hvalue : Value.Fits schema type value.target)
    (h : (if (Plan.behind type levels).isArray then
        encodeArray encode path value (.behind type levels)
      else encodeLeaf settings encode path value (.behind type levels)).Yields bytes ()) :
    bytes.length = size ∧ (greatest ≤ settings.limits.collect → ∀ path' place,
      Value.Fits schema type place.target → place.isReadOnly = false →
        (if (Plan.behind type levels).isArray then
          decodeArray schema settings decode path' place (.behind type levels)
        else decodeLeaf settings decode path' place (.behind type levels)).AcceptsAll size
          fun result => ∃ content, Value.Fits schema type content ∧
            result = place.withTarget content) := by
  have hsame := hfixed
  cases hfixed with
  | bool => exact regular_scalar hsame rfl hvalue h
  | int => exact regular_scalar hsame rfl hvalue h
  | @array _ length element _ hgreatest helement =>
      obtain ⟨hwire, hbuffer, hencoding⟩ := Plan.codesElements_untagged length element
      have hplan : (Plan.behind (.array length element) levels).CodesElements element :=
        ⟨hwire, hbuffer, hencoding⟩
      exact regular_array hchild hplan rfl hgreatest helement hvalue h
  | optional => exact (hoptional _ rfl).elim
  | owned => exact (hpointer _ _ rfl).elim
  | record => exact regular_record hchild hsame rfl hvalue h

/-- Stripping the references of a value leads to what is coded of it. -/
theorem fits_of_strip {levels : Nat} {type : HostType} {value content : Value}
    (hlevels : levels = type.natural.indirection) (hvalue : Value.Fits schema type value)
    (hstrip : value.strip levels = .ok content) : Value.Fits schema type.core content.target := by
  induction levels generalizing type value with
  | zero =>
      cases hstrip
      rw [HostType.core_of_direct hlevels.symm]
      exact hvalue.target.1
  | succ levels ih =>
      obtain ⟨htarget, -, -⟩ := hvalue.target
      have hpointer := type.target_ne_pointer
      rw [← type.target_natural] at hlevels
      rw [← type.target_core]
      rw [Value.strip] at hstrip
      generalize type.target = targetType at *
      generalize value.target = target at htarget hstrip
      cases htarget with
      | @optional inner held hheld =>
          cases held with
          | none => cases hstrip
          | some held =>
              show Value.Fits schema inner.core content.target
              exact ih (Nat.succ.inj hlevels) (hheld held rfl) hstrip
      | owned => exact (hpointer _ _ rfl).elim
      | _ => cases hlevels

/-- A value of a fixed size accepts any bytes if what is coded of it does. An empty optional is
filled first. -/
theorem acceptsAll_decodeBehind {levels : Nat} {type : HostType} {place : Value}
    {decodeContent : Value → Intake Value Value} (hlevels : levels = type.natural.indirection)
    (hfixed : type.FixedSize schema greatest height size) (hplace : Value.Fits schema type place)
    (hdecode : ∀ place, Value.Fits schema type.core place.target → place.isReadOnly = false →
      (decodeContent place).AcceptsAll size fun result =>
        ∃ content, Value.Fits schema type.core content ∧ result = place.withTarget content) :
    (decodeBehind schema path decodeContent levels place).AcceptsAll size
      (Value.Fits schema type) := by
  induction levels generalizing type place with
  | zero =>
      obtain ⟨htarget, hwritable, hreplace⟩ := hplace.target
      rw [HostType.core_of_direct hlevels.symm] at hdecode
      intro data hdata
      obtain ⟨_, ⟨content, hcontent, rfl⟩, haccepts⟩ := hdecode place htarget hwritable data hdata
      exact ⟨_, hreplace content hcontent, haccepts⟩
  | succ levels ih =>
      obtain ⟨htarget, hwritable, hreplace⟩ := hplace.target
      have hpointer := type.target_ne_pointer
      have hinner := hfixed.target
      rw [← type.target_natural] at hlevels
      rw [← type.target_core] at hdecode
      rw [decodeBehind, hwritable]
      generalize type.target = targetType at *
      generalize place.target = target at htarget
      cases htarget with
      | @optional inner held hheld =>
          cases hinner with
          | optional hinner =>
              have hfilled : Value.Fits schema inner (held.getD (schema.default inner)) := by
                cases held with
                | none => exact hinner.fits_default
                | some held => exact hheld held rfl
              have hless : levels = inner.natural.indirection := Nat.succ.inj hlevels
              refine (ih hless hinner hfilled hdecode).bimap (fun filled hfits => ?_)
              exact hreplace _ (.optional fun value hvalue => by cases hvalue; exact hfits)
      | owned => exact (hpointer _ _ rfl).elim
      | _ => cases hlevels

/-- The encoder and the decoder of a value of a fixed size keep to it if those one step further down
do. -/
theorem regular_with
    (hchild : Option.Rel (Regular schema settings.limits greatest) encode decode) :
    Regular schema settings.limits greatest (encodeWith settings encode)
      (decodeWith schema settings decode) := by
  intro height type size path value bytes hfixed hvalue h
  obtain ⟨hpad, hignore⟩ := type.natural_wire_getD_ne
  have hplan : Plan.untagged type = .behind type.core type.natural.indirection := by
    rw [Plan.behind, Plan.untagged, Plan.untagged, type.core_natural.1, type.core_natural.2]
  have hcontent {value : Value} (hvalue : Value.Fits schema type.core value.target) :=
    @regular_content schema settings greatest height size encode decode path bytes hchild type.core
      type.natural.indirection hfixed.core type.core_ne_optional type.core_ne_pointer value hvalue
  rw [← hplan] at hcontent
  rw [encodeWith_coded hpad hignore] at h
  split at h
  next => exact (Emission.not_yields_fail h).elim
  next content hstrip =>
    obtain ⟨hlength, hdecode⟩ := hcontent (fits_of_strip rfl hvalue hstrip) h
    refine ⟨hlength, fun hcollect path' place hplace => ?_⟩
    rw [decodeWith_coded hpad hignore]
    exact acceptsAll_decodeBehind rfl hfixed hplace (hdecode hcollect path')

/-- The encoder and the decoder keep to fixed sizes down to any depth. -/
theorem regular_below (room : Nat) :
    Option.Rel (Regular schema settings.limits greatest) (encodeBelow settings room)
      (decodeBelow schema settings room) := by
  induction room with
  | zero => exact .none
  | succ room ih =>
      refine .some ?_
      rw [encodeIn_eq, decodeIn_eq]
      exact regular_with ih

end content

end PackedRecord
