import PackedRecord.Proofs.Dispatch
import PackedRecord.Proofs.NarrowLimits

/-!
# The depth that a value needs

`Value.need` is the number of steps that the recursion limit has to allow so that a value can be
encoded: one for each field of a record and each element of an array on the way to what lies
deepest, but none for references, for bytes that are written at once and for what is not encoded at
all. `reaches_encodeIn` says that the encoder needs exactly so much room, step by step, and
`Packer.packAs_withRecursion` says it of whole values.
-/

namespace PackedRecord

/-- Bytes as values of the wire type are written at once. -/
def WireType.isBulk (wire : WireType) : Bool :=
  wire = .byte ∨ wire = .uint8

/-- The wire type of an element of an array of the wire type, which may leave it open. -/
def WireType.ofItem (wire : WireType) (item : Value) : WireType :=
  if wire = .any then item.natural.wire.getD .any else wire

namespace Tag

/-- The value is padding or ignored. -/
def isSkipped (tag : Tag) : Bool :=
  tag.wire = some .pad ∨ tag.wire = some .ignore

/-- The wire type of a value under the tag, if it has one. -/
def wireOf (tag : Tag) (value : Value) : WireType :=
  (tag.wire <|> value.natural.wire).getD .any

/-- Whether a value is an array under the tag. -/
def isArrayOf (tag : Tag) (value : Value) : Bool :=
  match tag.brackets with
  | .absent => value.natural.isArray
  | .blank | .length _ => true

end Tag

mutual

/-- The number of steps that encoding a value as the wire type takes at most on the way to a value
inside it. -/
def Value.need (wire : WireType) (isArray : Bool) : Value → Nat
  | .scalar _ | .foreign _ => if isArray then 1 else 0
  | .text content | .borrowedText content =>
      if isArray then (if wire.isNumeric ∧ (wire.isBulk ∨ content = "") then 0 else 1) else 0
  | .sequence _ element items =>
      if wire.isBulk ∧ (Value.bytes? element items).isSome then 0
      else Value.needOfItems wire items
  | .optional _ (some content) | .dynamic (some content) => Value.need wire isArray content
  | .optional _ none | .dynamic none => 0
  | .pointer _ target => Value.need wire isArray target
  | .record layout values => Value.needOfFields layout.fields values

/-- The steps for the elements of an array of the wire type, one by one. -/
def Value.needOfItems (wire : WireType) : List Value → Nat
  | [] => 0
  | item :: items =>
      max (1 + Value.need (wire.ofItem item) item.natural.isArray item)
        (Value.needOfItems wire items)

/-- The steps for the values of fields. -/
def Value.needOfFields : List FieldLayout → List Value → Nat
  | fields, [] => if fields.any (·.exported) then 1 else 0
  | [], _ :: _ => 0
  | field :: fields, value :: values =>
      let inner :=
        match field.tag with
        | .error _ => 0
        | .ok tag =>
            if tag.isSkipped then 0
            else Value.need (tag.wireOf value) (tag.isArrayOf value) value
      max (if field.exported then 1 + inner else 0) (Value.needOfFields fields values)

end

/-- The number of steps that encoding a value under the tag takes at most. -/
def Tag.need (tag : Tag) (value : Value) : Nat :=
  if tag.isSkipped then 0 else value.need (tag.wireOf value) (tag.isArrayOf value)

/-- The number of steps that encoding a value by the plan takes at most. -/
def Plan.need (plan : Plan) (value : Value) : Nat :=
  if plan.wire = .pad ∨ plan.wire = .ignore then 0 else value.need plan.wire plan.isArray

/-- The number of steps for a field whose value is given, if it has one. -/
def FieldLayout.need (field : FieldLayout) (value : Option Value) : Nat :=
  if field.exported then
    1 + match field.tag, value with
      | .ok tag, some value => tag.need value
      | _, _ => 0
  else 0

/-- The number of steps for the elements of an array, which may be written at once. -/
def Elements.need (wire : WireType) (elements : Elements) : Nat :=
  if wire.isBulk ∧ elements.bytes.isSome then 0 else Value.needOfItems wire elements.items

namespace Value

/-- Fields need what the first one needs and what the other ones need. -/
theorem needOfFields_cons (field : FieldLayout) (fields : List FieldLayout)
    (values : List Value) :
    needOfFields (field :: fields) values =
      max (field.need values.head?) (needOfFields fields values.tail) := by
  cases values with
  | nil =>
      show (if (field :: fields).any (·.exported) then 1 else 0) =
        max (field.need none) (needOfFields fields [])
      cases hexported : field.exported <;> cases hrest : fields.any (·.exported) <;>
        simp [FieldLayout.need, needOfFields, hexported, hrest]
  | cons value values =>
      show max _ _ = max _ _
      congr 1
      unfold FieldLayout.need
      cases field.tag <;> rfl

/-- Pointers need nothing. -/
theorem need_target (wire : WireType) (isArray : Bool) (value : Value) :
    value.target.need wire isArray = value.need wire isArray := by
  fun_induction Value.target value
  case case1 kind value ih => exact ih
  case case2 => rfl

/-- References need nothing. -/
theorem need_of_strip {wire : WireType} {isArray : Bool} {levels : Nat} {value content : Value}
    (h : value.strip levels = .ok content) :
    content.need wire isArray = value.need wire isArray := by
  fun_induction Value.strip levels value
  case case1 =>
    cases h
    rfl
  case case2 levels value type inner htarget ih =>
    rw [ih h, ← need_target wire isArray value, htarget, need]
  case case3 levels value inner htarget ih =>
    rw [ih h, ← need_target wire isArray value, htarget, need]
  case case4 | case5 => cases h
  case case6 =>
    cases h
    rfl

/-- Bytes one by one need a step, if there are any. -/
theorem needOfItems_bytes (wire : WireType) (bytes : Bytes) :
    needOfItems wire (bytes.map ofByte) = if bytes = [] then 0 else 1 := by
  induction bytes with
  | nil => rfl
  | cons byte bytes ih =>
      have hbyte :
          (ofByte byte).need (wire.ofItem (ofByte byte)) (ofByte byte).natural.isArray = 0 :=
        rfl
      rw [List.map_cons, needOfItems, hbyte, ih, if_neg (List.cons_ne_nil _ _)]
      split <;> rfl

end Value

namespace Plan

variable {plan itemPlan : Plan} {path : Path} {value item : Value} {tag : Tag}
  {record : Option Record}

/-- The wire type of an element is that of the array, or the natural one if that is open. -/
theorem wire_of_elementWire {wire wire' : WireType} (hpad : wire ≠ .pad) (hignore : wire ≠ .ignore)
    (h : elementWire path wire item = .ok wire') : wire' = wire.ofItem item := by
  unfold elementWire at h
  unfold WireType.ofItem
  split at h <;> simp_all

/-- A plan needs what the tag needs that it was resolved from. -/
theorem need_of_resolve (h : resolve path value tag record = .ok plan) :
    plan.need value = tag.need value := by
  obtain ⟨hwire, harray, -⟩ := parts_of_resolve h
  have hisArray : plan.isArray = tag.isArrayOf value := by
    unfold resolveArray at harray
    unfold Tag.isArrayOf
    cases hbrackets : tag.brackets with
    | absent | blank =>
        rw [hbrackets] at harray
        exact (congrArg Prod.fst (Except.ok.inj harray)).symm
    | length expr => exact (eval_of_resolve_length h hbrackets).1
  have hof : plan.wire = tag.wireOf value := wire_of_resolveWire hwire
  have hskipped : (plan.wire = .pad ∨ plan.wire = .ignore) ↔ tag.isSkipped = true := by
    obtain ⟨hpad, hignore⟩ := skipped_iff_of_resolve h
    rw [hpad, hignore, Tag.isSkipped, decide_eq_true_eq]
  unfold need Tag.need
  by_cases hskip : tag.isSkipped = true
  · rw [if_pos hskip, if_pos (hskipped.2 hskip)]
  · rw [if_neg hskip, if_neg (fun hwire => hskip (hskipped.1 hwire)), hof, hisArray]

/-- An element of an array needs what its own wire type needs. -/
theorem need_of_element (hpad : plan.wire ≠ .pad) (hignore : plan.wire ≠ .ignore)
    (h : plan.element path item = .ok itemPlan) :
    itemPlan.need item = item.need (plan.wire.ofItem item) item.natural.isArray := by
  have hnatural := item.natural_wire_ne
  unfold element at h
  cases hwire : elementWire path plan.wire item with
  | error error =>
      rw [hwire] at h
      cases h
  | ok wire =>
      rw [hwire] at h
      cases h
      have hof := wire_of_elementWire hpad hignore hwire
      have hcoded : ¬ (wire = .pad ∨ wire = .ignore) := by
        rw [hof, WireType.ofItem]
        split
        next =>
          cases hitem : item.natural.wire with
          | none => simp
          | some own => simpa [hitem] using hnatural
        next => exact not_or.2 ⟨hpad, hignore⟩
      rw [← hof]
      exact if_neg hcoded

end Plan

namespace Emission

variable {α β : Type}

/-- The emission is `free` if there is enough room, and ends at the recursion limit otherwise. -/
structure Reaches (limited : Emission α) (enough : Prop) (free : Emission α) : Prop where
  same : enough → limited = free
  cut : ¬ enough → ∃ path, limited.outcome = .error (.located path .recursionLimit)

variable {limited free : Emission α} {enough enough' : Prop} {bytes : Bytes} {result : α}

/-- With enough room, an emission reaches itself. -/
theorem reaches_self (h : enough) (emission : Emission α) : emission.Reaches enough emission :=
  ⟨fun _ => rfl, fun hcut => absurd h hcut⟩

/-- Without enough room, an emission ends at the recursion limit. -/
theorem reaches_fail (h : ¬ enough) (path : Path) (free : Emission α) :
    (fail (.located path .recursionLimit) : Emission α).Reaches enough free :=
  ⟨fun henough => absurd henough h, fun _ => ⟨path, rfl⟩⟩

/-- What follows an emission that fails does not change its error. -/
theorem outcome_bind_of_error {emission : Emission α} {error : Error}
    (h : emission.outcome = .error error) (next : α → Emission β) :
    (emission >>= next).outcome = .error error := by
  obtain ⟨writes, outcome⟩ := emission
  cases h
  rfl

namespace Reaches

/-- Only how much room is enough matters, not how that is said. -/
theorem of_iff (h : limited.Reaches enough free) (hiff : enough' ↔ enough) :
    limited.Reaches enough' free :=
  ⟨fun henough => h.same (hiff.1 henough), fun hcut => h.cut fun henough => hcut (hiff.2 henough)⟩

/-- What comes behind does not matter if it needs no room. -/
theorem bind_same (h : limited.Reaches enough free) (next : α → Emission β) :
    (limited >>= next).Reaches enough (free >>= next) := by
  constructor
  · intro henough
    rw [h.same henough]
  · intro hcut
    obtain ⟨path, houtcome⟩ := h.cut hcut
    exact ⟨path, outcome_bind_of_error houtcome next⟩

/-- Of two parts, each one has to have enough room. -/
theorem bind {f g : α → Emission β} (hyields : free.Yields bytes result)
    (h : limited.Reaches enough free) (hnext : (f result).Reaches enough' (g result)) :
    (limited >>= f).Reaches (enough ∧ enough') (free >>= g) := by
  obtain ⟨writes, outcome⟩ := free
  obtain ⟨rfl, -⟩ := hyields
  constructor
  · rintro ⟨henough, henough'⟩
    rw [h.same henough]
    show Emission.bind _ _ = Emission.bind _ _
    simp only [Emission.bind, hnext.same henough']
  · intro hcut
    by_cases henough : enough
    · obtain ⟨path, houtcome⟩ := hnext.cut fun henough' => hcut ⟨henough, henough'⟩
      rw [h.same henough]
      exact ⟨path, houtcome⟩
    · obtain ⟨path, houtcome⟩ := h.cut henough
      exact ⟨path, outcome_bind_of_error houtcome f⟩

/-- An emission reaches as far with its size as its result. -/
theorem sized (h : limited.Reaches enough free) : limited.sized.Reaches enough free.sized := by
  constructor
  · intro henough
    rw [h.same henough]
  · intro hcut
    obtain ⟨path, houtcome⟩ := h.cut hcut
    exact ⟨path, congrArg (Except.map fun _ => limited.size) houtcome⟩

end Reaches

end Emission

section steps

variable {settings : Settings} {path : Path} {plan : Plan} {bytes : Bytes} {room : Nat}
  {free : Option ChildEncoder}

/-- Whatever this encoder encodes one step further down is encoded in any room in the same way if
there is as much as it needs, and not at all otherwise. -/
def ReachesBelow (settings : Settings) (free : Option ChildEncoder) : Prop :=
  ∀ encode, free = some encode → ∀ {path : Path} {value : Value} {plan : Plan} {bytes : Bytes},
    plan.indirection = value.natural.indirection → (encode path value plan).Yields bytes () →
    ∀ room, (encodeIn settings room path value plan).Reaches (plan.need value ≤ room)
      (encode path value plan)

/-- Elements need the room of the one that needs most. -/
theorem reaches_encodeElements (hfree : ReachesBelow settings free) (hpad : plan.wire ≠ .pad)
    (hignore : plan.wire ≠ .ignore) {index : Nat} {last last' : Option Nat} {items : List Value}
    (h : (encodeElements free path plan index last items).Yields bytes last') (room : Nat) :
    (encodeElements (encodeBelow settings room) path plan index last items).Reaches
      (Value.needOfItems plan.wire items ≤ room)
      (encodeElements free path plan index last items) := by
  induction items generalizing index last bytes with
  | nil => exact Emission.reaches_self (Nat.zero_le room) _
  | cons item items ih =>
      obtain ⟨encode, itemPlan, front, back, rfl, hplan, hitem, hrest, -⟩ :=
        yields_encodeElements_cons.1 h
      have hneed := Plan.need_of_element hpad hignore hplan
      cases room with
      | zero =>
          refine Emission.reaches_fail ?_ path _
          rw [Value.needOfItems]
          omega
      | succ room =>
          have hfirst := hfree encode rfl (Plan.Matches.of_element hplan).indirection_eq hitem room
          simp only [encodeElements, encodeBelow, descend, hplan, Emission.pure_eq,
            Emission.ofExcept_ok_bind]
          refine Emission.Reaches.of_iff (Emission.Reaches.bind
            (Emission.yields_sized.2 ⟨(), hitem, rfl⟩) hfirst.sized (ih hrest)) ?_
          rw [Value.needOfItems, hneed]
          omega

/-- What an array stores needs no room if it is written at once, and that of its elements
otherwise. -/
theorem reaches_encodeItems (hfree : ReachesBelow settings free) (hpad : plan.wire ≠ .pad)
    (hignore : plan.wire ≠ .ignore) {elements : Elements} {last : Option Nat}
    (h : (encodeItems free path plan elements).Yields bytes last) (room : Nat) :
    (encodeItems (encodeBelow settings room) path plan elements).Reaches
      (elements.need plan.wire ≤ room) (encodeItems free path plan elements) := by
  unfold encodeItems Elements.need WireType.isBulk at *
  cases hbytes : elements.bytes with
  | none =>
      simp only [hbytes, Option.isSome_none, Bool.false_eq_true, and_false, if_false] at h ⊢
      exact reaches_encodeElements hfree hpad hignore h room
  | some content =>
      by_cases hbulk : plan.wire = .byte ∨ plan.wire = .uint8
      · simp only [hbulk, if_true, decide_true, Option.isSome_some, and_self]
        exact Emission.reaches_self (Nat.zero_le room) _
      · simp only [hbytes, hbulk, if_false, decide_false, Bool.false_eq_true, false_and] at h ⊢
        exact reaches_encodeElements hfree hpad hignore h room

namespace Elements

variable {value : Value} {elements : Elements} {wire : WireType}

/-- A value that needs no room by itself needs one step as an element. -/
theorem need_single (natural : Natural)
    (h : value.target.need (wire.ofItem value) value.target.natural.isArray = 0) :
    need wire ⟨[value], none, natural⟩ = 1 := by
  rw [Value.natural_target, Value.need_target] at h
  simp only [need, Option.isSome_none, Bool.false_eq_true, and_false, if_false,
    Value.needOfItems, h]
  rfl

/-- A string as an array of numbers needs a step unless it is written at once or empty, and any
other array of it one for the string itself. -/
theorem need_of_text {content : String} (htext : value.text? = some content)
    (h : Elements.of path value wire = .ok elements) :
    elements.need wire =
      if wire.isNumeric ∧ (wire.isBulk ∨ content = "") then 0 else 1 := by
  have hempty : content = "" ↔ Text.Utf8.encode content = [] := by
    rw [← List.length_eq_zero_iff, Text.Utf8.length_encode, String.utf8ByteSize_eq_zero_iff]
  have htarget : value.target = .text content ∨ value.target = .borrowedText content := by
    unfold Value.text? at htext
    split at htext <;> simp_all
  have hof : Elements.of path value wire =
      .ok (if wire.isNumeric then
        ⟨(Text.Utf8.encode content).map Value.ofByte, some (Text.Utf8.encode content),
          HostType.byte.natural⟩
        else ⟨[value], none, value.natural⟩) := by
    unfold Elements.of
    rcases htarget with htarget | htarget <;> rw [htarget] <;> exact (apply_ite _ _ _ _).symm
  rw [hof] at h
  cases h
  by_cases hnumeric : wire.isNumeric = true
  · rw [if_pos hnumeric]
    simp only [need, Value.needOfItems_bytes, hnumeric, hempty, Option.isSome_some]
    by_cases hbulk : wire.isBulk = true <;> simp [hbulk]
  · rw [if_neg hnumeric, if_neg fun hboth => hnumeric hboth.1, need_single]
    rcases htarget with htarget | htarget <;> rw [htarget] <;> rfl

end Elements

/-- An array needs what its elements need. -/
theorem Value.need_of_elements {value : Value} {elements : Elements} {wire : WireType}
    (hdirect : value.natural.indirection = 0)
    (h : Elements.of path value wire = .ok elements) :
    value.need wire true = elements.need wire := by
  have hform := Value.form_of_direct hdirect
  have htext {content : String} (htext : value.text? = some content) :=
    Elements.need_of_text htext h
  unfold Value.form at hform
  unfold Elements.of at h
  unfold Value.text? at htext
  rw [← Value.need_target]
  cases htarget : value.target with
  | scalar content | foreign name =>
      rw [htarget] at h
      cases h
      refine (Elements.need_single _ ?_).symm
      rw [htarget]
      rfl
  | text content | borrowedText content => exact (htext (by rw [htarget])).symm
  | sequence kind element items =>
      rw [htarget] at h
      cases h
      rfl
  | optional type content => exact absurd (by rw [htarget]) hform.1
  | dynamic content => exact absurd (by rw [htarget]) hform.2
  | pointer kind inner => exact absurd htarget (value.target_ne_pointer kind inner)
  | record layout values =>
      rw [htarget] at h
      cases h

/-- An array is encoded if there is the room that its elements need. -/
theorem reaches_encodeArray (hfree : ReachesBelow settings free) (hpad : plan.wire ≠ .pad)
    (hignore : plan.wire ≠ .ignore) {value : Value} (hdirect : value.natural.indirection = 0)
    (h : (encodeArray free path value plan).Yields bytes ()) (room : Nat) :
    (encodeArray (encodeBelow settings room) path value plan).Reaches
      (value.need plan.wire true ≤ room) (encodeArray free path value plan) := by
  rw [encodeArray_eq] at h ⊢
  rw [encodeArray_eq]
  cases hof : Elements.of path value plan.wire with
  | error error =>
      rw [hof] at h
      exact (Emission.not_yields_fail h).elim
  | ok elements =>
      simp only [hof, Emission.ofExcept_ok_bind] at h ⊢
      rw [Value.need_of_elements hdirect hof]
      split at h
      next => exact (Emission.not_yields_fail h).elim
      next hfits =>
        rw [if_neg hfits, if_neg hfits]
        obtain ⟨front, last, back, -, hitems, -⟩ := Emission.yields_bind.1 h
        exact (reaches_encodeItems hfree hpad hignore hitems room).bind_same _

/-- A field needs one step and the room of its value. -/
theorem reaches_encodeField (hfree : ReachesBelow settings free) {record : Record} {index : Nat}
    {field : FieldLayout} (h : (encodeField free path record index field).Yields bytes ())
    (room : Nat) :
    (encodeField (encodeBelow settings room) path record index field).Reaches
      (field.need record.fields[index]? ≤ room) (encodeField free path record index field) := by
  unfold FieldLayout.need
  rcases yields_encodeField h with
    ⟨hprivate, -⟩ | ⟨encode, tag, rfl, hexported, htag, hcase⟩
  · simp only [encodeField, hprivate, Bool.false_eq_true, if_false]
    exact Emission.reaches_self (Nat.zero_le room) _
  rw [if_pos hexported]
  cases room with
  | zero =>
      simp only [encodeField, hexported, if_true, encodeBelow, descend]
      exact Emission.reaches_fail (by omega) path _
  | succ room =>
      simp only [encodeField, hexported, if_true, encodeBelow, descend, htag, Emission.pure_eq,
        Emission.ofExcept_ok_bind]
      rcases hcase with ⟨hignore, -⟩ | ⟨hignore, value, plan, hvalue, hplan, hyields⟩
      · have hneed (value : Value) : tag.need value = 0 := by
          rw [Tag.need, if_pos (by simp [Tag.isSkipped, hignore])]
        simp only [hignore, if_true]
        refine Emission.reaches_self ?_ _
        cases record.fields[index]? <;> simp [hneed]
      · have hfield : record.field index = .ok value := by
          rw [Record.field, hvalue]
        have hindirection := (Plan.parts_of_resolve hplan).2.2.2.1
        simp only [hignore, if_false, hfield, hplan, Emission.ofExcept_ok_bind, hvalue]
        refine Emission.Reaches.of_iff (hfree encode rfl hindirection hyields room) ?_
        rw [Plan.need_of_resolve hplan]
        omega

/-- Fields need the room of the one that needs most. -/
theorem reaches_encodeFields (hfree : ReachesBelow settings free) {record : Record} {index : Nat}
    {fields : List FieldLayout}
    (h : (encodeFields free path record index fields).Yields bytes ()) (room : Nat) :
    (encodeFields (encodeBelow settings room) path record index fields).Reaches
      (Value.needOfFields fields (record.fields.drop index) ≤ room)
      (encodeFields free path record index fields) := by
  induction fields generalizing index bytes with
  | nil =>
      refine Emission.reaches_self ?_ _
      cases record.fields.drop index <;> exact Nat.zero_le room
  | cons field fields ih =>
      obtain ⟨front, back, hfield, hrest, -⟩ := yields_encodeFields_cons.1 h
      rw [encodeFields_cons, encodeFields_cons]
      refine Emission.Reaches.of_iff
        ((reaches_encodeField hfree hfield room).bind hfield (ih hrest)) ?_
      rw [Value.needOfFields_cons, List.head?_drop, List.tail_drop, Nat.max_le]

/-- A value that is no array is encoded if there is the room that its fields need, if it has any. -/
theorem reaches_encodeLeaf (hfree : ReachesBelow settings free) {value : Value}
    (h : (encodeLeaf settings free path value plan).Yields bytes ()) (room : Nat) :
    (encodeLeaf settings (encodeBelow settings room) path value plan).Reaches
      (value.need plan.wire false ≤ room) (encodeLeaf settings free path value plan) := by
  unfold encodeLeaf at *
  rw [← Value.need_target]
  cases htarget : value.target with
  | record layout values =>
      simp only [htarget] at h ⊢
      split at h
      next hstruct =>
        rw [if_pos hstruct, if_pos hstruct]
        exact reaches_encodeFields hfree h room
      next => exact (Emission.not_yields_fail h).elim
  | text content | borrowedText content | scalar content =>
      exact Emission.reaches_self (Nat.zero_le room) _
  | sequence kind element items | optional type content | dynamic content | foreign name =>
      rw [htarget] at h
      exact (Emission.not_yields_fail h).elim
  | pointer kind inner => exact absurd htarget (value.target_ne_pointer kind inner)

/-- A value needs the room that its plan says. -/
theorem reaches_encodeWith (hfree : ReachesBelow settings free) {value : Value}
    (hindirection : plan.indirection = value.natural.indirection)
    (h : (encodeWith settings free path value plan).Yields bytes ()) (room : Nat) :
    (encodeWith settings (encodeBelow settings room) path value plan).Reaches
      (plan.need value ≤ room) (encodeWith settings free path value plan) := by
  unfold Plan.need
  by_cases hskipped : plan.wire = .pad ∨ plan.wire = .ignore
  · rw [if_pos hskipped]
    unfold encodeWith
    rcases hskipped with hwire | hwire <;> rw [hwire] <;>
      exact Emission.reaches_self (Nat.zero_le room) _
  rw [if_neg hskipped]
  obtain ⟨hpad, hignore⟩ := not_or.1 hskipped
  rw [encodeWith_coded hpad hignore] at h ⊢
  rw [encodeWith_coded hpad hignore]
  cases hstrip : value.strip plan.indirection with
  | error fault =>
      rw [hstrip] at h
      exact (Emission.not_yields_fail h).elim
  | ok content =>
      have hleads := Value.leads_of_strip (Nat.le_of_eq hindirection) hstrip
      have hdirect : content.natural.indirection = 0 := by
        have hleft := hleads.indirection_eq
        omega
      simp only [hstrip] at h ⊢
      rw [← Value.need_of_strip hstrip]
      cases harray : plan.isArray with
      | true =>
          simp only [harray, if_true] at h ⊢
          exact reaches_encodeArray hfree hpad hignore hdirect h room
      | false =>
          simp only [harray, Bool.false_eq_true, if_false] at h ⊢
          exact reaches_encodeLeaf hfree h room

end steps

/-- A value that is encoded in some room is encoded in the same way in any room that is as large as
it needs. In any smaller room, encoding it ends at the recursion limit. -/
theorem reaches_encodeIn (settings : Settings) {ample : Nat} {path : Path} {value : Value}
    {plan : Plan} {bytes : Bytes} (hindirection : plan.indirection = value.natural.indirection)
    (h : (encodeIn settings ample path value plan).Yields bytes ()) (room : Nat) :
    (encodeIn settings room path value plan).Reaches (plan.need value ≤ room)
      (encodeIn settings ample path value plan) := by
  induction ample generalizing path value plan bytes room with
  | zero =>
      rw [encodeIn_eq settings room]
      exact reaches_encodeWith (fun encode hnone => by cases hnone) hindirection h room
  | succ ample ih =>
      have hfree : ReachesBelow settings (some (encodeIn settings ample)) := by
        rintro _ ⟨⟩ path value plan bytes hindirection hyields room
        exact ih hindirection hyields room
      rw [encodeIn_eq settings room]
      exact reaches_encodeWith hfree hindirection h room

/-- Limits matter to the encoder by the room that they leave only. -/
theorem encodeIn_under (settings : Settings) (limits : Limits) (room : Nat) :
    encodeIn (settings.under limits) room = encodeIn settings room := by
  induction room with
  | zero => rfl
  | succ room ih =>
      show encodeWith _ (some (encodeIn (settings.under limits) room)) = _
      rw [ih]
      rfl

namespace Packer

variable {packer : Packer} {order : ByteOrder} {tag : Tag} {value : Value} {bytes : Bytes}

/-- Packing gives the bytes of the emission, unless that fails. -/
theorem packAs_eq (packer : Packer) (order : ByteOrder) (tag : Tag) (value : Value) :
    packer.packAs order tag value =
      (encodeTagged (packer.settings order) tag value).outcome.map fun _ =>
        (encodeTagged (packer.settings order) tag value).bytes := by
  simp only [packAs, encoder, Encoder.encodeAs, Encoder.run, Sink.unbounded, Sink.absorb_willing,
    Emission.sized]
  cases (encodeTagged (packer.settings order) tag value).outcome with
  | error => rfl
  | ok => simp [Except.map, Sink.willing, Emission.bytes]

/-- The packer with another recursion limit. -/
def withRecursion (packer : Packer) (limit : Nat) : Packer :=
  { packer with limits := { packer.limits with recursion := limit } }

/-- A whole value is encoded exactly under the limits that its tag needs. -/
theorem reaches_encodeTagged (h : packer.packAs order tag value = .ok bytes) (limit : Nat) :
    (encodeTagged ((packer.withRecursion limit).settings order) tag value).Reaches
      (tag.need value ≤ limit) (encodeTagged (packer.settings order) tag value) := by
  have hyields := yields_of_packAs h
  unfold encodeTagged at *
  cases hplan : Plan.resolve .top value tag none with
  | error error =>
      rw [hplan] at hyields
      exact (Emission.not_yields_fail hyields).elim
  | ok plan =>
      rw [hplan, Emission.ofExcept_ok_bind] at hyields
      rw [Emission.ofExcept_ok_bind, Emission.ofExcept_ok_bind, ← Plan.need_of_resolve hplan]
      have hreaches := reaches_encodeIn _ (Plan.parts_of_resolve hplan).2.2.2.1 hyields limit
      rwa [← encodeIn_under _ (packer.withRecursion limit).limits] at hreaches

/-- The recursion limit is exact. A value that is packed to some bytes is packed to the same bytes
by a packer with any recursion limit that is no less than what the value needs, and packing it fails
for its depth under any lower one. -/
theorem packAs_withRecursion (h : packer.packAs order tag value = .ok bytes) (limit : Nat) :
    (tag.need value ≤ limit → (packer.withRecursion limit).packAs order tag value = .ok bytes) ∧
    (limit < tag.need value → ∃ path, (packer.withRecursion limit).packAs order tag value =
      .error (.located path .recursionLimit)) := by
  have hreaches := reaches_encodeTagged h limit
  rw [packAs_eq] at h ⊢
  constructor
  · intro henough
    rw [hreaches.same henough, h]
  · intro hcut
    obtain ⟨path, houtcome⟩ := hreaches.cut (Nat.not_le.2 hcut)
    exact ⟨path, by rw [houtcome]; rfl⟩

/-- A record with two words in it. -/
def twoWords : Value :=
  .record (.build "Words" [⟨"id", "", true⟩, ⟨"words", "[]uint16", true⟩])
    [.ofByte 1, .sequence .growable .byte [.ofByte 7, .ofByte 9]]

/-- A step to the field and one to its elements are enough, but not one of them. -/
theorem packAs_withRecursion_words :
    ({} : Packer).packAs .bigEndian .empty twoWords = .ok [1, 0, 7, 0, 9] ∧
    (({} : Packer).withRecursion 2).packAs .bigEndian .empty twoWords = .ok [1, 0, 7, 0, 9] ∧
    ∃ path, (({} : Packer).withRecursion 1).packAs .bigEndian .empty twoWords =
      .error (.located path .recursionLimit) := by
  have hpack : ({} : Packer).packAs .bigEndian .empty twoWords = .ok [1, 0, 7, 0, 9] := by cbv
  have hneed : Tag.empty.need twoWords = 2 := by cbv
  refine ⟨hpack, (packAs_withRecursion hpack 2).1 ?_, (packAs_withRecursion hpack 1).2 ?_⟩
  · rw [hneed]
  · rw [hneed]
    decide

end Packer

end PackedRecord
