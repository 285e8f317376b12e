import PackedRecord.Host.Access
import PackedRecord.Limits
import PackedRecord.Plan

/-!
# How a destination evolves

`Evolves` says which changes decoding makes to a destination, one after another: it assigns scalars
and strings, reads bytes into a sequence, changes the length of a sequence and fills an empty
optional, each at a place in the value. Which assignments are allowed is a parameter;
`Evolves.vectorsWithin` and `Evolves.text_within` say what follows for vectors and for strings if
they keep within limits.
-/

namespace PackedRecord

/-- What decoding puts at one place of a destination. -/
inductive Assignment where
  /-- A scalar. -/
  | scalar (place : Path) (value : Scalar)
  /-- A string that was decoded by a plan. -/
  | text (place : Path) (plan : Plan) (value : String)
  /-- A string that was decoded from an array of numbers. -/
  | numbers (place : Path) (value : String)
  /-- Bytes that were read at once into a sequence. -/
  | bytes (place : Path) (data : Bytes)
  /-- A new length of a sequence. -/
  | length (place : Path) (count : Nat)

/-- The assignment keeps within the limits: scalars, strings and runs of bytes do not lie too deep,
and strings and sequences are not too long. A string that comes from a text encoding is as long as
the codec makes it. -/
def Assignment.Within (limits : Limits) : Assignment → Prop
  | scalar place _ => place.depth ≤ limits.recursion
  | text place plan value =>
      place.depth ≤ limits.recursion ∧
        (plan.encoding = none → value.utf8ByteSize ≤ limits.blob)
  | numbers place value =>
      place.depth ≤ limits.recursion ∧ value.utf8ByteSize ≤ limits.collect
  | bytes place _ => place.depth ≤ limits.recursion
  | length _ count => count ≤ limits.collect

/-- By allowed assignments the first value becomes the second one, while it is decoded into at
`path` by its plan. The plan says what may be assigned: scalars and strings if it is no array, a
string from numbers and the elements of a sequence if it is one. -/
inductive Evolves (schema : Schema) (allowed : Assignment → Prop) :
    (path : Path) → (plan : Plan) → Value → Value → Prop where
  | refl (path : Path) (plan : Plan) (value : Value) :
      Evolves schema allowed path plan value value
  | trans {path : Path} {plan : Plan} {first second third : Value}
      (hfirst : Evolves schema allowed path plan first second)
      (hsecond : Evolves schema allowed path plan second third) :
      Evolves schema allowed path plan first third
  | scalar {path : Path} {plan : Plan} (old : Scalar) {new : Scalar}
      (harray : plan.isArray = false) (hwire : plan.wire.isNumeric = true)
      (h : allowed (.scalar path new)) :
      Evolves schema allowed path plan (.scalar old) (.scalar new)
  | text {path : Path} {plan : Plan} (old : String) {new : String}
      (harray : plan.isArray = false) (hwire : plan.wire.isText = true)
      (h : allowed (.text path plan new)) :
      Evolves schema allowed path plan (.text old) (.text new)
  | numbers {path : Path} {plan : Plan} (old : String) {new : String}
      (harray : plan.isArray = true) (hwire : plan.wire.isNumeric = true)
      (h : allowed (.numbers path new)) :
      Evolves schema allowed path plan (.text old) (.text new)
  /-- A run of bytes takes the place of the first elements. -/
  | bytes {path : Path} {plan : Plan} {kind : SequenceKind} {items : List Value} {data : Bytes}
      (harray : plan.isArray = true) (hwire : plan.wire = .byte ∨ plan.wire = .uint8)
      (hlength : data.length ≤ items.length) (h : allowed (.bytes path data)) :
      Evolves schema allowed path plan (.sequence kind .byte items)
        (.sequence kind .byte (data.map Value.ofByte ++ items.drop data.length))
  | resize {path : Path} {plan : Plan} {element : HostType} {items : List Value} {count : Nat}
      (harray : plan.isArray = true) (h : allowed (.length path count)) :
      Evolves schema allowed path plan (.sequence .growable element items)
        (.sequence .growable element (resized (schema.default element) count items))
  | fill {path : Path} {plan : Plan} (type : HostType) :
      Evolves schema allowed path plan (.optional type none)
        (.optional type (some (schema.default type)))
  | optional {path : Path} {plan : Plan} {type : HostType} {content content' : Value}
      (h : Evolves schema allowed path plan content content') :
      Evolves schema allowed path plan (.optional type (some content))
        (.optional type (some content'))
  | dynamic {path : Path} {plan : Plan} {content content' : Value}
      (h : Evolves schema allowed path plan content content') :
      Evolves schema allowed path plan (.dynamic (some content)) (.dynamic (some content'))
  | pointer {path : Path} {plan : Plan} {kind : PointerKind} {target target' : Value}
      (h : Evolves schema allowed path plan target target') :
      Evolves schema allowed path plan (.pointer kind target) (.pointer kind target')
  | element {path : Path} {plan itemPlan : Plan} {kind : SequenceKind} {type : HostType}
      {items : List Value} {index : Nat} {item item' : Value} (harray : plan.isArray = true)
      (hitem : items[index]? = some item)
      (hplan : plan.element (.index index :: path) item = .ok itemPlan)
      (h : Evolves schema allowed (.index index :: path) itemPlan item item') :
      Evolves schema allowed path plan (.sequence kind type items)
        (.sequence kind type (items.set index item'))
  /-- A value that is no sequence is the only element of its array. -/
  | single {path : Path} {plan itemPlan : Plan} {value value' : Value}
      (harray : plan.isArray = true)
      (hsingle : ∀ kind element items, value.target ≠ .sequence kind element items)
      (hplan : plan.element (.index 0 :: path) value = .ok itemPlan)
      (h : Evolves schema allowed (.index 0 :: path) itemPlan value value') :
      Evolves schema allowed path plan value value'
  | field {path : Path} {plan fieldPlan : Plan} {layout : Layout} {fields : List Value}
      {index : Nat} {field : FieldLayout} {tag : Tag} {value value' : Value}
      (harray : plan.isArray = false) (hwire : plan.wire = .struct)
      (hfield : layout.fields[index]? = some field) (hexported : field.exported = true)
      (htag : field.tag = .ok tag) (hignore : tag.wire ≠ some .ignore)
      (hvalue : fields[index]? = some value)
      (hplan : Plan.resolve (.field field.name :: path) value tag (some ⟨layout, fields⟩) =
        .ok fieldPlan)
      (h : Evolves schema allowed (.field field.name :: path) fieldPlan value value') :
      Evolves schema allowed path plan (.record layout fields)
        (.record layout (fields.set index value'))

/-- Every growable sequence in the value has at most `limit` elements. -/
inductive Value.VectorsWithin (limit : Nat) : Value → Prop where
  | scalar (content : Scalar) : VectorsWithin limit (.scalar content)
  | text (content : String) : VectorsWithin limit (.text content)
  | borrowedText (content : String) : VectorsWithin limit (.borrowedText content)
  | sequence {kind : SequenceKind} {element : HostType} {items : List Value}
      (hlength : kind = .growable → items.length ≤ limit)
      (hitems : ∀ item ∈ items, VectorsWithin limit item) :
      VectorsWithin limit (.sequence kind element items)
  | optional {type : HostType} {content : Option Value}
      (h : ∀ value ∈ content, VectorsWithin limit value) :
      VectorsWithin limit (.optional type content)
  | dynamic {content : Option Value} (h : ∀ value ∈ content, VectorsWithin limit value) :
      VectorsWithin limit (.dynamic content)
  | pointer {kind : PointerKind} {target : Value} (h : VectorsWithin limit target) :
      VectorsWithin limit (.pointer kind target)
  | record {layout : Layout} {fields : List Value}
      (h : ∀ value ∈ fields, VectorsWithin limit value) :
      VectorsWithin limit (.record layout fields)
  | foreign (name : String) : VectorsWithin limit (.foreign name)

namespace Value.VectorsWithin

variable {limit : Nat}

/-- In a byte there are no vectors. -/
theorem ofByte (byte : UInt8) : (Value.ofByte byte).VectorsWithin limit :=
  .scalar _

/-- The vectors of a default are within the limit if those of default records are. -/
theorem defaultWith {recordDefault : String → Value}
    (hrecord : ∀ key, (recordDefault key).VectorsWithin limit) (type : HostType) :
    (type.defaultWith recordDefault).VectorsWithin limit := by
  induction type with
  | scalar type => exact .scalar _
  | text => exact .text _
  | borrowedText => exact .borrowedText _
  | vector element => exact .sequence (fun _ => Nat.zero_le _) (fun _ h => nomatch h)
  | array length element ih =>
      refine .sequence (fun h => nomatch h) ?_
      intro item hitem
      rw [List.eq_of_mem_replicate hitem]
      exact ih
  | slice element => exact .sequence (fun h => nomatch h) (fun _ h => nomatch h)
  | optional content => exact .optional (fun _ h => nomatch h)
  | dynamic => exact .dynamic (fun _ h => nomatch h)
  | pointer kind target ih => exact .pointer ih
  | record key => exact hrecord key
  | foreign name => exact .foreign name

/-- The vectors of a default record are within any limit. -/
theorem defaultRecord (schema : Schema) (depth : Nat) (key : String) :
    (schema.defaultRecord depth key).VectorsWithin limit := by
  induction depth generalizing key with
  | zero => exact .foreign key
  | succ depth ih =>
      unfold Schema.defaultRecord
      split
      next => exact .foreign key
      next type _ =>
        refine .record ?_
        intro value hvalue
        obtain ⟨fieldType, -, rfl⟩ := List.mem_map.1 hvalue
        exact defaultWith ih fieldType

/-- A default value holds no vector with an element. -/
theorem default (schema : Schema) (type : HostType) :
    (schema.default type).VectorsWithin limit :=
  defaultWith (defaultRecord schema schema.length) type

end Value.VectorsWithin

namespace Evolves

variable {schema : Schema} {allowed : Assignment → Prop} {path : Path} {plan : Plan}

/-- What happens to the value behind pointers happens to the whole. -/
theorem withTarget {value target : Value}
    (h : Evolves schema allowed path plan value.target target) :
    Evolves schema allowed path plan value (value.withTarget target) := by
  induction value using Value.target.induct with
  | case1 kind value ih => exact .pointer (ih h)
  | case2 value hvalue =>
      cases value with
      | pointer kind value => exact absurd rfl (hvalue kind value)
      | _ => exact h

/-- Assignments within the limits leave no vector that is too long if there was none. -/
theorem vectorsWithin {limits : Limits} {value value' : Value}
    (h : Evolves schema (Assignment.Within limits) path plan value value')
    (hvalue : value.VectorsWithin limits.collect) : value'.VectorsWithin limits.collect := by
  induction h with
  | refl => exact hvalue
  | trans _ _ ihfirst ihsecond => exact ihsecond (ihfirst hvalue)
  | scalar => exact .scalar _
  | text | numbers => exact .text _
  | @bytes _ _ kind items data _ _ hcount =>
      cases hvalue with
      | sequence hlength hitems =>
          refine .sequence ?_ ?_
          · intro hkind
            have hbefore := hlength hkind
            rw [List.length_append, List.length_map, List.length_drop]
            omega
          · intro item hitem
            rcases List.mem_append.1 hitem with hitem | hitem
            · obtain ⟨byte, -, rfl⟩ := List.mem_map.1 hitem
              exact .ofByte byte
            · exact hitems item (List.mem_of_mem_drop hitem)
  | @resize _ _ element items count _ hcount =>
      cases hvalue with
      | sequence _ hitems =>
          refine .sequence (fun _ => ?_) ?_
          · rw [length_resized]
            exact hcount
          · intro item hitem
            rcases List.mem_append.1 hitem with hitem | hitem
            · exact hitems item (List.mem_of_mem_take hitem)
            · rw [List.eq_of_mem_replicate hitem]
              exact .default schema element
  | fill type =>
      refine .optional ?_
      rintro _ ⟨⟩
      exact .default schema type
  | optional _ ih =>
      cases hvalue with
      | optional hcontent =>
          refine .optional ?_
          rintro _ ⟨⟩
          exact ih (hcontent _ rfl)
  | dynamic _ ih =>
      cases hvalue with
      | dynamic hcontent =>
          refine .dynamic ?_
          rintro _ ⟨⟩
          exact ih (hcontent _ rfl)
  | pointer _ ih =>
      cases hvalue with
      | pointer htarget => exact .pointer (ih htarget)
  | element _ hitem _ _ ih =>
      cases hvalue with
      | sequence hlength hitems =>
          refine .sequence (fun hkind => ?_) ?_
          · rw [List.length_set]
            exact hlength hkind
          · intro item hmem
            rcases List.mem_or_eq_of_mem_set hmem with hmem | rfl
            · exact hitems item hmem
            · exact ih (hitems _ (List.mem_of_getElem? hitem))
  | single _ _ _ _ ih => exact ih hvalue
  | field _ _ _ _ _ _ hfieldValue _ _ ih =>
      cases hvalue with
      | record hfields =>
          refine .record ?_
          intro value hmem
          rcases List.mem_or_eq_of_mem_set hmem with hmem | rfl
          · exact hfields value hmem
          · exact ih (hfields _ (List.mem_of_getElem? hfieldValue))

/-- The plan for a string that is an element is that for a single value, with the encoding of the
array and, if that is one of numbers, with its wire type. -/
theorem element_text {itemPlan : Plan} {text : String}
    (h : plan.element path (.text text) = .ok itemPlan) :
    itemPlan.isArray = false ∧ itemPlan.encoding = plan.encoding ∧
      (plan.wire.isNumeric = true → itemPlan.wire = plan.wire) := by
  unfold Plan.element at h
  cases hwire : Plan.elementWire path plan.wire (.text text) with
  | error error =>
      rw [hwire] at h
      cases h
  | ok wire =>
      rw [hwire] at h
      cases h
      refine ⟨rfl, rfl, fun hnumeric => ?_⟩
      unfold Plan.elementWire at hwire
      split at hwire
      next hany _ =>
        rw [hany] at hnumeric
        cases hnumeric
      next hpad =>
        rw [hpad] at hnumeric
        cases hnumeric
      next hignore =>
        rw [hignore] at hnumeric
        cases hnumeric
      next => cases hwire
      next => exact (Except.ok.inj hwire).symm

/-- Under a plan that is no array, a string evolves into one that it was decoded into by that plan,
if at all. -/
theorem text_of_single {limits : Limits} {old : String} {value : Value}
    (h : Evolves schema (Assignment.Within limits) path plan (.text old) value)
    (harray : plan.isArray = false) :
    ∃ new, value = .text new ∧ (new = old ∨ plan.wire.isText = true ∧
      (plan.encoding = none → new.utf8ByteSize ≤ limits.blob)) := by
  generalize hold : Value.text old = first at h
  induction h generalizing old with
  | refl => exact ⟨old, hold.symm, .inl rfl⟩
  | trans _ _ ihfirst ihsecond =>
      obtain ⟨middle, hmiddle, hfirst⟩ := ihfirst harray hold
      obtain ⟨new, rfl, hsecond⟩ := ihsecond harray hmiddle.symm
      refine ⟨new, rfl, ?_⟩
      rcases hsecond with rfl | hsecond
      · exact hfirst
      · exact .inr hsecond
  | text _ _ hwire hwithin =>
      cases hold
      exact ⟨_, rfl, .inr ⟨hwire, hwithin.2⟩⟩
  | numbers _ hnumbers | single hnumbers =>
      rw [hnumbers] at harray
      cases harray
  | _ => cases hold

/-- A string evolves into one that is no longer than the limit: that of elements if it is decoded
from an array of numbers, and that of strings otherwise, unless it has a text encoding. -/
theorem text_within {limits : Limits} {old : String} {value : Value}
    (h : Evolves schema (Assignment.Within limits) path plan (.text old) value) :
    ∃ new, value = .text new ∧ (new = old ∨
      if plan.isArray = true ∧ plan.wire.isNumeric = true then new.utf8ByteSize ≤ limits.collect
      else plan.encoding = none → new.utf8ByteSize ≤ limits.blob) := by
  generalize hold : Value.text old = first at h
  induction h generalizing old with
  | refl => exact ⟨old, hold.symm, .inl rfl⟩
  | trans _ _ ihfirst ihsecond =>
      obtain ⟨middle, hmiddle, hfirst⟩ := ihfirst hold
      obtain ⟨new, rfl, hsecond⟩ := ihsecond hmiddle.symm
      refine ⟨new, rfl, ?_⟩
      rcases hsecond with rfl | hsecond
      · exact hfirst
      · exact .inr hsecond
  | text _ harray _ hwithin =>
      cases hold
      refine ⟨_, rfl, .inr ?_⟩
      rw [if_neg (by simp [harray])]
      exact hwithin.2
  | numbers _ harray hwire hwithin =>
      cases hold
      refine ⟨_, rfl, .inr ?_⟩
      rw [if_pos ⟨harray, hwire⟩]
      exact hwithin.2
  | @single _ plan _ _ _ _ _ hplan h =>
      cases hold
      obtain ⟨hitem, hencoding, hwire⟩ := element_text hplan
      obtain ⟨new, hnew, hbound⟩ := h.text_of_single hitem
      refine ⟨new, hnew, hbound.imp_right ?_⟩
      rintro ⟨htext, hblob⟩
      -- A string is decoded from the numbers of an array at once, not as an element of it.
      have hnumeric : plan.wire.isNumeric ≠ true := by
        intro hnumeric
        rw [hwire hnumeric, WireType.isText_of_isNumeric hnumeric] at htext
        cases htext
      rw [if_neg fun h => hnumeric h.2, ← hencoding]
      exact hblob
  | _ => cases hold

end Evolves

end PackedRecord
