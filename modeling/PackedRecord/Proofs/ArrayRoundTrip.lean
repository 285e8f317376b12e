import PackedRecord.Proofs.Portable
import PackedRecord.Proofs.Steps

/-!
# Arrays that come back

The encoder and the decoder walk side by side; `Restores` is what each step of theirs hands on to
the next one. Given that it holds one step further down, the elements of an array come back, and so
does a single value that is coded as an array.
-/

namespace PackedRecord

open Value

/-- The plan is that of a coded value of the type, as far as references and padding go. -/
structure Plan.Suits (plan : Plan) (type : HostType) : Prop where
  indirection_eq : plan.indirection = type.natural.indirection
  not_pad : plan.wire ≠ .pad
  not_ignore : plan.wire ≠ .ignore

/-- What the encoder writes for a portable value, the decoder turns into that value, and it passes
over padding. -/
structure Restores (schema : Schema) (limits : Limits) (encode : ChildEncoder)
    (decode : ChildDecoder) : Prop where
  accepts : ∀ {type path plan value current bytes}, Portable schema limits type plan value →
    Agrees schema plan value current → plan.Suits type →
    (encode path value plan).Yields bytes () → (decode path current plan).Accepts bytes value
  accepts_pad : ∀ {path plan value bytes}, plan.wire = .pad →
    (encode path value plan).Yields bytes () → (decode path value plan).Accepts bytes value

namespace Plan

variable {plan : Plan}

/-- The plan for the elements of a type is that of coded values of the type. -/
theorem ofElement_suits (hpad : plan.wire ≠ .pad) (hignore : plan.wire ≠ .ignore)
    (type : HostType) : (plan.ofElement type).Suits type := by
  have hnatural := type.natural_wire_getD_ne
  refine ⟨rfl, ?_, ?_⟩
  all_goals
    unfold ofElement
    split
  · exact hnatural.1
  · exact hpad
  · exact hnatural.2
  · exact hignore

end Plan

namespace Value

/-- A portable byte is a byte. -/
theorem Portable.byte {schema : Schema} {limits : Limits} {plan : Plan} {value : Value}
    (h : Portable schema limits .byte plan value) : ∃ byte, value = ofByte byte := by
  cases h with
  | scalar htype => exact exists_ofByte htype

end Value

section step

variable {schema : Schema} {settings : Settings} {encode : Option ChildEncoder}
  {decode : Option ChildDecoder} {path : Path} {plan : Plan} {type : HostType} {bytes : Bytes}

/-- An element comes back. -/
theorem accepts_decodeElement_of_yields
    (hchild : Option.Rel (Restores schema settings.limits) encode decode)
    (hpad : plan.wire ≠ .pad) (hignore : plan.wire ≠ .ignore) {index : Nat} {item place : Value}
    {itemPlan : Plan} {encodeItem : ChildEncoder} (hencode : encode = some encodeItem)
    (hitem : Portable schema settings.limits type (plan.ofElement type) item)
    (hplace : Agrees schema (plan.ofElement type) item place)
    (hplan : plan.element (.index index :: path) item = .ok itemPlan)
    (h : (encodeItem (.index index :: path) item itemPlan).Yields bytes ()) :
    (decodeElement decode path plan index place).Accepts bytes item := by
  subst hencode
  cases hchild with
  | some hrestores =>
      have hwire := Plan.natural_wire_of_element hpad hignore hitem.natural_eq hplan
      rw [Plan.element_eq hpad hignore hitem.natural_eq hwire] at hplan
      cases hplan
      exact accepts_decodeElement rfl
        (Plan.element_eq hpad hignore (hplace.natural_eq hitem) hwire)
        (hrestores.accepts hitem hplace (Plan.ofElement_suits hpad hignore type) h)

/-- Elements that are decoded one by one come back. -/
theorem accepts_decodeElements_of_yields
    (hchild : Option.Rel (Restores schema settings.limits) encode decode)
    (hpad : plan.wire ≠ .pad) (hignore : plan.wire ≠ .ignore) {items places decoded : List Value}
    {index : Nat} {last last' : Option Nat} (hlength : items.length = places.length)
    (hitems : ∀ item ∈ items, Portable schema settings.limits type (plan.ofElement type) item)
    (hplaces : ∀ (index : Nat) item place, items[index]? = some item →
      places[index]? = some place → Agrees schema (plan.ofElement type) item place)
    (h : (encodeElements encode path plan index last items).Yields bytes last') :
    (decodeElements decode path plan index decoded places).Accepts bytes
      (decoded.reverse ++ items) := by
  induction items generalizing places decoded index last bytes with
  | nil =>
      obtain rfl : places = [] := List.eq_nil_of_length_eq_zero hlength.symm
      rw [encodeElements, Emission.pure_eq, Emission.yields_ofExcept] at h
      rw [List.append_nil]
      exact ⟨h.1, rfl⟩
  | cons item items ih =>
      obtain ⟨place, places, rfl⟩ := List.exists_cons_of_length_eq_add_one hlength.symm
      obtain ⟨encodeItem, itemPlan, front, back, hencode, hplan, hitem, hrest, rfl⟩ :=
        yields_encodeElements_cons.1 h
      have hfirst := accepts_decodeElement_of_yields hchild hpad hignore hencode
        (hitems item List.mem_cons_self) (hplaces 0 item place rfl rfl) hplan hitem
      have hothers : (decodeElements decode path plan (index + 1) (item :: decoded) places).Accepts
          back ((item :: decoded).reverse ++ items) :=
        ih (Nat.succ.inj hlength)
          (fun item hitem => hitems item (List.mem_cons_of_mem _ hitem))
          (fun index item place => hplaces (index + 1) item place) hrest
      rw [List.reverse_cons, List.append_assoc] at hothers
      exact accepts_decodeElements_cons.2 ⟨front, item, back, rfl, hfirst, hothers⟩

/-- Elements come back, at once or one by one. -/
theorem accepts_decodeItems_of_yields
    (hchild : Option.Rel (Restores schema settings.limits) encode decode)
    (hpad : plan.wire ≠ .pad) (hignore : plan.wire ≠ .ignore) {items places : List Value}
    {natural : Natural} {last : Option Nat} (hlength : items.length = places.length)
    (hitems : ∀ item ∈ items, Portable schema settings.limits type (plan.ofElement type) item)
    (hplaces : ∀ (index : Nat) item place, items[index]? = some item →
      places[index]? = some place → Agrees schema (plan.ofElement type) item place)
    (h : (encodeItems encode path plan ⟨items, bytes? type items, natural⟩).Yields bytes last) :
    (decodeItems decode path plan type places).Accepts bytes items := by
  unfold encodeItems at h
  unfold decodeItems
  -- The decoder reads at once by the type of the elements, the encoder by their values as well.
  by_cases hbulk : type = .byte ∧ (plan.wire = .byte ∨ plan.wire = .uint8)
  · obtain ⟨rfl, hwire⟩ := hbulk
    obtain ⟨data, hdata, rfl⟩ := bytes?_of_bytes (fun item hitem => (hitems item hitem).byte)
    rw [if_pos ⟨rfl, hwire⟩]
    simp only [hdata, if_pos hwire] at h
    obtain ⟨_, _, _, rfl, hwrite, hdone⟩ := Emission.yields_bind.1 h
    rw [Emission.yields_write.1 hwrite, (Emission.yields_ofExcept.1 hdone).1, List.append_nil]
    rw [List.length_map] at hlength
    exact ⟨data, [], (List.append_nil _).symm, hlength, rfl, rfl⟩
  · rw [if_neg hbulk]
    have hsingly : (encodeElements encode path plan 0 none items).Yields bytes last := by
      cases hbytes : bytes? type items with
      | none =>
          simp only [hbytes] at h
          exact h
      | some data =>
          have hbyte : type = .byte := by
            unfold bytes? at hbytes
            split at hbytes
            · assumption
            · cases hbytes
          simp only [hbytes, if_neg (fun hwire => hbulk ⟨hbyte, hwire⟩)] at h
          exact h
    exact accepts_decodeElements_of_yields hchild hpad hignore hlength hitems hplaces hsingly

/-- An array whose length is given right has a slot for each element. -/
theorem Plan.Admits.slots_eq {length current : Nat} (h : plan.Admits length)
    (hcurrent : plan.arrayLength = none → length = current) :
    plan.arrayLength.getD length = length ∧ plan.arrayLength.getD current = length := by
  cases hgiven : plan.arrayLength with
  | none => exact ⟨rfl, (hcurrent hgiven).symm⟩
  | some given => exact ⟨h given hgiven, h given hgiven⟩

/-- A sequence comes back from an array. -/
theorem accepts_decodeArray_sequence
    (hchild : Option.Rel (Restores schema settings.limits) encode decode)
    (hpad : plan.wire ≠ .pad) (hignore : plan.wire ≠ .ignore) {kind : SequenceKind}
    {value current : Value} {items places : List Value}
    (hvalue : value.target = .sequence kind type items)
    (hcurrent : current.target = .sequence kind type places)
    (hwritable : current.isReadOnly = false)
    (hplaces : (if kind = .growable then resized (schema.default type) items.length places
      else places).length = items.length)
    (hslots : plan.arrayLength.getD items.length = items.length ∧
      plan.arrayLength.getD places.length = items.length)
    (hcollect : items.length ≤ settings.limits.collect)
    (hitems : ∀ item ∈ items, Portable schema settings.limits type (plan.ofElement type) item)
    (hagrees : ∀ (index : Nat) item place, items[index]? = some item →
      (if kind = .growable then resized (schema.default type) items.length places
        else places)[index]? = some place → Agrees schema (plan.ofElement type) item place)
    (h : (encodeArray encode path value plan).Yields bytes ()) :
    (decodeArray schema settings decode path current plan).Accepts bytes
      (current.withTarget value.target) := by
  have hof : Elements.of path value plan.wire =
      .ok ⟨items, bytes? type items, type.natural⟩ := by
    rw [Elements.of, hvalue]
  obtain ⟨last, hfront⟩ := yields_encodeArray_full hof hslots.1 h
  have hdecoded := accepts_decodeItems_of_yields hchild hpad hignore hplaces.symm hitems hagrees
    hfront
  -- From here on it does not matter whether the places were there before or are new.
  generalize hlist : (if kind = .growable then resized (schema.default type) items.length places
    else places) = list at hplaces hdecoded
  have hsequence : (decodeSequence schema settings decode path plan kind type places).Accepts bytes
      (items ++ list.drop (plan.arrayLength.getD places.length)) := by
    refine accepts_decodeSequence list ?_ ?_ ?_ ?_
    all_goals rw [hslots.2]
    · exact hlist.symm
    · exact Nat.le_of_eq hplaces.symm
    · exact hcollect
    · rw [← hplaces, List.take_length]
      exact hdecoded
  rw [hslots.2, ← hplaces, List.drop_length, List.append_nil] at hsequence
  rw [decodeArray, hcurrent, hvalue]
  simp only [hwritable]
  exact hsequence.bimap _ _

/-- A single value comes back from an array of the length 1. -/
theorem accepts_decodeArray_single
    (hchild : Option.Rel (Restores schema settings.limits) encode decode)
    (hpad : plan.wire ≠ .pad) (hignore : plan.wire ≠ .ignore) {value current : Value}
    (hvalue : Portable schema settings.limits type plan value)
    (hagrees : Agrees schema plan value current) (hsingle : value.IsSingle)
    (h : (encodeArray encode path value plan).Yields bytes ()) :
    (decodeArray schema settings decode path current plan).Accepts bytes value := by
  obtain ⟨hany, hone, hitem⟩ := hvalue.single hsingle
  have hplace := hagrees.single hsingle hany type
  have htext (content : String) (htarget : value.target = .text content) :
      plan.wire.isNumeric = false := by
    obtain ⟨_, htargetPortable, -, -⟩ := hvalue.target
    rw [htarget] at htargetPortable
    cases htargetPortable with
    | text hwire =>
        revert hwire
        cases plan.wire <;> first | exact fun _ => rfl | exact fun hwire => nomatch hwire
  have hof : Elements.of path value plan.wire = .ok ⟨[value], none, value.natural⟩ := by
    rcases hsingle with ⟨content, htarget⟩ | ⟨content, htarget⟩
    · rw [Elements.of, htarget]
    · rw [Elements.of, htarget]
      simp only [htext content htarget]
      rfl
  have hslots : plan.arrayLength.getD 1 = 1 := (hone.slots_eq (fun _ => rfl)).1
  obtain ⟨last, hfront⟩ := yields_encodeArray_full hof hslots h
  have hsingly : (encodeElements encode path plan 0 none [value]).Yields bytes last := hfront
  obtain ⟨encodeItem, itemPlan, front, back, hencode, hplan, helement, hrest, rfl⟩ :=
    yields_encodeElements_cons.1 hsingly
  obtain ⟨rfl, -⟩ := Emission.yields_ofExcept.1 hrest
  have hfirst := accepts_decodeElement_of_yields hchild hpad hignore hencode hitem hplace hplan
    helement
  have hdecoded : (decodeSingle decode path current plan).Accepts (front ++ []) value := by
    unfold decodeSingle
    rw [hslots]
    refine hfirst.bind (Intake.accepts_bind.2 ⟨[], (), [], rfl, ?_, rfl, rfl⟩)
    rw [discardSlots, if_pos (Nat.le_refl 1)]
    exact Intake.Accepts.leaving _ ⟨rfl, rfl⟩
  have htargets := hagrees.target.1
  rcases hsingle with ⟨content, htarget⟩ | ⟨content, htarget⟩
  · rw [htarget] at htargets
    generalize hcurrent : current.target = target at htargets
    cases htargets with
    | scalar _ =>
        rw [decodeArray, hcurrent]
        exact hdecoded
  · rw [htarget] at htargets
    generalize hcurrent : current.target = target at htargets
    cases htargets with
    | text _ =>
        rw [decodeArray, hcurrent]
        simp only [htext content htarget]
        exact hdecoded

end step

end PackedRecord
