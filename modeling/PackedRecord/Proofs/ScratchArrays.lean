import PackedRecord.Proofs.ReusedDestinations
import PackedRecord.Proofs.ScratchValues

/-!
# Arrays in scratch values

The runs into a default and into what may be left of it are compared request by request:
`Intake.Tracks` says that the second one accepts whatever the first one accepts. If that holds one
step further down, as `ServesBelow` says, it holds for strings, for single values and for sequences;
`tracks_decodeArray` is what comes of it.
-/

namespace PackedRecord

namespace Intake

variable {α β γ δ ε ζ η θ : Type}

/-- The second intake accepts what the first one accepts, and the results are related. -/
def Tracks (related : α → γ → Prop) (intake : Intake β α) (intake' : Intake δ γ) : Prop :=
  ∀ bytes result, intake.Accepts bytes result →
    ∃ result', intake'.Accepts bytes result' ∧ related result result'

variable {related : α → γ → Prop} {related' : ε → η → Prop} {intake : Intake β α}
  {intake' : Intake δ γ}

/-- Related results track each other. -/
theorem tracks_done {result : α} {result' : γ} (h : related result result') :
    Tracks related (done result : Intake β α) (done result' : Intake δ γ) := by
  rintro _ _ ⟨rfl, rfl⟩
  exact ⟨result', ⟨rfl, rfl⟩, h⟩

/-- An intake that fails is tracked by every other one. -/
theorem tracks_fail (error : Error) (left : β) (intake' : Intake δ γ) :
    Tracks related (fail error left) intake' :=
  fun _ _ h => h.elim

/-- An intake tracks itself. -/
theorem tracks_same (intake : Intake β α) : Tracks Eq intake intake :=
  fun _ result haccepts => ⟨result, haccepts, rfl⟩

/-- What follows has to track after related results only. -/
theorem Tracks.bind {following : α → Intake β ε} {following' : γ → Intake δ η}
    (h : Tracks related intake intake')
    (hnext : ∀ bytes result result', intake.Accepts bytes result → related result result' →
      Tracks related' (following result) (following' result')) :
    Tracks related' (intake >>= following) (intake' >>= following') := by
  intro bytes result hboth
  obtain ⟨front, middle, back, rfl, hfront, hback⟩ := accepts_bind.1 hboth
  obtain ⟨middle', hfront', hmiddle⟩ := h front middle hfront
  obtain ⟨result', hback', hresult⟩ := hnext front middle middle' hfront hmiddle back result hback
  exact ⟨result', hfront'.bind hback', hresult⟩

/-- Intakes still track each other if the maps relate their results. -/
theorem Tracks.bimap {f : β → ζ} {g : α → ε} {f' : δ → θ} {g' : γ → η}
    (h : Tracks related intake intake')
    (hresults : ∀ result result', related result result' → related' (g result) (g' result')) :
    Tracks related' (intake.bimap f g) (intake'.bimap f' g') := by
  intro bytes _ hmapped
  obtain ⟨result, haccepts, rfl⟩ := accepts_bimap.1 hmapped
  obtain ⟨result', haccepts', hresult⟩ := h bytes result haccepts
  exact ⟨g' result', haccepts'.bimap f' g', hresults result result' hresult⟩

/-- What an error leaves behind does not matter. -/
theorem Tracks.bimap_id {f : β → ζ} {f' : δ → θ} (h : Tracks related intake intake') :
    Tracks related (intake.bimap f id) (intake'.bimap f' id) :=
  h.bimap fun _ _ hresult => hresult

/-- Intakes that track each other do so for every wider relation. -/
theorem Tracks.mono {wider : α → γ → Prop} (h : Tracks related intake intake')
    (hwider : ∀ result result', related result result' → wider result result') :
    Tracks wider intake intake' := by
  intro bytes result haccepts
  obtain ⟨result', haccepts', hresult⟩ := h bytes result haccepts
  exact ⟨result', haccepts', hwider result result' hresult⟩

end Intake

/-- The second result may be left of the value, and it counts as much as the first one, unless the
value was an array without elements. -/
structure Value.Refilled (schema : Schema) (plan : Plan) (value result result' : Value) : Prop where
  serves : value.Serves schema plan result'
  size_eq : plan.arrayLength ≠ some 0 → result'.size? = result.size?

/-- What may be left of an element of an array. -/
def Value.ServesIn (schema : Schema) (plan : Plan) (item item' : Value) : Prop :=
  ∀ path itemPlan, plan.element path item = .ok itemPlan → item.Serves schema itemPlan item'

/-- The decoder one step further down reads the same into what may be left of a value as into the
value itself. -/
def ServesBelow (schema : Schema) (settings : Settings) (room : Nat) : Prop :=
  ∀ decode, decodeBelow schema settings room = some decode → ∀ {path plan value value'},
    plan.wire ≠ .pad → plan.wire ≠ .ignore → plan.indirection = value.natural.indirection →
    value.Serves schema plan value' →
    Intake.Tracks (Value.Refilled schema plan value) (decode path value plan)
      (decode path value' plan)

/-- The plan for an element of an array that is coded. -/
theorem Plan.parts_of_element {plan itemPlan : Plan} {path : Path} {item : Value}
    (hpad : plan.wire ≠ .pad) (hignore : plan.wire ≠ .ignore)
    (h : plan.element path item = .ok itemPlan) :
    itemPlan.wire ≠ .pad ∧ itemPlan.wire ≠ .ignore ∧ itemPlan.isArray = item.natural.isArray ∧
      itemPlan.arrayLength = none ∧ itemPlan.indirection = item.natural.indirection := by
  have hnatural := item.natural_wire_ne
  unfold element at h
  cases hwire : elementWire path plan.wire item with
  | error error =>
      rw [hwire] at h
      cases h
  | ok wire =>
      rw [hwire] at h
      cases h
      unfold elementWire at hwire
      refine ⟨?_, ?_, rfl, rfl, rfl⟩ <;> split at hwire <;> simp_all

section elements

variable {schema : Schema} {settings : Settings} {room : Nat} {path : Path} {plan : Plan}
  {item item' : Value} {items items' : List Value}

/-- What may be left under the plan of the element may be left in the array. -/
theorem servesIn_of_element {itemPlan : Plan} (hplan : plan.element path item = .ok itemPlan)
    (h : item.Serves schema itemPlan item') : item.ServesIn schema plan item' := by
  intro path' itemPlan' hplan'
  cases (Plan.element_of_natural rfl hplan).symm.trans hplan'
  exact h

/-- An element of what is left takes the same bytes as that of the default. -/
theorem tracks_decodeElement (hbelow : ServesBelow schema settings room) (hpad : plan.wire ≠ .pad)
    (hignore : plan.wire ≠ .ignore) (h : item.ServesIn schema plan item') (index : Nat) :
    Intake.Tracks (fun result result' => ∃ itemPlan,
        plan.element (.index index :: path) item = .ok itemPlan ∧
        item.Refilled schema itemPlan result result')
      (decodeElement (decodeBelow schema settings room) path plan index item)
      (decodeElement (decodeBelow schema settings room) path plan index item') := by
  unfold decodeElement
  cases hchild : decodeBelow schema settings room with
  | none => exact Intake.tracks_fail _ _ _
  | some decode =>
      simp only
      cases hplan : plan.element (.index index :: path) item with
      | error error => exact Intake.tracks_fail _ _ _
      | ok itemPlan =>
          have hserves := h _ _ hplan
          obtain ⟨hpad', hignore', -, -, hindirection⟩ := Plan.parts_of_element hpad hignore hplan
          rw [Plan.element_of_natural hserves.natural_eq hplan]
          exact (hbelow decode hchild hpad' hignore' hindirection hserves).mono
            fun _ _ hrefilled => ⟨itemPlan, rfl, hrefilled⟩

/-- Elements of what is left take the same bytes, whatever was decoded before them. -/
theorem tracks_decodeElements (hbelow : ServesBelow schema settings room) (hpad : plan.wire ≠ .pad)
    (hignore : plan.wire ≠ .ignore) (h : List.Forall₂ (Value.ServesIn schema plan) items items')
    (index : Nat) (decoded decoded' : List Value) :
    Intake.Tracks (fun _ result' => ∃ left, result' = decoded'.reverse ++ left ∧
        List.Forall₂ (Value.ServesIn schema plan) items left)
      (decodeElements (decodeBelow schema settings room) path plan index decoded items)
      (decodeElements (decodeBelow schema settings room) path plan index decoded' items') := by
  induction h generalizing index decoded decoded' with
  | nil => exact Intake.tracks_done ⟨[], (List.append_nil _).symm, .nil⟩
  | cons hitem hrest ih =>
      refine (tracks_decodeElement hbelow hpad hignore hitem index).bimap_id.bind ?_
      rintro _ result result' - ⟨itemPlan, hplan, hrefilled⟩
      refine (ih (index + 1) _ (result' :: decoded')).mono ?_
      rintro _ _ ⟨left, rfl, hleft⟩
      exact ⟨result' :: left, by simp, .cons (servesIn_of_element hplan hrefilled.serves) hleft⟩

/-- Bytes may be left of bytes. -/
theorem servesIn_byte (byte byte' : UInt8) :
    (Value.ofByte byte).ServesIn schema plan (.ofByte byte') :=
  fun _ _ _ => .scalar rfl

/-- Items that are left take the same bytes, at once or one by one. -/
theorem tracks_decodeItems (hbelow : ServesBelow schema settings room) (hpad : plan.wire ≠ .pad)
    (hignore : plan.wire ≠ .ignore) {element : HostType}
    (hbytes : element = .byte → ∀ item ∈ items, ∃ byte, item = .ofByte byte)
    (h : List.Forall₂ (Value.ServesIn schema plan) items items') :
    Intake.Tracks (fun _ result' => List.Forall₂ (Value.ServesIn schema plan) items result')
      (decodeItems (decodeBelow schema settings room) path plan element items)
      (decodeItems (decodeBelow schema settings room) path plan element items') := by
  unfold decodeItems
  by_cases hbulk : element = .byte ∧ (plan.wire = .byte ∨ plan.wire = .uint8)
  · rw [if_pos hbulk, if_pos hbulk, ← h.length_eq]
    rintro bytes result ⟨front, back, rfl, hcount, rfl, rfl⟩
    refine ⟨front.map Value.ofByte, ⟨front, [], rfl, hcount, rfl, rfl⟩, ?_⟩
    refine List.forall₂_iff_get.2 ⟨by rw [List.length_map, hcount], ?_⟩
    intro index hindex hindex'
    obtain ⟨byte, hbyte⟩ := hbytes hbulk.1 (items.get ⟨index, hindex⟩) (List.get_mem _ _)
    rw [hbyte, List.get_eq_getElem, List.getElem_map]
    exact servesIn_byte byte _
  · rw [if_neg hbulk, if_neg hbulk]
    refine (tracks_decodeElements hbelow hpad hignore h 0 [] []).mono ?_
    rintro _ _ ⟨left, rfl, hleft⟩
    exact hleft

/-- Decodes into the first places of a sequence and passes over the slots behind the last one. -/
def decodePlaces (schema : Schema) (child : Option ChildDecoder) (path : Path) (plan : Plan)
    (element : HostType) (places : List Value) (slots : Nat) :
    Intake (List Value) (List Value) := do
  let decoded ← (decodeItems child path plan element (places.take slots)).within
    (· ++ places.drop slots)
  Intake.leaving decoded (discardSlots child path plan (schema.default element) places.length slots)
  pure decoded

/-- A sequence is resized if it can be and decoded place by place, once its length is allowed. -/
theorem decodeSequence_eq (child : Option ChildDecoder) (kind : SequenceKind) (element : HostType)
    (items : List Value) :
    decodeSequence schema settings child path plan kind element items =
      match settings.limits.checkCollect path (plan.arrayLength.getD items.length) with
      | .error error => .fail error items
      | .ok () => decodePlaces schema child path plan element
          (if kind = .growable then
            resized (schema.default element) (plan.arrayLength.getD items.length) items else items)
          (plan.arrayLength.getD items.length) := rfl

/-- Places of what is left take the same bytes, and so do the slots behind them. -/
theorem tracks_decodePlaces (hbelow : ServesBelow schema settings room) (hpad : plan.wire ≠ .pad)
    (hignore : plan.wire ≠ .ignore) {element : HostType} {slots : Nat}
    (hbytes : element = .byte → ∀ item ∈ items, ∃ byte, item = .ofByte byte)
    (h : List.Forall₂ (Value.ServesIn schema plan) items items') :
    Intake.Tracks (fun _ result' => List.Forall₂ (Value.ServesIn schema plan) items result')
      (decodePlaces schema (decodeBelow schema settings room) path plan element items slots)
      (decodePlaces schema (decodeBelow schema settings room) path plan element items' slots) := by
  unfold decodePlaces
  rw [← h.length_eq]
  have htaken : Intake.Tracks
      (fun _ result' => List.Forall₂ (Value.ServesIn schema plan) items result')
      ((decodeItems (decodeBelow schema settings room) path plan element (items.take slots)).within
        (· ++ items.drop slots))
      ((decodeItems (decodeBelow schema settings room) path plan element (items'.take slots)).within
        (· ++ items'.drop slots)) := by
    refine (tracks_decodeItems hbelow hpad hignore ?_ (List.forall₂_take slots h)).bimap ?_
    · exact fun hbyte item hitem => hbytes hbyte item (List.mem_of_mem_take hitem)
    · intro _ result' hresult
      have hboth : List.Forall₂ (Value.ServesIn schema plan) (items.take slots ++ items.drop slots)
          (result' ++ items'.drop slots) :=
        List.rel_append hresult (List.forall₂_drop slots h)
      rwa [List.take_append_drop] at hboth
  refine htaken.bind fun _ _ result' _ hresult => ?_
  have hrest := Intake.tracks_same (discardSlots (decodeBelow schema settings room) path plan
    (schema.default element) items.length slots)
  exact hrest.bimap_id.bind fun _ _ _ _ _ => Intake.tracks_done hresult

end elements

section texts

variable {schema : Schema} {settings : Settings} {room : Nat} {path : Path} {plan : Plan}
  {value value' : Value} {bytes : Bytes} {text : String}

/-- A value counts as what stands behind its pointers. -/
theorem size?_withTarget (value content : Value) :
    (value.withTarget content).size? = content.size? := by
  unfold Value.size?
  rw [Value.target_withTarget]

/-- A string that does not take its length from the destination is read in the same way whatever
stands there. -/
theorem readFramed_congr (htext : plan.wire.isText = true) (h : ¬ plan.TakesLength)
    (settings : Settings) (path : Path) (current current' : Nat) :
    readFramed settings path plan current = readFramed settings path plan current' := by
  obtain ⟨wire, isArray, arrayLength, bufferLength, indirection, encoding⟩ := plan
  cases wire with
  | string =>
      cases bufferLength with
      | none => exact absurd (.inl ⟨.inl rfl, rfl⟩) h
      | some size => rfl
  | bstring | wstring | dwstring | zstring | z16string => cases bufferLength <;> rfl
  | _ => cases htext

/-- A string that takes its length from an empty destination is empty. -/
theorem text_of_accepts_empty (htakes : plan.TakesLength) (htext : plan.wire.isText = true)
    (h : (decodeText settings path plan 0).Accepts bytes text) : text = "" := by
  have hnumeric : plan.wire.isNumeric ≠ true := by
    intro hnumeric
    rw [WireType.isText_of_isNumeric hnumeric] at htext
    cases htext
  have hany : plan.wire ≠ .any := by
    revert htext
    cases plan.wire <;> decide
  obtain ⟨hwire | hwire, hbuffer⟩ | ⟨hwire, -⟩ := htakes
  · exact String.utf8ByteSize_eq_zero_iff.1
      (Nat.le_zero.1 (accepts_decodeText_bare hwire hbuffer h).2)
  · exact absurd hwire hany
  · exact absurd hwire hnumeric

/-- A text that is left takes the same bytes as the empty one. -/
theorem tracks_decodeText (htext : plan.wire.isText = true) {content : String}
    (h : plan.TakesLength → content = "") :
    Intake.Tracks (fun result result' => result' = result ∧ (plan.TakesLength → result' = ""))
      (decodeText settings path plan 0) (decodeText settings path plan content.utf8ByteSize) := by
  intro bytes result haccepts
  refine ⟨result, ?_, rfl, fun htakes => text_of_accepts_empty htakes htext haccepts⟩
  by_cases htakes : plan.TakesLength
  · rw [h htakes]
    exact haccepts
  · unfold decodeText at *
    rwa [readFramed_congr htext htakes settings path _ 0]

/-- A text that is left takes as many numbers as the empty one. -/
theorem tracks_decodeNumbersAsText (hnumeric : plan.wire.isNumeric = true) {content : String}
    (h : plan.TakesLength → content = "") (child : Option ChildDecoder) :
    Intake.Tracks (fun result result' => result' = result ∧ (plan.TakesLength → result' = ""))
      (decodeNumbersAsText settings child path plan 0)
      (decodeNumbersAsText settings child path plan content.utf8ByteSize) := by
  have htakes : plan.TakesLength ↔ plan.arrayLength = none := by
    unfold Plan.TakesLength
    constructor
    · rintro (⟨hwire | hwire, -⟩ | ⟨-, hnone⟩)
      · rw [hwire] at hnumeric
        exact absurd hnumeric (by decide)
      · rw [hwire] at hnumeric
        exact absurd hnumeric (by decide)
      · exact hnone
    · exact fun hnone => .inr ⟨hnumeric, hnone⟩
  rw [htakes] at h ⊢
  intro bytes result haccepts
  cases hlength : plan.arrayLength with
  | some slots =>
      unfold decodeNumbersAsText at *
      rw [hlength] at haccepts ⊢
      exact ⟨result, haccepts, rfl, nofun⟩
  | none =>
      rw [h hlength]
      refine ⟨result, haccepts, rfl, fun _ => ?_⟩
      -- An array of no numbers is read from no bytes.
      unfold decodeNumbersAsText at haccepts
      rw [hlength, Option.getD_none] at haccepts
      obtain ⟨_, _, _, -, -, hrest⟩ := Intake.accepts_bind.1 haccepts
      obtain ⟨_, _, _, -, hleaving, htext⟩ := Intake.accepts_bind.1 hrest
      obtain ⟨items, hitems, rfl⟩ := Intake.accepts_bimap.1 hleaving
      have hnone : items = [] :=
        List.eq_nil_of_length_eq_zero (length_of_accepts_decodeItems hitems)
      have hempty : textOfBytes path (Text.Utf8.encode "" ++ Bytes.zeros 0) = .ok "" :=
        textOfBytes_append_zeros (by unfold EndsWithNul; decide) 0
      rw [id_eq, hnone] at htext
      exact (Except.ok.inj (hempty.symm.trans (Intake.accepts_ofExcept.1 htext).2)).symm

/-- A string that is put behind the pointers of what may be left of a value. -/
theorem tracks_putText {intake intake' : Intake Unit String}
    (hserves : value.Serves schema plan value') (htarget : value.target = .text "")
    (h : Intake.Tracks (fun result result' => result' = result ∧ (plan.TakesLength → result' = ""))
      intake intake') :
    Intake.Tracks (Value.Refilled schema plan value) (putText path value intake)
      (putText path value' intake') := by
  refine h.bimap_id.bind ?_
  rintro _ result _ - ⟨rfl, hempty⟩
  rw [hserves.isReadOnly_eq]
  split
  · exact Intake.tracks_fail _ _ _
  · refine Intake.tracks_done ⟨hserves.withTarget ?_, fun _ => ?_⟩
    · rw [htarget]
      exact .text hempty
    · rw [size?_withTarget, size?_withTarget]

end texts

/-- Of the elements of an array only the first one goes into the value, if any. -/
def Value.TakesFirst (value : Value) : Prop :=
  match value.target with
  | .scalar _ | .text _ => True
  | content => content.IsInert

/-- What may be left of such a value under another plan. -/
theorem Value.Serves.of_takesFirst {schema : Schema} {plan plan' : Plan} {value value' : Value}
    (h : value.Serves schema plan value') (hfirst : value.TakesFirst)
    (htakes : ∀ content, value.target = .text content → plan'.TakesLength → plan.TakesLength) :
    value.Serves schema plan' value' := by
  induction h with
  | scalar h => exact .scalar h
  | text h => exact .text fun hnone => h (htakes _ rfl hnone)
  | inert h => exact .inert h
  | pointer h ih => exact .pointer (ih hfirst htakes)
  | vector | array | empty | filled | record => exact hfirst.elim

section single

variable {schema : Schema} {settings : Settings} {room : Nat} {child : Option ChildDecoder}
  {path : Path} {plan itemPlan : Plan} {value value' result : Value} {bytes : Bytes}

/-- An element of a text takes its length from the destination as the text does. -/
theorem takesLength_of_element {content : String} (htext : value.target = .text content)
    (hnumeric : plan.wire.isNumeric ≠ true) (h : plan.element path value = .ok itemPlan) :
    itemPlan.TakesLength ↔ plan.TakesLength := by
  have hnatural : value.natural = .single .string := by
    rw [← Value.natural_target, htext]
    rfl
  unfold Plan.element Plan.elementWire at h
  rw [hnatural] at h
  obtain ⟨wire, isArray, arrayLength, bufferLength, indirection, encoding⟩ := plan
  cases wire <;> cases h <;>
    first
    | exact absurd rfl hnumeric
    | simp [Plan.TakesLength, WireType.isNumeric, WireType.kind]

/-- Numbers are decoded into scalars, and into scalars nothing but numbers. -/
theorem accepts_decodeLeaf_number
    (hnumber : plan.wire.isNumeric = true ∨ ∃ content, value.target = .scalar content)
    (h : (decodeLeaf settings child path value plan).Accepts bytes result) :
    plan.wire.isNumeric = true ∧ bytes.length = plan.wire.byteSize := by
  unfold decodeLeaf at h
  split at h
  · exact h.elim
  split at h
  next layout fields htarget =>
    rw [htarget] at hnumber
    split at h
    next hstruct =>
      rw [hstruct] at hnumber
      obtain hnumeric | ⟨content, hcontent⟩ := hnumber
      · cases hnumeric
      · cases hcontent
    next => exact h.elim
  next text htarget =>
    rw [htarget] at hnumber
    split at h
    next htext =>
      obtain hnumeric | ⟨content, hcontent⟩ := hnumber
      · rw [WireType.isText_of_isNumeric hnumeric] at htext
        cases htext
      · cases hcontent
    next => exact h.elim
  next content htarget =>
    split at h
    next hnumeric =>
      obtain ⟨_, _, _, rfl, hleaving, hback⟩ := Intake.accepts_bind.1 h
      obtain ⟨content', hscalar, rfl⟩ := Intake.accepts_bimap.1 hleaving
      obtain ⟨rfl, rfl⟩ := hback
      exact ⟨hnumeric, by rw [List.append_nil, (accepts_decodeScalar_type hscalar).1]⟩
    next => exact h.elim
  next => exact h.elim

/-- The same of a plan that is for no array and leads over no references. -/
theorem accepts_decodeIn_number (hdirect : plan.IsDirect) (hsingle : plan.isArray = false)
    (hnumber : plan.wire.isNumeric = true ∨ ∃ content, value.target = .scalar content)
    (h : (decodeIn schema settings room path value plan).Accepts bytes result) :
    plan.wire.isNumeric = true ∧ bytes.length = plan.wire.byteSize := by
  rw [decodeIn_eq, hdirect.decodeWith_eq, hsingle] at h
  exact accepts_decodeLeaf_number hnumber h

/-- What is decoded into an element is decoded by the plan for it. -/
theorem planned_of_accepts_decodeElement {index : Nat}
    (h : (decodeElement (decodeBelow schema settings room) path plan index value).Accepts bytes
      result) :
    ∃ room' itemPlan, plan.element (.index index :: path) value = .ok itemPlan ∧
      (decodeIn schema settings room' (.index index :: path) value itemPlan).Accepts bytes
        result := by
  unfold decodeElement at h
  cases room with
  | zero => exact h.elim
  | succ room =>
      simp only [decodeBelow] at h
      cases hplan : plan.element (.index index :: path) value with
      | error error =>
          rw [hplan] at h
          exact h.elim
      | ok itemPlan =>
          rw [hplan] at h
          exact ⟨room, itemPlan, rfl, h⟩

/-- An element that is a scalar is decoded by a plan of a fixed size. -/
theorem isFixedSize_of_scalar {index : Nat} {content : Scalar} (hpad : plan.wire ≠ .pad)
    (hignore : plan.wire ≠ .ignore) (hscalar : value.target = .scalar content)
    (h : (decodeElement (decodeBelow schema settings room) path plan index value).Accepts bytes
      result) (hplan : plan.element path value = .ok itemPlan) : itemPlan.isFixedSize = true := by
  obtain ⟨room', itemPlan', hplan', haccepts⟩ := planned_of_accepts_decodeElement h
  cases (Plan.element_of_natural rfl hplan').symm.trans hplan
  obtain ⟨hpad', hignore', hisArray, -, hindirection⟩ := Plan.parts_of_element hpad hignore hplan
  have hnatural : value.natural = .single content.type.natural := by
    rw [← Value.natural_target, hscalar]
    rfl
  rw [hnatural] at hisArray hindirection
  obtain ⟨hnumeric, -⟩ := accepts_decodeIn_number ⟨hpad', hignore', hindirection⟩ hisArray
    (.inr ⟨content, hscalar⟩) haccepts
  simp [Plan.isFixedSize, hisArray, hindirection, Natural.single,
    WireType.byteSize_pos hnumeric]

/-- Slots of a scalar are skipped, whatever the scalar is. -/
theorem discardSlots_scalar {content : Scalar} (htarget : value.target = .scalar content)
    (hplan : plan.element path value = .ok itemPlan) (hfixed : itemPlan.isFixedSize = true)
    (stored slots : Nat) :
    discardSlots child path plan value.scratch stored slots =
      if slots ≤ stored then .done ()
      else if child.isNone then .fail (.located path .recursionLimit) ()
      else Intake.skip path (sizeMul itemPlan.wire.byteSize (slots - stored)) := by
  have hscratch : value.scratch = value.target := by
    unfold Value.scratch
    rw [htarget]
  have hnatural : value.target.natural.unsized = value.natural.unsized := by
    rw [Value.natural_target]
  rw [discardSlots, hscratch, Plan.element_of_natural hnatural hplan]
  simp only [hfixed, if_true]

/-- What is left of a value without elements is a scalar as well, or has the same scratch. -/
theorem Value.Serves.scratch_eq (h : value.Serves schema plan value') (hfirst : value.TakesFirst) :
    (∃ content content', value.target = .scalar content ∧ value'.target = .scalar content') ∨
      value'.scratch = value.scratch := by
  have htarget := h.target
  unfold TakesFirst at hfirst
  unfold scratch
  generalize value.target = core, value'.target = core' at htarget hfirst ⊢
  cases htarget with
  | @scalar _ content content' => exact .inl ⟨content, content', rfl, rfl⟩
  | text | inert => exact .inr rfl
  | vector | array | empty | filled | pointer | record => exact hfirst.elim

/-- The slots behind the first one are passed over in the same way. -/
theorem discardSlots_scratch {index : Nat} (hpad : plan.wire ≠ .pad) (hignore : plan.wire ≠ .ignore)
    (hserves : value.Serves schema plan value') (hfirst : value.TakesFirst)
    (h : (decodeElement (decodeBelow schema settings room) path plan index value).Accepts bytes
      result) (slots : Nat) :
    discardSlots child path plan value'.scratch 1 slots =
      discardSlots child path plan value.scratch 1 slots := by
  obtain ⟨content, content', htarget, htarget'⟩ | hscratch := hserves.scratch_eq hfirst
  · obtain ⟨room', itemPlan, hplan, -⟩ := planned_of_accepts_decodeElement h
    have hplan' : plan.element path value = .ok itemPlan := Plan.element_of_natural rfl hplan
    have hfixed := isFixedSize_of_scalar hpad hignore htarget h hplan'
    rw [discardSlots_scalar htarget hplan' hfixed,
      discardSlots_scalar htarget' (Plan.element_of_natural hserves.natural_eq hplan') hfixed]
  · rw [hscratch]

/-- A single value that is left takes the same bytes as its default. -/
theorem tracks_decodeSingle (hbelow : ServesBelow schema settings room) (hpad : plan.wire ≠ .pad)
    (hignore : plan.wire ≠ .ignore) (hserves : value.Serves schema plan value')
    (hfirst : value.TakesFirst)
    (hnumeric : ∀ content, value.target = .text content → plan.wire.isNumeric ≠ true) :
    Intake.Tracks (Value.Refilled schema plan value)
      (decodeSingle (decodeBelow schema settings room) path value plan)
      (decodeSingle (decodeBelow schema settings room) path value' plan) := by
  unfold decodeSingle
  cases hslots : plan.arrayLength.getD 1 with
  | zero =>
      refine Intake.tracks_done ⟨hserves, fun hlength => ?_⟩
      cases hnone : plan.arrayLength with
      | none =>
          rw [hnone] at hslots
          cases hslots
      | some slots =>
          rw [hnone] at hslots hlength
          exact absurd (congrArg some hslots) hlength
  | succ slots =>
      have hitem : value.ServesIn schema plan value' := fun _ _ hplan =>
        hserves.of_takesFirst hfirst fun _ htext =>
          (takesLength_of_element htext (hnumeric _ htext) hplan).1
      refine (tracks_decodeElement hbelow hpad hignore hitem 0).bind ?_
      rintro _ result result' haccepts ⟨itemPlan, hplan, hrefilled⟩
      have hserves' : value.Serves schema plan result' :=
        hrefilled.serves.of_takesFirst hfirst fun _ htext =>
          (takesLength_of_element htext (hnumeric _ htext) hplan).2
      have hnone : itemPlan.arrayLength ≠ some 0 := by
        rw [(Plan.parts_of_element hpad hignore hplan).2.2.2.1]
        exact nofun
      rw [discardSlots_scratch hpad hignore hserves hfirst haccepts]
      exact (Intake.tracks_same _).bimap_id.bind fun _ _ _ _ _ =>
        Intake.tracks_done ⟨hserves', fun _ => hrefilled.size_eq hnone⟩

end single

section arrays

variable {schema : Schema} {settings : Settings} {room : Nat} {path : Path} {plan : Plan}
  {value value' : Value} {element : HostType} {items items' : List Value}

/-- Resizing nothing gives copies of the default. -/
theorem resized_nil (default : Value) (slots : Nat) :
    resized default slots [] = List.replicate slots default := by
  rw [resized, List.take_nil, List.nil_append, List.length_nil, Nat.sub_zero]

/-- Copies of one value are related to items exactly if that value is related to each of them. -/
theorem forall₂_replicate {α β : Type} {related : α → β → Prop} {first : α} {seconds : List β} :
    List.Forall₂ related (List.replicate seconds.length first) seconds ↔
      ∀ second ∈ seconds, related first second := by
  induction seconds with
  | nil => simp
  | cons second rest ih => simp [List.replicate_succ, ih]

/-- The places of a growable sequence that was empty, and of what may be left of it. -/
theorem servesIn_resized (hsteady : element.Steady schema)
    (hitems : ∀ item ∈ items, (schema.default element).ServesIn schema plan item) (slots : Nat) :
    List.Forall₂ (Value.ServesIn schema plan) (resized (schema.default element) slots [])
      (resized (schema.default element) slots items) := by
  have hplaces : ∀ item ∈ resized (schema.default element) slots items,
      (schema.default element).ServesIn schema plan item := by
    intro item hitem
    obtain hold | hnew := List.mem_append.1 hitem
    · exact hitems item (List.mem_of_mem_take hold)
    · rw [List.eq_of_mem_replicate hnew]
      exact fun _ itemPlan _ => schema.serves_default hsteady itemPlan
  have hforall := forall₂_replicate.2 hplaces
  rwa [length_resized, ← resized_nil] at hforall

/-- A vector that is left takes the same bytes as the empty one. -/
theorem tracks_decodeVector (hbelow : ServesBelow schema settings room) (hpad : plan.wire ≠ .pad)
    (hignore : plan.wire ≠ .ignore) (hsteady : element.Steady schema)
    (hlength : plan.arrayLength = none → items = [])
    (hitems : ∀ item ∈ items, (schema.default element).ServesIn schema plan item) :
    Intake.Tracks (fun _ result' => (plan.arrayLength = none → result' = []) ∧
        ∀ item ∈ result', (schema.default element).ServesIn schema plan item)
      (decodeSequence schema settings (decodeBelow schema settings room) path plan .growable element
        [])
      (decodeSequence schema settings (decodeBelow schema settings room) path plan .growable element
        items) := by
  have hslots : plan.arrayLength.getD items.length =
      plan.arrayLength.getD ([] : List Value).length := by
    cases hnone : plan.arrayLength with
    | none => rw [hlength hnone]
    | some slots => rfl
  rw [decodeSequence_eq, decodeSequence_eq, hslots, if_pos rfl, if_pos rfl]
  split
  next => exact Intake.tracks_fail _ _ _
  next =>
    have hbytes : element = .byte →
        ∀ item ∈ resized (schema.default element) (plan.arrayLength.getD 0) [],
          ∃ byte, item = .ofByte byte := by
      rintro rfl item hitem
      rw [resized_nil] at hitem
      exact ⟨0, List.eq_of_mem_replicate hitem⟩
    refine (tracks_decodePlaces hbelow hpad hignore hbytes (servesIn_resized hsteady hitems _)).mono
      ?_
    intro _ result' hresult
    have hcount := hresult.length_eq
    rw [length_resized] at hcount
    rw [resized_nil, hcount] at hresult
    refine ⟨fun hnone => ?_, forall₂_replicate.1 hresult⟩
    rw [hnone] at hcount
    exact List.eq_nil_of_length_eq_zero hcount.symm

/-- An array of a fixed length that is left takes the same bytes as its default. -/
theorem tracks_decodeFixed (hbelow : ServesBelow schema settings room) (hpad : plan.wire ≠ .pad)
    (hignore : plan.wire ≠ .ignore)
    (hbytes : element = .byte → ∀ item ∈ items, ∃ byte, item = .ofByte byte)
    (h : List.Forall₂ (Value.ServesIn schema plan) items items') :
    Intake.Tracks (fun _ result' => List.Forall₂ (Value.ServesIn schema plan) items result')
      (decodeSequence schema settings (decodeBelow schema settings room) path plan .fixed element
        items)
      (decodeSequence schema settings (decodeBelow schema settings room) path plan .fixed element
        items') := by
  rw [decodeSequence_eq, decodeSequence_eq, ← h.length_eq, if_neg nofun, if_neg nofun]
  split
  next => exact Intake.tracks_fail _ _ _
  next => exact tracks_decodePlaces hbelow hpad hignore hbytes h

/-- The elements of an array, and what may be left of them. -/
theorem servesIn_iff :
    List.Forall₂ (Value.ServesIn schema plan) items items' ↔
      items'.length = items.length ∧ ∀ (index : Nat) item item' path itemPlan,
        items[index]? = some item → items'[index]? = some item' →
        plan.element path item = .ok itemPlan → item.Serves schema itemPlan item' := by
  rw [List.forall₂_iff_get, eq_comm]
  refine and_congr_right fun hlength => ⟨?_, ?_⟩
  · intro h index item item' path itemPlan hitem hitem' hplan
    obtain ⟨hindex, rfl⟩ := List.getElem?_eq_some_iff.1 hitem
    obtain ⟨hindex', rfl⟩ := List.getElem?_eq_some_iff.1 hitem'
    exact h index hindex hindex' path itemPlan hplan
  · intro h index hindex hindex' path itemPlan hplan
    exact h index _ _ path itemPlan (List.getElem?_eq_getElem hindex)
      (List.getElem?_eq_getElem hindex') hplan

/-- Nothing is put into a string that is read only. -/
theorem not_accepts_putText {destination : Value} {intake : Intake Unit String} {bytes : Bytes}
    {result : Value} (h : destination.isReadOnly = true) :
    ¬ (putText path destination intake).Accepts bytes result := by
  intro haccepts
  obtain ⟨_, _, _, -, -, hput⟩ := Intake.accepts_bind.1 haccepts
  rw [if_pos h] at hput
  exact hput

/-- A value into which nothing can be decoded stays as it is. -/
theorem Value.Serves.eq_of_inert (h : value.Serves schema plan value')
    (hinert : value.target.IsInert) : value' = value := by
  induction h with
  | inert => rfl
  | pointer h ih => rw [ih hinert]
  | scalar | text | vector | array | empty | filled | record => exact hinert.elim

/-- A sequence behind the pointers of what may be left of a value. -/
theorem tracks_putItems {kind : SequenceKind} {left left' : List Value → Value}
    {related : List Value → List Value → Prop} {intake intake' : Intake (List Value) (List Value)}
    (hserves : value.Serves schema plan value') (h : Intake.Tracks related intake intake')
    (hrelated : ∀ result result', related result result' →
      value.target.Serves schema plan (.sequence kind element result')) :
    Intake.Tracks (Value.Refilled schema plan value)
      (intake.bimap left fun items => value.withTarget (.sequence kind element items))
      (intake'.bimap left' fun items => value'.withTarget (.sequence kind element items)) :=
  h.bimap fun result result' hresult =>
    ⟨hserves.withTarget (hrelated result result' hresult), fun _ => by
      rw [size?_withTarget, size?_withTarget]
      rfl⟩

/-- Whatever may be left of a default takes the same bytes as an array. -/
theorem tracks_decodeArray (hbelow : ServesBelow schema settings room) (hpad : plan.wire ≠ .pad)
    (hignore : plan.wire ≠ .ignore) (hindirection : value.natural.indirection = 0)
    (hserves : value.Serves schema plan value') :
    Intake.Tracks (Value.Refilled schema plan value)
      (decodeArray schema settings (decodeBelow schema settings room) path value plan)
      (decodeArray schema settings (decodeBelow schema settings room) path value' plan) := by
  have hfirst (hsingle : value.TakesFirst)
      (hnumeric : ∀ content, value.target = .text content → plan.wire.isNumeric ≠ true) :
      Intake.Tracks (Value.Refilled schema plan value)
        (decodeSingle (decodeBelow schema settings room) path value plan)
        (decodeSingle (decodeBelow schema settings room) path value' plan) :=
    tracks_decodeSingle hbelow hpad hignore hserves hsingle hnumeric
  have hreadOnly := value.isReadOnly_of_target
  have hdirect := (Value.form_of_direct hindirection).1
  have hpointer := value.target_ne_pointer
  have htarget := hserves.target
  have hinert := hserves.eq_of_inert
  unfold decodeArray
  unfold Value.TakesFirst at hfirst
  unfold Value.form at hdirect
  generalize hcontent : value.target = content, hcontent' : value'.target = content' at *
  cases htarget with
  | scalar => exact hfirst trivial nofun
  | @text _ text hempty =>
      simp only
      split
      next hnumeric =>
        exact tracks_putText hserves hcontent (tracks_decodeNumbersAsText hnumeric hempty _)
      next hnumeric => exact hfirst trivial fun _ _ => hnumeric
  | inert h =>
      cases hinert h
      cases content with
      | borrowedText text =>
          simp only
          split
          next => exact fun _ _ haccepts => (not_accepts_putText (hreadOnly rfl) haccepts).elim
          next => exact hfirst h nofun
      | foreign name => exact hfirst h nofun
      | dynamic content => exact hfirst h nofun
      | sequence kind element items =>
          simp only
          cases kind with
          | borrowed =>
              rw [if_pos (hreadOnly rfl)]
              exact Intake.tracks_fail _ _ _
          | growable | fixed => exact h.elim
      | scalar | text | optional | pointer | record => exact h.elim
  | vector hsteady hlength hitems =>
      simp only
      rw [hserves.isReadOnly_eq]
      split
      next => exact Intake.tracks_fail _ _ _
      next =>
        refine tracks_putItems hserves
          (tracks_decodeVector hbelow hpad hignore hsteady hlength hitems) ?_
        rintro _ result' ⟨hlength', hitems'⟩
        rw [hcontent]
        exact .vector hsteady hlength' hitems'
  | array hsteady hlength hbytes hitems =>
      simp only
      rw [hserves.isReadOnly_eq]
      split
      next => exact Intake.tracks_fail _ _ _
      next =>
        refine tracks_putItems hserves
          (tracks_decodeFixed hbelow hpad hignore hbytes (servesIn_iff.2 ⟨hlength, hitems⟩)) ?_
        intro _ result' hresult
        obtain ⟨hlength', hitems'⟩ := servesIn_iff.1 hresult
        rw [hcontent]
        exact .array hsteady hlength' hbytes hitems'
  | empty | filled => exact absurd rfl hdirect
  | @pointer _ kind target => exact absurd rfl (hpointer kind target)
  | record => exact Intake.tracks_fail _ _ _

end arrays

end PackedRecord
