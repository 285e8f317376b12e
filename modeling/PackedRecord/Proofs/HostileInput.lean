import PackedRecord.Decoder
import PackedRecord.Proofs.Evolution
import PackedRecord.Proofs.StableSizes
import PackedRecord.Proofs.TextBounds

/-!
# Limits of decoding

Whatever bytes a decoder is given, it keeps within its limits: vectors and strings do not get too
long, nothing is put too deep into the destination, and a value that is refused for its length has
taken next to nothing. `Decoder.limits_of_decodeAs` is the statement to read; `contained_in` says so
of every value below, by induction on how far down there is room.
-/

namespace PackedRecord

open Intake

/-- If the error is that the value at `path` would become too long, then a sequence has taken no
byte and a string no more than `allowance` bytes. -/
inductive Error.Justified (path : Path) (allowance : Nat) : (taken : Nat) → Error → Prop where
  | withinBlob {taken : Nat} {error : Error} (h : error.WithinBlob path allowance taken) :
      Justified path allowance taken error
  | collect {length : Nat} : Justified path allowance 0 (.located path (.collectLimit length))

/-- A fault of length at `path` is about the value at `path`. -/
theorem Error.not_spares_of_isLimit {path : Path} {fault : Fault} (h : fault.isLimit = true)
    (hdepth : fault ≠ .recursionLimit) : ¬ (Error.located path fault).Spares path := by
  intro hspares
  generalize herror : Error.located path fault = error at hspares
  cases hspares with
  | clean => cases herror
  | broken => cases herror
  | other hother =>
      cases herror
      rw [h] at hother
      cases hother
  | tooDeep => exact hdepth (Error.located.inj herror).2
  | below steps step =>
      have hlength := congrArg List.length (Error.located.inj herror).1
      rw [List.length_append, List.length_cons] at hlength
      omega

/-- A justified error about the number of elements took no bytes. -/
theorem Error.Justified.taken_of_collect {path : Path} {allowance taken length : Nat}
    (h : (Error.located path (.collectLimit length)).Justified path allowance taken) :
    taken = 0 := by
  cases h with
  | withinBlob h =>
      cases h with
      | spared h => exact absurd h (Error.not_spares_of_isLimit rfl nofun)
  | collect => rfl

/-- A justified error about the length of a string took no more bytes than the allowance. -/
theorem Error.Justified.taken_of_blob {path : Path} {allowance taken length : Nat}
    (h : (Error.located path (.blobLimit length)).Justified path allowance taken) :
    taken ≤ allowance := by
  cases h with
  | withinBlob h =>
      cases h with
      | spared h => exact absurd h (Error.not_spares_of_isLimit rfl nofun)
      | blob h => exact h

/-- An error that is not about the length of the value is justified. -/
theorem Error.Spares.justified {path : Path} {allowance taken : Nat} {error : Error}
    (h : error.Spares path) : error.Justified path allowance taken :=
  .withinBlob (.spared h)

/-- An error that spares an element spares its container. -/
theorem Error.Spares.outer {path : Path} {step : Step} {error : Error}
    (h : error.Spares (step :: path)) : error.Spares path := by
  cases h with
  | clean => exact .clean
  | broken defect => exact .broken defect
  | other | tooDeep => exact .below [] step _
  | below steps inner fault =>
      rw [List.append_cons]
      exact .below (steps ++ [inner]) step fault

/-- An error about a value one step further down is not about this one. -/
theorem Error.Justified.outer {path : Path} {step : Step} {allowance taken : Nat} {error : Error}
    (h : error.Justified (step :: path) allowance taken) : error.Spares path := by
  cases h with
  | withinBlob h =>
      cases h with
      | spared h => exact h.outer
      | blob => exact .below [] step _
  | collect => exact .below [] step _

/-- The first value becomes the second one by assignments within the limits. -/
abbrev EvolvesWithin (schema : Schema) (limits : Limits) (path : Path) (plan : Plan)
    (value value' : Value) : Prop :=
  Evolves schema (Assignment.Within limits) path plan value value'

variable {schema : Schema} {settings : Settings}

/-- Decoding keeps within the limits: by its plan the destination evolves by assignments within
them, up to the end or to an error, and an error about its length is justified. -/
def Contained (schema : Schema) (settings : Settings) (path : Path) (plan : Plan) (value : Value)
    (intake : Intake Value Value) : Prop :=
  intake.Ensures
    (fun taken error left =>
      error.Justified path (plan.allowance settings.limits) taken ∧
        EvolvesWithin schema settings.limits path plan value left)
    fun _ result => EvolvesWithin schema settings.limits path plan value result

/-- Errors that spare the value at `path` are justified for it, wherever the count of the bytes
starts. -/
theorem ensures_justified {α β : Type} {path : Path} {allowance : Nat} {keeps : β → Prop}
    {ends : Nat → α → Prop} {intake : Intake β α} {count : Nat → Nat}
    (h : intake.Ensures (fun _ error left => error.Spares path ∧ keeps left) ends) :
    intake.Ensures
      (fun taken error left => error.Justified path allowance (count taken) ∧ keeps left) ends :=
  h.mono (fun _ _ _ hstop => ⟨hstop.1.justified, hstop.2⟩) fun _ _ hresult => hresult

/-- A value that is refused at no limit is contained, because nothing happens to it. -/
theorem contained_fail {path : Path} {plan : Plan} {value : Value} {fault : Fault}
    (h : fault.isLimit = false) :
    Contained schema settings path plan value (.fail (.located path fault) value) :=
  ⟨.withinBlob (.spared (.other h)), .refl path plan value⟩

/-- What is decoded into a part of the value behind the pointers keeps within the limits if that
value evolves within them. -/
theorem contained_within {β : Type} {path : Path} {plan : Plan} {value : Value} {put : β → Value}
    {intake : Intake β β}
    (h : intake.Ensures
      (fun taken error left => error.Justified path (plan.allowance settings.limits) taken ∧
        EvolvesWithin schema settings.limits path plan value.target (put left))
      fun _ result => EvolvesWithin schema settings.limits path plan value.target (put result)) :
    Contained schema settings path plan value
      (intake.within fun part => value.withTarget (put part)) :=
  ensures_bimap.2 (h.mono (fun _ _ _ hstop => ⟨hstop.1, hstop.2.withTarget⟩)
    fun _ _ hresult => hresult.withTarget)

/-- What is read before a value is changed keeps within the limits if its errors are justified. -/
theorem ensures_leaving_value {α β : Type} {path : Path} {plan : Plan} {ends : Nat → α → Prop}
    {intake : Intake β α} (value : Value)
    (h : intake.Ensures
      (fun taken error _ => error.Justified path (plan.allowance settings.limits) taken) ends) :
    (Intake.leaving value intake).Ensures
      (fun taken error left => error.Justified path (plan.allowance settings.limits) taken ∧
        EvolvesWithin schema settings.limits path plan value left) ends :=
  (h.mono (fun _ _ _ herror => ⟨herror, .refl path plan value⟩) fun _ _ hresult => hresult).leaving

/-- What is decoded behind references keeps within the limits if the decoding there does. -/
theorem contained_decodeBehind {path : Path} {plan : Plan} {decode : Value → Intake Value Value}
    (hdecode : ∀ content, Contained schema settings path plan content (decode content))
    (levels : Nat) (value : Value) :
    Contained schema settings path plan value (decodeBehind schema path decode levels value) := by
  induction levels generalizing value with
  | zero => exact hdecode value
  | succ levels ih =>
      have hoptional (type : HostType) (content : Option Value) (target : Value)
          (h : EvolvesWithin schema settings.limits path plan
            (content.getD (schema.default type)) target) :
          EvolvesWithin schema settings.limits path plan (.optional type content)
            (.optional type (some target)) := by
        cases content with
        | none => exact .trans (.fill type) (.optional h)
        | some content => exact .optional h
      unfold decodeBehind
      split
      next => exact contained_fail rfl
      next =>
        split
        next type content htarget =>
          refine contained_within ?_
          rw [htarget]
          exact (ih _).mono (fun _ _ left h => ⟨h.1, hoptional type content left h.2⟩)
            fun _ result h => hoptional type content result h
        next content htarget =>
          refine contained_within ?_
          rw [htarget]
          exact (ih _).mono (fun _ _ _ h => ⟨h.1, .dynamic h.2⟩) fun _ _ h => .dynamic h
        next => exact contained_fail rfl

/-- The item of an array becomes another one as its element at `index`. -/
def ElementEvolves (schema : Schema) (settings : Settings) (path : Path) (plan : Plan) (index : Nat)
    (item item' : Value) : Prop :=
  item' = item ∨ ∃ itemPlan, plan.element (.index index :: path) item = .ok itemPlan ∧
    EvolvesWithin schema settings.limits (.index index :: path) itemPlan item item'

namespace ElementEvolves

variable {path : Path} {plan : Plan} {index : Nat} {item item' : Value}

/-- What happens to an element happens to its sequence. -/
theorem sequence {kind : SequenceKind} {type : HostType} {before after : List Value}
    (harray : plan.isArray = true) (hindex : before.length = index)
    (h : ElementEvolves schema settings path plan index item item') :
    EvolvesWithin schema settings.limits path plan
      (.sequence kind type (before ++ item :: after))
      (.sequence kind type (before ++ item' :: after)) := by
  rcases h with rfl | ⟨itemPlan, hplan, h⟩
  · exact .refl path plan _
  · have hitem : (before ++ item :: after)[index]? = some item := by simp [← hindex]
    have hset : (before ++ item :: after).set index item' = before ++ item' :: after := by
      simp [← hindex]
    rw [← hset]
    exact .element harray hitem hplan h

/-- What happens to the only element of an array happens to the array. -/
theorem single (harray : plan.isArray = true)
    (hsingle : ∀ kind element items, item.target ≠ .sequence kind element items)
    (h : ElementEvolves schema settings path plan 0 item item') :
    EvolvesWithin schema settings.limits path plan item item' := by
  rcases h with rfl | ⟨itemPlan, hplan, h⟩
  · exact .refl path plan _
  · exact .single harray hsingle hplan h

end ElementEvolves

section children

variable {child : Option ChildDecoder} {path : Path} {plan : Plan}

/-- What is decoded one step below `path` keeps within the limits. -/
def ChildContained (schema : Schema) (settings : Settings) (child : Option ChildDecoder)
    (path : Path) : Prop :=
  ∀ decode, child = some decode → ∀ step plan value,
    Contained schema settings (step :: path) plan value (decode (step :: path) value plan)

/-- An element evolves, however its decoding ends, and its errors spare the array. -/
theorem ensures_decodeElement (hchild : ChildContained schema settings child path) (index : Nat)
    (item : Value) :
    (decodeElement child path plan index item).Ensures
      (fun _ error left =>
        error.Spares path ∧ ElementEvolves schema settings path plan index item left)
      fun _ result => ElementEvolves schema settings path plan index item result := by
  cases child with
  | none => exact ⟨.tooDeep, .inl rfl⟩
  | some decode =>
      unfold decodeElement
      simp only
      split
      next error hplan => exact ⟨(Plan.isOwn_of_element hplan).spares.outer, .inl rfl⟩
      next itemPlan hplan =>
        refine (hchild decode rfl (.index index) itemPlan item).mono ?_ ?_
        · rintro taken error left ⟨herror, hleft⟩
          exact ⟨herror.outer, .inr ⟨itemPlan, hplan, hleft⟩⟩
        · intro _ result hresult
          exact .inr ⟨itemPlan, hplan, hresult⟩

/-- Elements evolve one after another, while those before and behind them stay. -/
theorem ensures_decodeElements (hchild : ChildContained schema settings child path)
    (harray : plan.isArray = true) (kind : SequenceKind) (type : HostType) {index : Nat}
    {decoded : List Value} (items beyond : List Value) (hindex : decoded.length = index) :
    (decodeElements child path plan index decoded items).Ensures
      (fun _ error left => error.Spares path ∧
        EvolvesWithin schema settings.limits path plan
          (.sequence kind type (decoded.reverse ++ items ++ beyond))
          (.sequence kind type (left ++ beyond)))
      fun _ result => EvolvesWithin schema settings.limits path plan
        (.sequence kind type (decoded.reverse ++ items ++ beyond))
        (.sequence kind type (result ++ beyond)) := by
  induction items generalizing index decoded with
  | nil =>
      unfold decodeElements
      rw [List.append_nil]
      exact .refl path plan _
  | cons item items ih =>
      have hstep {item' : Value} (h : ElementEvolves schema settings path plan index item item') :
          EvolvesWithin schema settings.limits path plan
            (.sequence kind type (decoded.reverse ++ item :: items ++ beyond))
            (.sequence kind type (decoded.reverse ++ item' :: items ++ beyond)) := by
        rw [List.append_assoc, List.append_assoc]
        exact h.sequence harray (by rw [List.length_reverse, hindex])
      have hfirst : ((decodeElement child path plan index item).bimap
          (fun item => decoded.reverseAux (item :: items)) id).Ensures
          (fun _ error left => error.Spares path ∧
            EvolvesWithin schema settings.limits path plan
              (.sequence kind type (decoded.reverse ++ item :: items ++ beyond))
              (.sequence kind type (left ++ beyond)))
          fun _ item' => EvolvesWithin schema settings.limits path plan
            (.sequence kind type (decoded.reverse ++ item :: items ++ beyond))
            (.sequence kind type (decoded.reverse ++ item' :: items ++ beyond)) := by
        refine ensures_bimap.2 ((ensures_decodeElement hchild index item).mono ?_ ?_)
        · rintro _ error item' ⟨herror, hitem⟩
          rw [List.reverseAux_eq]
          exact ⟨herror, hstep hitem⟩
        · intro _ item' hitem
          exact hstep hitem
      unfold decodeElements
      refine hfirst.bind ?_
      intro _ item' hitem
      have hlength : (item' :: decoded).length = index + 1 := by rw [List.length_cons, hindex]
      have hmiddle : (item' :: decoded).reverse ++ items = decoded.reverse ++ item' :: items := by
        simp
      have hrest := ih hlength
      rw [hmiddle] at hrest
      refine hrest.mono ?_ ?_
      · rintro _ error left ⟨herror, hleft⟩
        exact ⟨herror, hitem.trans hleft⟩
      · intro _ result hresult
        exact hitem.trans hresult

/-- The elements of a sequence evolve, at once or one after another, while those behind them
stay. -/
theorem ensures_decodeItems (hchild : ChildContained schema settings child path)
    (hdepth : path.depth ≤ settings.limits.recursion) (harray : plan.isArray = true)
    (kind : SequenceKind) (element : HostType) (items beyond : List Value) :
    (decodeItems child path plan element items).Ensures
      (fun _ error left => error.Spares path ∧
        EvolvesWithin schema settings.limits path plan
          (.sequence kind element (items ++ beyond)) (.sequence kind element (left ++ beyond)))
      fun _ result => EvolvesWithin schema settings.limits path plan
        (.sequence kind element (items ++ beyond)) (.sequence kind element (result ++ beyond)) := by
  unfold decodeItems
  split
  next hbulk =>
    obtain ⟨rfl, hwire⟩ := hbulk
    have hbytes {data : Bytes} (hdata : data.length ≤ items.length) :
        EvolvesWithin schema settings.limits path plan (.sequence kind .byte (items ++ beyond))
          (.sequence kind .byte
            (data.map Value.ofByte ++ items.drop data.length ++ beyond)) := by
      rw [List.append_assoc, ← List.drop_append_of_le_length hdata]
      exact .bytes harray hwire (by rw [List.length_append]; omega) hdepth
    refine ⟨fun data hdata error herror => ⟨herror.spares, hbytes hdata⟩, ?_⟩
    intro data hdata
    have hall := hbytes (Nat.le_of_eq hdata)
    rw [hdata, List.drop_length, List.append_nil] at hall
    exact hall
  next =>
    have hnone : ([] : List Value).length = 0 := rfl
    exact ensures_decodeElements hchild harray kind element items beyond hnone

/-- Elements without a place in the destination do not change it. -/
theorem ensures_discardElements (hchild : ChildContained schema settings child path)
    (count index : Nat) (scratch : Value) :
    (discardElements child path plan count index scratch).Ensures
      (fun _ error _ => error.Spares path) fun _ _ => True := by
  induction count generalizing index scratch with
  | zero => trivial
  | succ count ih =>
      have hfirst : (Intake.leaving () (decodeElement child path plan index scratch)).Ensures
          (fun _ error _ => error.Spares path) fun _ _ => True :=
        ((ensures_decodeElement hchild index scratch).mono (fun _ _ _ h => h.1)
          fun _ _ _ => trivial).leaving
      exact hfirst.bind fun _ scratch _ => ih (index + 1) scratch

/-- Slots that are passed over give only errors that spare the array. -/
theorem ensures_discardSlots (hchild : ChildContained schema settings child path) (scratch : Value)
    (stored slots : Nat) :
    (discardSlots child path plan scratch stored slots).Ensures
      (fun _ error _ => error.Spares path) fun _ _ => True := by
  unfold discardSlots
  split
  next => trivial
  next =>
    split
    next => exact .tooDeep
    next =>
      split
      next error hplan => exact (Plan.isOwn_of_element hplan).spares.outer
      next itemPlan hplan =>
        split
        next => exact ensures_skip trivial fun _ _ h => h.spares
        next => exact ensures_discardElements hchild _ _ scratch

/-- Slots that are passed over leave what was decoded before them. -/
theorem ensures_leaving_discardSlots {β : Type} (keeps : β → Prop) {decoded : β}
    (hchild : ChildContained schema settings child path) (hdecoded : keeps decoded)
    (scratch : Value) (stored slots : Nat) :
    (Intake.leaving decoded (discardSlots child path plan scratch stored slots) >>= fun _ =>
      pure decoded).Ensures
      (fun _ error left => error.Spares path ∧ keeps left) fun _ result => keeps result := by
  have hdiscard :
      (Intake.leaving decoded (discardSlots child path plan scratch stored slots)).Ensures
      (fun _ error left => error.Spares path ∧ keeps left) fun _ _ => True :=
    ((ensures_discardSlots hchild scratch stored slots).mono (fun _ _ _ h => ⟨h, hdecoded⟩)
      fun _ _ h => h).leaving
  exact hdiscard.bind fun _ _ _ => hdecoded

/-- The places of a sequence that is decoded are its own, or as many as the limit allows. -/
theorem evolvesWithin_places (schema : Schema) (path : Path) {plan : Plan}
    (harray : plan.isArray = true) {limits : Limits} {slots : Nat}
    (hfits : slots ≤ limits.collect) (kind : SequenceKind) (element : HostType)
    (items : List Value) :
    EvolvesWithin schema limits path plan (.sequence kind element items)
      (.sequence kind element
        (if kind = .growable then resized (schema.default element) slots items else items)) := by
  split
  next hkind =>
    subst hkind
    exact .resize harray hfits
  next => exact .refl path plan _

/-- A sequence is refused for its length before any byte of it is read, and evolves into one that
is no longer than the limit if its length can change. -/
theorem ensures_decodeSequence (hchild : ChildContained schema settings child path)
    (hdepth : path.depth ≤ settings.limits.recursion) (harray : plan.isArray = true)
    (kind : SequenceKind) (element : HostType) (items : List Value) (allowance : Nat) :
    (decodeSequence schema settings child path plan kind element items).Ensures
      (fun taken error left => error.Justified path allowance taken ∧
        EvolvesWithin schema settings.limits path plan (.sequence kind element items)
          (.sequence kind element left))
      fun _ result => EvolvesWithin schema settings.limits path plan (.sequence kind element items)
        (.sequence kind element result) := by
  unfold decodeSequence
  simp only [Limits.checkCollect]
  generalize plan.arrayLength.getD items.length = slots
  by_cases hfits : slots ≤ settings.limits.collect
  · rw [if_pos hfits]
    have hresize := evolvesWithin_places schema path harray hfits kind element items
    generalize (if kind = .growable then resized (schema.default element) slots items else items) =
      places at hresize ⊢
    have hitems := ensures_decodeItems hchild hdepth harray kind element (places.take slots)
      (places.drop slots)
    rw [List.take_append_drop] at hitems
    have hdecoded : ((decodeItems child path plan element (places.take slots)).within
        (· ++ places.drop slots)).Ensures
        (fun taken error left => error.Justified path allowance taken ∧
          EvolvesWithin schema settings.limits path plan (.sequence kind element items)
            (.sequence kind element left))
        fun _ result => EvolvesWithin schema settings.limits path plan
          (.sequence kind element items) (.sequence kind element result) := by
      refine ensures_bimap.2 (hitems.mono ?_ ?_)
      · rintro taken error left ⟨herror, hleft⟩
        exact ⟨herror.justified, hresize.trans hleft⟩
      · intro _ result hresult
        exact hresize.trans hresult
    refine hdecoded.bind ?_
    intro taken decoded hdecoded
    let keeps (left : List Value) := EvolvesWithin schema settings.limits path plan
      (.sequence kind element items) (.sequence kind element left)
    exact ensures_justified (ensures_leaving_discardSlots keeps hchild hdecoded _ _ _)
  · rw [if_neg hfits]
    exact ⟨.collect, .refl path plan _⟩

/-- Decoded items are as many as before. -/
theorem ensures_length_decodeItems (hchild : ChildContained schema settings child path)
    (hdepth : path.depth ≤ settings.limits.recursion) (harray : plan.isArray = true)
    (element : HostType) (items : List Value) :
    (decodeItems child path plan element items).Ensures (fun _ error _ => error.Spares path)
      fun _ result => result.length = items.length := by
  refine ((ensures_decodeItems hchild hdepth harray .fixed element items []).and
    (ensures_accepts _)).mono (fun _ _ _ h => h.1.1) ?_
  rintro _ result ⟨-, bytes, -, haccepts⟩
  exact length_of_accepts_decodeItems haccepts

/-- A string from an array of numbers has no more bytes than the array may have elements. -/
theorem ensures_decodeNumbersAsText (hchild : ChildContained schema settings child path)
    (hdepth : path.depth ≤ settings.limits.recursion) (harray : plan.isArray = true)
    (current allowance : Nat) :
    (decodeNumbersAsText settings child path plan current).Ensures
      (fun taken error _ => error.Justified path allowance taken)
      fun _ text => text.utf8ByteSize ≤ settings.limits.collect := by
  unfold decodeNumbersAsText
  simp only [Limits.checkCollect]
  generalize plan.arrayLength.getD current = slots
  by_cases hfits : slots ≤ settings.limits.collect
  · rw [if_pos hfits]
    have hitems : (Intake.leaving () (decodeItems child path plan .byte
        (List.replicate slots (Value.ofByte 0)))).Ensures
        (fun taken error _ => error.Justified path allowance taken)
        fun _ items => items.length = slots :=
      ((ensures_length_decodeItems hchild hdepth harray .byte _).mono (fun _ _ _ h => h.justified)
        fun _ _ h => h.trans List.length_replicate).leaving
    refine hitems.bind ?_
    intro taken items hlength
    refine ensures_ofExcept ?_ fun error h => (spares_of_textOfBytes h).justified
    intro text htext
    have hsize := utf8ByteSize_of_textOfBytes htext
    have hbytes := List.length_filterMap_le Value.byte? items
    omega
  · rw [if_neg hfits]
    exact .collect

/-- A string that is put into a destination is an assignment to it. -/
theorem contained_putText {value : Value} {intake : Intake Unit String}
    (h : intake.Ensures
      (fun taken error _ => error.Justified path (plan.allowance settings.limits) taken)
      fun _ text => value.isReadOnly = false →
        EvolvesWithin schema settings.limits path plan value.target (.text text)) :
    Contained schema settings path plan value (putText path value intake) := by
  refine (ensures_leaving_value value h).bind ?_
  intro taken text hevolves
  split
  next => exact ⟨.withinBlob (.spared (.other rfl)), .refl path plan value⟩
  next hwritable => exact .withTarget (hevolves (Bool.not_eq_true _ ▸ hwritable))

/-- What is decoded into the only element of an array keeps within the limits. -/
theorem contained_decodeSingle (hchild : ChildContained schema settings child path)
    (harray : plan.isArray = true) {value : Value}
    (hsingle : ∀ kind element items, value.target ≠ .sequence kind element items) :
    Contained schema settings path plan value (decodeSingle child path value plan) := by
  unfold decodeSingle
  split
  next => exact .refl path plan value
  next slots _ =>
    have hfirst : (decodeElement child path plan 0 value).Ensures
        (fun taken error left => error.Justified path (plan.allowance settings.limits) taken ∧
          EvolvesWithin schema settings.limits path plan value left)
        fun _ result => EvolvesWithin schema settings.limits path plan value result :=
      (ensures_decodeElement hchild 0 value).mono
        (fun _ _ _ h => ⟨h.1.justified, h.2.single harray hsingle⟩)
        fun _ _ h => h.single harray hsingle
    refine hfirst.bind ?_
    intro taken decoded hdecoded
    exact ensures_justified (ensures_leaving_discardSlots
      (EvolvesWithin schema settings.limits path plan value) hchild hdecoded _ _ _)

/-- What is decoded as an array keeps within the limits. -/
theorem contained_decodeArray (hchild : ChildContained schema settings child path)
    (hdepth : path.depth ≤ settings.limits.recursion) (harray : plan.isArray = true)
    (value : Value) :
    Contained schema settings path plan value
      (decodeArray schema settings child path value plan) := by
  unfold decodeArray
  split
  next => exact contained_fail rfl
  next kind element items htarget =>
    split
    next => exact contained_fail rfl
    next =>
      refine contained_within ?_
      rw [htarget]
      exact ensures_decodeSequence hchild hdepth harray kind element items _
  next text htarget =>
    split
    next hwire =>
      refine contained_putText ((ensures_decodeNumbersAsText hchild hdepth harray _ _).mono
        (fun _ _ _ h => h) ?_)
      intro _ new hnew _
      rw [htarget]
      exact .numbers text harray hwire ⟨hdepth, hnew⟩
    next => exact contained_decodeSingle hchild harray (by simp [htarget])
  next text htarget =>
    split
    next =>
      refine contained_putText ((ensures_decodeNumbersAsText hchild hdepth harray _ _).mono
        (fun _ _ _ h => h) ?_)
      intro _ new _ hwritable
      have hborrowed : value.target.isReadOnly = true := by rw [htarget]; rfl
      rw [Value.isReadOnly_of_target hborrowed] at hwritable
      cases hwritable
    next => exact contained_decodeSingle hchild harray (by simp [htarget])
  next hsequence _ _ => exact contained_decodeSingle hchild harray hsequence

/-- What is decoded into a field happens to its record. -/
theorem ensures_decodeField (hchild : ChildContained schema settings child path)
    (harray : plan.isArray = false) (hwire : plan.wire = .struct) {layout : Layout} {index : Nat}
    {field : FieldLayout} (hfield : layout.fields[index]? = some field) (fields : List Value) :
    (decodeField child path ⟨layout, fields⟩ index field).Ensures
      (fun _ error left => error.Spares path ∧
        EvolvesWithin schema settings.limits path plan (.record layout fields)
          (.record layout left))
      fun _ result =>
        EvolvesWithin schema settings.limits path plan (.record layout fields)
          (.record layout result) := by
  have hrefl : EvolvesWithin schema settings.limits path plan (.record layout fields)
      (.record layout fields) := .refl path plan _
  unfold decodeField
  split
  next => exact hrefl
  next hexported =>
    cases child with
    | none => exact ⟨.tooDeep, hrefl⟩
    | some decode =>
        simp only
        split
        next => exact ⟨.below [] _ _, hrefl⟩
        next tag htag =>
          split
          next => exact hrefl
          next hignore =>
            unfold Record.field
            cases hvalue : fields[index]? with
            | none => exact ⟨.broken _, hrefl⟩
            | some value =>
                simp only
                split
                next error hplan => exact ⟨(Plan.isOwn_of_resolve hplan).spares.outer, hrefl⟩
                next fieldPlan hplan =>
                  have hset {value' : Value} (h : EvolvesWithin schema settings.limits
                      (.field field.name :: path) fieldPlan value value') :
                      EvolvesWithin schema settings.limits path plan (.record layout fields)
                        (.record layout (fields.set index value')) :=
                    .field harray hwire hfield (not_not.1 hexported) htag hignore hvalue hplan h
                  refine ensures_bimap.2 ((hchild decode rfl _ fieldPlan value).mono ?_ ?_)
                  · rintro _ error left ⟨herror, hleft⟩
                    exact ⟨herror.outer, hset hleft⟩
                  · intro _ result hresult
                    exact hset hresult

/-- The fields of a record evolve one after another. -/
theorem ensures_decodeFields (hchild : ChildContained schema settings child path)
    (harray : plan.isArray = false) (hwire : plan.wire = .struct) {layout : Layout} {index : Nat}
    {rest : List FieldLayout} (hrest : layout.fields.drop index = rest) (fields : List Value) :
    (decodeFields child path layout index rest fields).Ensures
      (fun _ error left => error.Spares path ∧
        EvolvesWithin schema settings.limits path plan (.record layout fields)
          (.record layout left))
      fun _ result =>
        EvolvesWithin schema settings.limits path plan (.record layout fields)
          (.record layout result) := by
  induction rest generalizing index fields with
  | nil => exact .refl path plan _
  | cons field rest ih =>
      obtain ⟨hfield, hlater⟩ := Layout.fields_of_drop hrest
      unfold decodeFields
      refine (ensures_decodeField hchild harray hwire hfield fields).bind ?_
      intro _ half hhalf
      refine (ih hlater half).mono ?_ ?_
      · rintro _ error left ⟨herror, hleft⟩
        exact ⟨herror, hhalf.trans hleft⟩
      · intro _ result hresult
        exact hhalf.trans hresult

/-- A scalar gives only errors that are not about a length. -/
theorem ensures_decodeScalar (wire : WireType) (type : ScalarType) :
    (decodeScalar settings path wire type).Ensures (fun _ error _ => error.Spares path)
      fun _ _ => True := by
  unfold decodeScalar
  refine (ensures_readImage wire.byteSize).bind ?_
  intro _ image _
  split
  next => trivial
  next fault _ => exact .other (by cases fault <;> rfl)

/-- What is decoded into a value that is no array keeps within the limits. -/
theorem contained_decodeLeaf (hchild : ChildContained schema settings child path)
    (hdepth : path.depth ≤ settings.limits.recursion) (harray : plan.isArray = false)
    (value : Value) :
    Contained schema settings path plan value (decodeLeaf settings child path value plan) := by
  unfold decodeLeaf
  simp only
  split
  next => exact contained_fail rfl
  next =>
    split
    next layout fields htarget =>
      split
      next hwire =>
        refine contained_within ?_
        rw [htarget]
        exact ensures_justified (ensures_decodeFields hchild harray hwire List.drop_zero fields)
      next => exact contained_fail rfl
    next text htarget =>
      split
      next hwire =>
        refine contained_putText ((ensures_decodeText plan _).mono
          (fun _ _ _ h => .withinBlob h) ?_)
        intro _ new hnew _
        rw [htarget]
        exact .text text harray hwire ⟨hdepth, hnew⟩
      next => exact contained_fail rfl
    next scalar htarget =>
      split
      next hwire =>
        have hscalar : (decodeScalar settings path plan.wire scalar.type).Ensures
            (fun taken error _ => error.Justified path (plan.allowance settings.limits) taken)
            fun _ _ => True :=
          (ensures_decodeScalar plan.wire scalar.type).mono (fun _ _ _ h => h.justified)
            fun _ _ h => h
        refine (ensures_leaving_value value hscalar).bind ?_
        intro _ new _
        exact .withTarget (htarget ▸ .scalar scalar harray hwire hdepth)
      next => exact contained_fail rfl
    next => exact contained_fail rfl

/-- What is decoded into a value keeps within the limits if what is decoded below it does. -/
theorem contained_decodeWith (hchild : ChildContained schema settings child path)
    (hdepth : path.depth ≤ settings.limits.recursion) (value : Value) :
    Contained schema settings path plan value
      (decodeWith schema settings child path value plan) := by
  unfold decodeWith
  split
  next => exact .refl path plan value
  next =>
    have hskip : (Intake.skip path (plan.padLength value)).Ensures
        (fun taken error _ => error.Justified path (plan.allowance settings.limits) taken)
        fun _ _ => True := ensures_skip trivial fun _ _ h => h.spares.justified
    exact (ensures_leaving_value value hskip).bind fun _ _ _ => .refl path plan value
  next =>
    refine contained_decodeBehind ?_ plan.indirection value
    intro content
    split
    next harray => exact contained_decodeArray hchild hdepth harray content
    next harray => exact contained_decodeLeaf hchild hdepth (Bool.eq_false_iff.2 harray) content

end children

/-- Decoding with room for so many steps keeps within the limits, if these steps do not lead beyond
the greatest depth. -/
theorem contained_in (room : Nat) (path : Path) (plan : Plan) (value : Value)
    (hdepth : path.depth + room ≤ settings.limits.recursion) :
    Contained schema settings path plan value (decodeIn schema settings room path value plan) := by
  induction room generalizing path plan value with
  | zero =>
      have hnone : ChildContained schema settings none path := by rintro _ ⟨⟩
      exact contained_decodeWith hnone hdepth value
  | succ room ih =>
      refine contained_decodeWith ?_ (by omega) value
      rintro decode ⟨⟩ step itemPlan item
      refine ih (step :: path) itemPlan item ?_
      rw [Path.depth_cons]
      omega

/-- A value that is refused for its length has taken no byte if it is a sequence, and no more than
its allowance if it is a string. -/
theorem taken_of_limit {path : Path} {plan : Plan} {value left : Value} {fault : Fault}
    {boundary : Nat} {source source' : Source} (hdepth : path.depth ≤ settings.limits.recursion)
    (h : source.supply boundary (decodeValue schema settings path value plan) =
      (.error (.located path fault, left), source')) :
    (∀ length, fault = .collectLimit length → source'.position = source.position) ∧
      ∀ length, fault = .blobLimit length →
        source'.position ≤ source.position + plan.allowance settings.limits := by
  have hroom : path.depth + settings.limits.room path ≤ settings.limits.recursion := by
    rw [Limits.room]
    omega
  have hcontained : Contained schema settings path plan value
      (decodeValue schema settings path value plan) := contained_in _ path plan value hroom
  obtain ⟨taken, hposition, herror⟩ := Source.supply_of_ensures hcontained boundary source
  rw [h] at hposition herror
  rw [hposition]
  constructor
  · rintro length rfl
    rw [herror.1.taken_of_collect, Nat.add_zero]
  · rintro length rfl
    exact Nat.add_le_add_left herror.1.taken_of_blob _

/-- What a decoder leaves has evolved within the limits. -/
theorem Decoder.evolves_of_decodeAs (decoder : Decoder) {tag : Tag} {value : Value} {plan : Plan}
    (hplan : Plan.resolve .top value tag none = .ok plan) :
    EvolvesWithin decoder.schema decoder.settings.limits .top plan value
      (decoder.decodeAs tag value).1.value := by
  have hcontained : Contained decoder.schema decoder.settings .top plan value
      (decodeTagged decoder.schema decoder.settings tag value) := by
    rw [decodeTagged, hplan]
    refine contained_in _ .top plan value ?_
    rw [Limits.room, Path.depth_top]
    omega
  obtain ⟨taken, -, hends⟩ :=
    Source.supply_of_ensures hcontained decoder.boundary decoder.source
  simp only [decodeAs]
  generalize decoder.source.supply decoder.boundary
    (decodeTagged decoder.schema decoder.settings tag value) = run at hends ⊢
  obtain ⟨outcome, source⟩ := run
  cases outcome with
  | ok result => exact hends
  | error stop => exact hends.2

/-- Without a plan, a decoder leaves the destination as it is. -/
theorem Decoder.value_of_decodeAs (decoder : Decoder) {tag : Tag} {value : Value} {error : Error}
    (hplan : Plan.resolve .top value tag none = .error error) :
    (decoder.decodeAs tag value).1.value = value := by
  simp only [decodeAs, decodeTagged, hplan, Source.supply]

/-- Whatever its source delivers, a decoder keeps within its limits, whether it succeeds or fails.
Vectors that are not too long do not become too long. The destination evolves by its plan and by
assignments within the limits: no scalar or string is put deeper than the recursion limit, and a
string without a text encoding that is not the old one has no more bytes than strings may have, or
than arrays may have elements if it is decoded from an array of numbers. And wherever a value is
refused for its length, a sequence has not taken any byte, and a string has taken its length field
only, or as much as the limit allows and the size of a terminator if only that tells its length. -/
theorem Decoder.limits_of_decodeAs (decoder : Decoder) (tag : Tag) (value : Value) :
    let limits := decoder.settings.limits
    let left := (decoder.decodeAs tag value).1.value
    (value.VectorsWithin limits.collect → left.VectorsWithin limits.collect) ∧
    (left = value ∨ ∃ plan, Plan.resolve .top value tag none = .ok plan ∧
      Evolves decoder.schema (Assignment.Within limits) .top plan value left) ∧
    (∀ (path : Path) (plan : Plan) (old : String) (part : Value),
      Evolves decoder.schema (Assignment.Within limits) path plan (.text old) part →
      ∃ new, part = .text new ∧ (new = old ∨
        if plan.isArray = true ∧ plan.wire.isNumeric = true then new.utf8ByteSize ≤ limits.collect
        else plan.encoding = none → new.utf8ByteSize ≤ limits.blob)) ∧
    ∀ (path : Path) (plan : Plan) (part part' : Value) (fault : Fault) (boundary : Nat)
      (source source' : Source), path.depth ≤ limits.recursion →
      source.supply boundary (decodeValue decoder.schema decoder.settings path part plan) =
        (.error (.located path fault, part'), source') →
      (∀ length, fault = .collectLimit length → source'.position = source.position) ∧
      ∀ length, fault = .blobLimit length →
        source'.position ≤ source.position + plan.allowance limits := by
  intro limits left
  refine ⟨?_, ?_, fun path plan old part h => h.text_within,
    fun path plan part part' fault boundary source source' hdepth h => taken_of_limit hdepth h⟩
  · intro hvalue
    cases hplan : Plan.resolve .top value tag none with
    | error error =>
        rw [show left = value from decoder.value_of_decodeAs hplan]
        exact hvalue
    | ok plan => exact (decoder.evolves_of_decodeAs hplan).vectorsWithin hvalue
  · cases hplan : Plan.resolve .top value tag none with
    | error error => exact .inl (decoder.value_of_decodeAs hplan)
    | ok plan => exact .inr ⟨plan, rfl, decoder.evolves_of_decodeAs hplan⟩

section strings

/-- Two strings, each behind its length. -/
def strings (first second : String) : Value :=
  .record (.build "Strings" [⟨"parts", "[2]bstring", true⟩])
    [.sequence .growable .text [.text first, .text second]]

/-- The settings with two elements and four bytes as limits. -/
def tight : Settings := ⟨.bigEndian, ⟨2, 2, 4⟩, .empty⟩

/-- A decoder of a string of one byte and the length of one that is too long. -/
def hostile : Decoder := ⟨[], tight, .ofData [1, 97, 200, 0], 0⟩

/-- Of two strings, the first one is decoded and the second one refused for its length. -/
theorem decodeAs_strings :
    (hostile.decodeAs .empty (strings "" "")).1 =
      ⟨strings "a" "", .error (.located [.index 1, .field "parts"] (.blobLimit 200))⟩ := by cbv

/-- The plan for one of the strings. -/
def stringPlan : Plan :=
  ⟨.bstring, false, none, none, 0, none⟩

/-- The second string is refused after its length field, and the rest stays in the source. -/
theorem supply_second :
    (Source.steady [200, 0] 2).supply 0
      (decodeValue [] tight [.index 1, .field "parts"] (.text "") stringPlan) =
      (.error (.located [.index 1, .field "parts"] (.blobLimit 200), .text ""),
        .steady [0] 3) := by cbv

/-- Two strings are one vector of two elements. -/
theorem vectorsWithin_strings (first second : String) : (strings first second).VectorsWithin 2 := by
  refine .record ?_
  intro value hvalue
  rw [List.mem_singleton.1 hvalue]
  refine .sequence (fun _ => Nat.le_refl 2) ?_
  intro item hitem
  rcases List.mem_pair.1 hitem with rfl | rfl
  · exact .text first
  · exact .text second

/-- The second string is refused behind its length, and the first one stays. -/
theorem limits_of_decodeAs_strings :
    (strings "a" "").VectorsWithin 2 ∧
      (∃ new, Value.text "a" = .text new ∧ (new = "" ∨ new.utf8ByteSize ≤ 4)) ∧
      (Source.steady [0] 3).position ≤
        (Source.steady [200, 0] 2).position +
          Plan.allowance tight.limits stringPlan := by
  obtain ⟨hvectors, -, htexts, htaken⟩ := Decoder.limits_of_decodeAs hostile .empty (strings "" "")
  rw [decodeAs_strings] at hvectors
  have hevolves : Evolves [] (Assignment.Within tight.limits) [.index 0, .field "parts"] stringPlan
      (.text "") (.text "a") := .text "" rfl rfl ⟨by decide, fun _ => by decide⟩
  obtain ⟨new, hnew, hbound⟩ := htexts _ _ _ _ hevolves
  exact ⟨hvectors (vectorsWithin_strings "" ""), ⟨new, hnew, hbound.imp_right fun h => h rfl⟩,
    (htaken _ _ _ _ _ _ _ _ (by decide) supply_second).2 200 rfl⟩

end strings

end PackedRecord
