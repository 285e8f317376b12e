import PackedRecord.Proofs.StableSizes

/-!
# What decoding does not touch

Decoding writes into a destination in place. `Value.Framed` says what stays while it does: every
record that can be reached without passing through a sequence whose length can change keeps its
fields that are not coded. `framed_decodeIn` is the statement to read: this holds however decoding
ends, by induction on how far down there is room.
-/

namespace PackedRecord

open Intake

/-- A hop from a value into one that it holds: a field of a record, an element of an array of a
fixed length, or the content of an optional or a dynamic reference. -/
inductive Hop where
  | field (index : Nat)
  | element (index : Nat)
  | content

namespace Value

/-- The value that a hop leads to. A sequence whose length can change keeps no element in its place,
and in bytes there is nothing to be reached. -/
def hop? (value : Value) (hop : Hop) : Option Value :=
  match hop, value.target with
  | .field index, record _ fields => fields[index]?
  | .element index, sequence kind element items =>
      if kind = .growable ∨ element = .byte then none else items[index]?
  | .content, optional _ content | .content, dynamic content => content
  | _, _ => none

/-- The value that the hops lead to, one after the other, without the pointers in front of it. -/
def reach? : List Hop → Value → Option Value
  | [], value => some value.target
  | hop :: hops, value => (value.hop? hop).bind (reach? hops)

/-- Behind the pointers of a value there are no more pointers. -/
@[simp] theorem target_target (value : Value) : value.target.target = value.target := by
  induction value using Value.target.induct with
  | case1 kind value ih => exact ih
  | case2 value hvalue =>
      cases value with
      | pointer kind value => exact absurd rfl (hvalue kind value)
      | _ => rfl

/-- What is put behind the pointers of a value is found there. -/
@[simp] theorem target_withTarget (value replacement : Value) :
    (value.withTarget replacement).target = replacement.target := by
  induction value using Value.target.induct with
  | case1 kind value ih => exact ih
  | case2 value hvalue =>
      cases value with
      | pointer kind value => exact absurd rfl (hvalue kind value)
      | _ => rfl

/-- Pointers do not matter for what can be reached. -/
theorem reach?_congr {value value' : Value} (h : value'.target = value.target)
    (hops : List Hop) : value'.reach? hops = value.reach? hops := by
  cases hops with
  | nil => simp only [reach?, h]
  | cons hop hops => simp only [reach?, hop?, h]

end Value

/-- The second list of fields is as long as the first one and differs from it in coded fields
only. -/
structure Layout.Keeps (layout : Layout) (fields fields' : List Value) : Prop where
  length_eq : fields'.length = fields.length
  uncoded_eq : ∀ index, layout.codedTag? index = none → fields'[index]? = fields[index]?

/-- Every record that can be reached in the first value is still there in the second one, with the
same private, ignored and padding fields. -/
def Value.Framed (value value' : Value) : Prop :=
  ∀ hops layout fields, value.reach? hops = some (.record layout fields) →
    ∃ fields', value'.reach? hops = some (.record layout fields') ∧ layout.Keeps fields fields'

namespace Value.Framed

variable {value value' value'' : Value}

/-- A value is framed by itself. -/
theorem refl (value : Value) : value.Framed value := by
  intro hops layout fields h
  exact ⟨fields, h, rfl, fun _ _ => rfl⟩

/-- What is framed after two changes was framed by both together. -/
theorem trans (h : value.Framed value') (h' : value'.Framed value'') : value.Framed value'' := by
  intro hops layout fields hreach
  obtain ⟨middle, hmiddle, hkeeps⟩ := h hops layout fields hreach
  obtain ⟨fields', hfields, hkeeps'⟩ := h' hops layout middle hmiddle
  refine ⟨fields', hfields, hkeeps'.length_eq.trans hkeeps.length_eq, ?_⟩
  intro index huncoded
  rw [hkeeps'.uncoded_eq index huncoded, hkeeps.uncoded_eq index huncoded]

/-- Pointers in front of two values do not matter. -/
theorem of_targets (h : value.target.Framed value'.target) : value.Framed value' := by
  intro hops layout fields hreach
  rw [← reach?_congr value.target_target] at hreach
  rw [← reach?_congr value'.target_target]
  exact h hops layout fields hreach

/-- Items are framed by themselves, one by one. -/
theorem forall₂_refl (items : List Value) : List.Forall₂ Value.Framed items items :=
  List.forall₂_same.2 fun item _ => refl item

/-- What happens behind pointers happens to the whole. -/
theorem withTarget (h : value.target.Framed value') : value.Framed (value.withTarget value') := by
  refine of_targets ?_
  rw [target_withTarget]
  refine h.trans (of_targets ?_)
  rw [target_target]
  exact refl _

/-- A value that is no record is framed if what the hops lead to is. -/
theorem of_hops (hrecord : ∀ layout fields, value.target ≠ .record layout fields)
    (hhops : ∀ hop inner, value.hop? hop = some inner →
      ∃ inner', value'.hop? hop = some inner' ∧ inner.Framed inner') : value.Framed value' := by
  intro hops layout fields hreach
  cases hops with
  | nil => exact absurd (Option.some.inj hreach) (hrecord layout fields)
  | cons hop hops =>
      rw [reach?, Option.bind_eq_some_iff] at hreach
      obtain ⟨inner, hinner, hreach⟩ := hreach
      obtain ⟨inner', hinner', hframed⟩ := hhops hop inner hinner
      obtain ⟨fields', hfields, hkeeps⟩ := hframed hops layout fields hreach
      refine ⟨fields', ?_, hkeeps⟩
      rw [reach?, hinner', Option.bind_some, hfields]

/-- In scalars and strings there is nothing to be reached. -/
theorem of_form (h : value.form = .scalar ∨ value.form = .text) (value' : Value) :
    value.Framed value' := by
  unfold form at h
  refine of_hops ?_ ?_
  · intro layout fields hrecord
    rw [hrecord] at h
    rcases h with h | h <;> cases h
  · intro hop inner hinner
    unfold hop? at hinner
    split at hinner
    next htarget => simp [htarget] at h
    next htarget => simp [htarget] at h
    next htarget => simp [htarget] at h
    next htarget => simp [htarget] at h
    next => cases hinner

/-- In an empty optional there is nothing to be reached. -/
theorem empty (type : HostType) (value : Value) : (Value.optional type none).Framed value := by
  refine of_hops nofun ?_
  intro hop inner hinner
  cases hop <;> cases hinner

/-- An optional frames its content. -/
theorem optional {type : HostType} {content content' : Value} (h : content.Framed content') :
    (Value.optional type (some content)).Framed (.optional type (some content')) := by
  refine of_hops nofun ?_
  intro hop inner hinner
  cases hop with
  | content =>
      cases hinner
      exact ⟨content', rfl, h⟩
  | field index => cases hinner
  | element index => cases hinner

/-- A dynamic reference frames its content. -/
theorem dynamic {content content' : Value} (h : content.Framed content') :
    (Value.dynamic (some content)).Framed (.dynamic (some content')) := by
  refine of_hops nofun ?_
  intro hop inner hinner
  cases hop with
  | content =>
      cases hinner
      exact ⟨content', rfl, h⟩
  | field index => cases hinner
  | element index => cases hinner

/-- A sequence is framed if those of its elements are that stay in their places. -/
theorem sequence {kind : SequenceKind} {element : HostType} {items items' : List Value}
    (h : kind ≠ .growable → element ≠ .byte → List.Forall₂ Value.Framed items items') :
    (Value.sequence kind element items).Framed (.sequence kind element items') := by
  refine of_hops nofun ?_
  intro hop inner hinner
  cases hop with
  | content => cases hinner
  | field index => cases hinner
  | element index =>
      simp only [hop?, Value.target] at hinner ⊢
      split at hinner
      next => cases hinner
      next hplaces =>
        have hitems := h (fun hkind => hplaces (.inl hkind)) fun hbyte => hplaces (.inr hbyte)
        rw [if_neg hplaces]
        obtain ⟨hinside, rfl⟩ := List.getElem?_eq_some_iff.1 hinner
        have hinside' : index < items'.length := hitems.length_eq ▸ hinside
        exact ⟨items'[index], List.getElem?_eq_getElem hinside', hitems.get hinside hinside'⟩

end Value.Framed

/-- The second fields are what the first ones may become: coded fields become framed values, and
those that are not coded stay. -/
structure Layout.Frames (layout : Layout) (fields fields' : List Value) : Prop
    extends layout.Keeps fields fields' where
  framed : ∀ (index : Nat) value value', fields[index]? = some value →
    fields'[index]? = some value' → value.Framed value'

namespace Layout.Frames

variable {layout : Layout} {fields fields' fields'' : List Value}

/-- Fields may become themselves. -/
theorem refl (layout : Layout) (fields : List Value) : layout.Frames fields fields := by
  refine ⟨⟨rfl, fun _ _ => rfl⟩, ?_⟩
  intro index value value' hvalue hvalue'
  cases hvalue.symm.trans hvalue'
  exact .refl value

/-- What fields may become after two changes they may become at once. -/
theorem trans (h : layout.Frames fields fields') (h' : layout.Frames fields' fields'') :
    layout.Frames fields fields'' := by
  refine ⟨⟨h'.length_eq.trans h.length_eq, ?_⟩, ?_⟩
  · intro index huncoded
    rw [h'.uncoded_eq index huncoded, h.uncoded_eq index huncoded]
  · intro index value value'' hvalue hvalue''
    obtain ⟨hinside, -⟩ := List.getElem?_eq_some_iff.1 hvalue
    have hmiddle := List.getElem?_eq_getElem (h.length_eq ▸ hinside)
    exact (h.framed index value _ hvalue hmiddle).trans
      (h'.framed index _ value'' hmiddle hvalue'')

/-- A field may become a framed value if it is coded, and has to stay if it is not. -/
theorem set {index : Nat} {value value' : Value} (hvalue : fields[index]? = some value)
    (hframed : value.Framed value') (huncoded : layout.codedTag? index = none → value' = value) :
    layout.Frames fields (fields.set index value') := by
  refine ⟨⟨List.length_set, ?_⟩, ?_⟩
  · intro position hposition
    by_cases hhere : index = position
    · subst hhere
      rw [huncoded hposition, List.getElem?_set_self', hvalue]
      rfl
    · exact List.getElem?_set_ne hhere
  · intro position other other' hother hother'
    by_cases hhere : index = position
    · subst hhere
      rw [List.getElem?_set_self', hvalue] at hother'
      cases hother'
      cases hvalue.symm.trans hother
      exact hframed
    · rw [List.getElem?_set_ne hhere] at hother'
      cases hother.symm.trans hother'
      exact .refl other

/-- A record is framed if its fields become what they may. -/
theorem record (h : layout.Frames fields fields') :
    (Value.record layout fields).Framed (.record layout fields') := by
  intro hops layout' inner hreach
  cases hops with
  | nil =>
      cases hreach
      exact ⟨fields', rfl, h.toKeeps⟩
  | cons hop hops =>
      cases hop with
      | content => cases hreach
      | element index => cases hreach
      | field index =>
          rw [Value.reach?, Option.bind_eq_some_iff] at hreach
          obtain ⟨value, hvalue, hreach⟩ := hreach
          obtain ⟨hinside, -⟩ := List.getElem?_eq_some_iff.1 hvalue
          have hvalue' := List.getElem?_eq_getElem (h.length_eq ▸ hinside)
          obtain ⟨inner', hinner', hkeeps⟩ :=
            h.framed index value _ hvalue hvalue' hops layout' inner hreach
          refine ⟨inner', ?_, hkeeps⟩
          rw [Value.reach?, Option.bind_eq_some_iff]
          exact ⟨_, hvalue', hinner'⟩

end Layout.Frames

namespace Intake

variable {α β γ δ : Type} {p : α → Prop}

/-- However the intake ends, the property holds of its result or of what an error leaves behind. -/
def Leaves (p : α → Prop) (intake : Intake α α) : Prop :=
  intake.Ensures (fun _ _ left => p left) fun _ result => p result

/-- What an intake leaves has every weaker property as well. -/
theorem Leaves.mono {p' : α → Prop} {intake : Intake α α} (h : intake.Leaves p)
    (hp : ∀ result, p result → p' result) : intake.Leaves p' :=
  Ensures.mono h (fun _ _ => hp) fun _ => hp

/-- A property that always holds does so in the end. -/
theorem leaves_of_forall (h : ∀ result, p result) (intake : Intake α α) : intake.Leaves p :=
  intake.ensures_accepts.mono (fun _ _ left _ => h left) fun _ result _ => h result

/-- An intake leaves a property of the whole if it leaves it of the part in its place. -/
theorem leaves_within {put : β → α} {intake : Intake β β} :
    (intake.within put).Leaves p ↔ intake.Leaves fun inner => p (put inner) :=
  ensures_bimap

/-- One intake after another leaves what the second one leaves after any result of the first. -/
theorem Leaves.bind {p' : γ → Prop} {intake : Intake α γ} {following : γ → Intake α α}
    (hfirst : intake.Ensures (fun _ _ left => p left) fun _ result => p' result)
    (hnext : ∀ result, p' result → (following result).Leaves p) :
    (intake >>= following).Leaves p :=
  Ensures.bind hfirst fun _ => hnext

/-- What is read before a value is changed leaves the value, if it fails. -/
theorem leaves_leaving_bind {value : α} (hvalue : p value) (intake : Intake γ δ)
    {following : δ → Intake α α} (hnext : ∀ result, (following result).Leaves p) :
    (Intake.leaving value intake >>= following).Leaves p := by
  have hread : (Intake.leaving value intake).Ensures (fun _ _ left => p left) fun _ _ => True :=
    ensures_bimap.2 (intake.ensures_accepts.mono (fun _ _ _ _ => hvalue) fun _ _ _ => trivial)
  exact Leaves.bind hread fun result _ => hnext result

end Intake

section children

variable {schema : Schema} {settings : Settings} {child : Option ChildDecoder} {path : Path}
  {plan : Plan}

/-- The second value is what decoding by the plan may leave of the first one: a framed value, and
the same one if the plan is padding. -/
def Value.Spared (plan : Plan) (value value' : Value) : Prop :=
  value.Framed value' ∧ (plan.wire = .pad → value' = value)

/-- What is decoded one step further down spares the destination. -/
def ChildSpares (child : Option ChildDecoder) : Prop :=
  ∀ decode, child = some decode → ∀ path value plan,
    (decode path value plan).Leaves (value.Spared plan)

/-- A value behind references is framed if what decodes into it leaves it framed. -/
theorem framed_decodeBehind {decode : Value → Intake Value Value}
    (hdecode : ∀ content, (decode content).Leaves content.Framed) (levels : Nat) (value : Value) :
    (decodeBehind schema path decode levels value).Leaves value.Framed := by
  induction levels generalizing value with
  | zero => exact hdecode value
  | succ levels ih =>
      unfold decodeBehind
      split
      next => exact Value.Framed.refl value
      next =>
        split
        next type content htarget =>
          refine leaves_within.2 ((ih _).mono ?_)
          intro filled hfilled
          refine .withTarget ?_
          rw [htarget]
          cases content with
          | some content => exact .optional hfilled
          | none => exact .empty type _
        next content htarget =>
          refine leaves_within.2 ((ih content).mono ?_)
          intro filled hfilled
          refine .withTarget ?_
          rw [htarget]
          exact .dynamic hfilled
        next => exact Value.Framed.refl value

/-- An element is framed, however its decoding ends. -/
theorem framed_decodeElement (hchild : ChildSpares child) (index : Nat) (item : Value) :
    (decodeElement child path plan index item).Leaves item.Framed := by
  cases child with
  | none => exact Value.Framed.refl item
  | some decode =>
      unfold decodeElement
      simp only
      split
      next => exact Value.Framed.refl item
      next itemPlan _ => exact (hchild decode rfl _ item itemPlan).mono fun _ h => h.1

/-- Elements are framed one by one, those that were decoded and those still to come. -/
theorem framed_decodeElements (hchild : ChildSpares child) {index : Nat}
    {before decoded : List Value} (items : List Value)
    (hbefore : List.Forall₂ Value.Framed before decoded.reverse) :
    (decodeElements child path plan index decoded items).Leaves
      (List.Forall₂ Value.Framed (before ++ items)) := by
  induction items generalizing index before decoded with
  | nil =>
      unfold decodeElements
      rw [List.append_nil]
      exact hbefore
  | cons item items ih =>
      unfold decodeElements
      have hitem : ((decodeElement child path plan index item).bimap
          (fun item => decoded.reverseAux (item :: items)) id).Ensures
          (fun _ _ left => List.Forall₂ Value.Framed (before ++ item :: items) left)
          fun _ item' => item.Framed item' := by
        have hframed : (decodeElement child path plan index item).Leaves item.Framed :=
          framed_decodeElement hchild index item
        refine ensures_bimap.2 (Ensures.mono hframed ?_ fun _ _ h => h)
        intro _ _ item' hitem
        rw [List.reverseAux_eq]
        exact List.rel_append hbefore (.cons hitem (Value.Framed.forall₂_refl items))
      refine Leaves.bind hitem ?_
      intro item' hframed
      have hlater : List.Forall₂ Value.Framed (before ++ [item]) (item' :: decoded).reverse := by
        rw [List.reverse_cons]
        exact List.rel_append hbefore (.cons hframed .nil)
      rw [List.append_cons]
      exact ih hlater

/-- The elements that stay in their places are framed. -/
theorem framed_decodeSequence (hchild : ChildSpares child) (kind : SequenceKind)
    (element : HostType) (items : List Value) :
    (decodeSequence schema settings child path plan kind element items).Leaves fun items' =>
      (Value.sequence kind element items).Framed (.sequence kind element items') := by
  by_cases hplaces : kind = .growable ∨ element = .byte
  · refine leaves_of_forall (fun items' => .sequence ?_) _
    intro hkind helement
    exact absurd hplaces (not_or.2 ⟨hkind, helement⟩)
  · obtain ⟨hkind, helement⟩ := not_or.1 hplaces
    let framed (items' : List Value) : Prop := List.Forall₂ Value.Framed items items'
    have hitems : (decodeSequence schema settings child path plan kind element items).Leaves
        framed := by
      unfold decodeSequence
      simp only [if_neg hkind]
      split
      next => exact Value.Framed.forall₂_refl items
      next =>
        generalize plan.arrayLength.getD items.length = slots
        have hfirst : ((decodeItems child path plan element (items.take slots)).within
            (· ++ items.drop slots)).Leaves framed := by
          have hbulk : ¬ (element = .byte ∧ (plan.wire = .byte ∨ plan.wire = .uint8)) :=
            fun h => helement h.1
          rw [decodeItems, if_neg hbulk, leaves_within]
          have hnone : List.Forall₂ Value.Framed [] ([] : List Value).reverse := .nil
          refine (framed_decodeElements hchild (items.take slots) hnone).mono ?_
          intro taken htaken
          have hall : List.Forall₂ Value.Framed (items.take slots ++ items.drop slots)
              (taken ++ items.drop slots) :=
            List.rel_append htaken (Value.Framed.forall₂_refl (items.drop slots))
          rw [List.take_append_drop] at hall
          exact hall
        exact Leaves.bind hfirst fun decoded hdecoded =>
          leaves_leaving_bind hdecoded _ fun _ => hdecoded
    exact hitems.mono fun items' hframed => .sequence fun _ _ => hframed

/-- A single value in the place of an array is framed, however its decoding ends. -/
theorem framed_decodeSingle (hchild : ChildSpares child) (value : Value) :
    (decodeSingle child path value plan).Leaves value.Framed := by
  unfold decodeSingle
  split
  next => exact Value.Framed.refl value
  next =>
    exact Leaves.bind (framed_decodeElement hchild 0 value) fun decoded hdecoded =>
      leaves_leaving_bind hdecoded _ fun _ => hdecoded

/-- A string is put in its place at the very end. -/
theorem leaves_putText {p : Value → Prop} {value : Value} (intake : Intake Unit String)
    (hvalue : p value) (htext : ∀ text, p (value.withTarget (.text text))) :
    (putText path value intake).Leaves p := by
  refine leaves_leaving_bind hvalue intake ?_
  intro text
  split
  next => exact hvalue
  next => exact htext text

/-- An array of any kind is framed, however its decoding ends. -/
theorem framed_decodeArray (hchild : ChildSpares child) (value : Value) :
    (decodeArray schema settings child path value plan).Leaves value.Framed := by
  unfold decodeArray
  split
  next => exact Value.Framed.refl value
  next kind element items htarget =>
    split
    next => exact Value.Framed.refl value
    next =>
      refine leaves_within.2 ((framed_decodeSequence hchild kind element items).mono ?_)
      intro items' hitems
      refine .withTarget ?_
      rw [htarget]
      exact hitems
  next text htarget =>
    split
    next => exact leaves_putText _ (.refl value) fun _ =>
        .of_form (.inr (by rw [Value.form, htarget])) _
    next => exact framed_decodeSingle hchild value
  next text htarget =>
    split
    next =>
      exact leaves_putText _ (.refl value) fun _ =>
        .of_form (.inr (by rw [Value.form, htarget])) _
    next => exact framed_decodeSingle hchild value
  next => exact framed_decodeSingle hchild value

/-- The decoding of a field changes that field only, and only if it is coded. -/
theorem frames_decodeField (hchild : ChildSpares child) {layout : Layout} {index : Nat}
    {field : FieldLayout} (hfield : layout.fields[index]? = some field) (fields : List Value) :
    (decodeField child path ⟨layout, fields⟩ index field).Leaves fun fields' =>
      layout.Frames fields fields' ∧
        ∀ position, position ≠ index → fields'[position]? = fields[position]? := by
  have hstays : layout.Frames fields fields ∧
      ∀ position, position ≠ index → fields[position]? = fields[position]? :=
    ⟨.refl layout fields, fun _ _ => rfl⟩
  unfold decodeField
  split
  next => exact hstays
  next hexported =>
    cases child with
    | none => exact hstays
    | some decode =>
        simp only
        split
        next => exact hstays
        next tag htag =>
          split
          next => exact hstays
          next hignore =>
            unfold Record.field
            cases hvalue : fields[index]? with
            | none => exact hstays
            | some value =>
                simp only
                split
                next => exact hstays
                next fieldPlan hplan =>
                  refine leaves_within.2 ((hchild decode rfl _ value fieldPlan).mono ?_)
                  intro value' hspared
                  refine ⟨.set hvalue hspared.1 ?_, fun position hposition =>
                    List.getElem?_set_ne (Ne.symm hposition)⟩
                  -- A field that gets here without being coded is padding.
                  intro huncoded
                  refine hspared.2 (Plan.wire_of_resolve_pad ?_ hplan)
                  by_contra hpad
                  have hcoded : layout.codedTag? index = some tag := by
                    simp [Layout.codedTag?, hfield, FieldLayout.codedTag?, htag, hignore, hpad,
                      not_not.1 hexported]
                  rw [huncoded] at hcoded
                  cases hcoded

/-- The decoding of the fields of a record changes coded fields only. -/
theorem frames_decodeFields (hchild : ChildSpares child) {layout : Layout} {index : Nat}
    {rest : List FieldLayout} (hrest : layout.fields.drop index = rest) (fields : List Value) :
    (decodeFields child path layout index rest fields).Leaves (layout.Frames fields) := by
  induction rest generalizing index fields with
  | nil => exact Layout.Frames.refl layout fields
  | cons field rest ih =>
      obtain ⟨hfield, hlater⟩ := Layout.fields_of_drop hrest
      unfold decodeFields
      refine Leaves.bind ((frames_decodeField hchild hfield fields).mono fun _ h => h.1) ?_
      intro half hhalf
      exact (ih hlater half).mono fun _ hresult => hhalf.trans hresult

/-- A value without an array is framed, however its decoding ends. -/
theorem framed_decodeLeaf (hchild : ChildSpares child) (value : Value) :
    (decodeLeaf settings child path value plan).Leaves value.Framed := by
  have hstays : value.Framed value := .refl value
  unfold decodeLeaf
  simp only
  split
  next => exact hstays
  next =>
    split
    next layout fields htarget =>
      split
      next =>
        refine leaves_within.2 ((frames_decodeFields hchild List.drop_zero fields).mono ?_)
        intro fields' hframes
        refine .withTarget ?_
        rw [htarget]
        exact hframes.record
      next => exact hstays
    next text htarget =>
      split
      next => exact leaves_putText _ hstays fun _ =>
        .of_form (.inr (by rw [Value.form, htarget])) _
      next => exact hstays
    next scalar htarget =>
      split
      next =>
        refine leaves_leaving_bind hstays _ ?_
        intro decoded
        exact Value.Framed.of_form (.inl (by rw [Value.form, htarget])) _
      next => exact hstays
    next => exact hstays

/-- Padding and what is ignored stay as they are, and everything else is framed. -/
theorem spared_decodeWith (hchild : ChildSpares child) (value : Value) :
    (decodeWith schema settings child path value plan).Leaves (value.Spared plan) := by
  have hstays : value.Spared plan value := ⟨.refl value, fun _ => rfl⟩
  unfold decodeWith
  split
  next => exact hstays
  next => exact leaves_leaving_bind hstays _ fun _ => hstays
  next hcoded =>
    refine (framed_decodeBehind ?_ plan.indirection value).mono fun result h =>
      ⟨h, fun hpad => absurd hpad hcoded⟩
    intro content
    split
    next => exact framed_decodeArray hchild content
    next => exact framed_decodeLeaf hchild content

end children

/-- Decoding leaves the records that can be reached where they are, with their private, ignored and
padding fields. -/
theorem framed_decodeIn (schema : Schema) (settings : Settings) (room : Nat) (path : Path)
    (value : Value) (plan : Plan) :
    (decodeIn schema settings room path value plan).Leaves (value.Spared plan) := by
  induction room generalizing path value plan with
  | zero =>
      have hnone : ChildSpares none := nofun
      exact spared_decodeWith hnone value
  | succ room ih =>
      refine spared_decodeWith ?_ value
      intro decode hdecode
      cases hdecode
      exact ih

end PackedRecord
