import PackedRecord.Proofs.Failures
import PackedRecord.Proofs.Locality

/-!
# Narrow limits

Limits refuse input and have no other influence. `Intake.Narrows` orders intakes as trees: the one
under narrower limits asks for the same bytes and goes on in the same way, but may end at any place
because a limit is exceeded. Every part of the decoder respects this order; read
`Decoder.decodeAs_narrow` first, which says what that means for a decoder and its source.
-/

namespace PackedRecord

/-- No bound of the limits is greater than that of the other ones. -/
structure Limits.Within (limits wider : Limits) : Prop where
  recursion_le : limits.recursion ≤ wider.recursion
  collect_le : limits.collect ≤ wider.collect
  blob_le : limits.blob ≤ wider.blob

/-- The same settings with other limits. -/
def Settings.under (settings : Settings) (limits : Limits) : Settings :=
  { settings with limits }

namespace Intake

variable {α β γ δ : Type}

/-- The first intake does what the second one does, or ends because a limit is exceeded. -/
inductive Narrows : Intake β α → Intake β α → Prop where
  | refused {path : Path} {fault : Fault} {left : β} {intake : Intake β α}
      (h : fault.isLimit = true) : Narrows (.fail (.located path fault) left) intake
  | done (result : α) : Narrows (.done result) (.done result)
  | fail (error : Error) (left : β) : Narrows (.fail error left) (.fail error left)
  | read {path : Path} {count : Nat} {torn : Bytes → β} {next next' : Bytes → Intake β α}
      (h : ∀ bytes, Narrows (next bytes) (next' bytes)) :
      Narrows (.read path count torn next) (.read path count torn next')

/-- An intake narrows itself. -/
theorem Narrows.refl (intake : Intake β α) : intake.Narrows intake := by
  induction intake with
  | done result => exact .done result
  | fail error left => exact .fail error left
  | read path count torn next ih => exact .read ih

/-- The order is kept if one intake follows another. -/
theorem Narrows.bind {first first' : Intake β α} {following following' : α → Intake β γ}
    (hfirst : first.Narrows first')
    (hfollowing : ∀ result, (following result).Narrows (following' result)) :
    (first >>= following).Narrows (first' >>= following') := by
  induction hfirst with
  | refused h => exact .refused h
  | done result => exact hfollowing result
  | fail error left => exact .fail error left
  | read _ ih => exact .read ih

/-- The order is kept if results and leftovers are mapped. -/
theorem Narrows.bimap {first first' : Intake β α} (f : β → γ) (g : α → δ)
    (h : first.Narrows first') : (first.bimap f g).Narrows (first'.bimap f g) := by
  induction h with
  | refused h => exact .refused h
  | done result => exact .done (g result)
  | fail error left => exact .fail error (f left)
  | read _ ih => exact .read ih

/-- The order is kept if a part is placed in its whole. -/
theorem Narrows.within {first first' : Intake α α} (put : α → β) (h : first.Narrows first') :
    (first.within put).Narrows (first'.within put) :=
  h.bimap put put

/-- The order is kept if errors leave something else behind. -/
theorem Narrows.leaving {first first' : Intake γ α} (left : β) (h : first.Narrows first') :
    (Intake.leaving left first).Narrows (Intake.leaving left first') :=
  h.bimap _ id

end Intake

open Intake

/-- On any source, an intake that narrows another one ends as that one does, or because a limit is
exceeded. -/
theorem Source.supply_of_narrows {α β : Type} {intake intake' : Intake β α}
    (h : intake.Narrows intake') (boundary : Nat) (source : Source) :
    source.supply boundary intake = source.supply boundary intake' ∨
      ∃ path fault left, (source.supply boundary intake).1 = .error (.located path fault, left) ∧
        fault.isLimit = true := by
  induction h generalizing source with
  | refused h => exact .inr ⟨_, _, _, rfl, h⟩
  | done result => exact .inl rfl
  | fail error left => exact .inl rfl
  | read _ ih =>
      simp only [supply]
      split
      next => exact .inl rfl
      next =>
        split
        next => exact .inl rfl
        next => exact ih _ _

section limits

variable {limits wider : Limits} {path : Path}

/-- A length that narrower limits allow is allowed, and any other one they refuse. -/
theorem Limits.checkCollect_cases (h : limits.Within wider) (path : Path) (length : Nat) :
    (limits.checkCollect path length = .ok () ∧ wider.checkCollect path length = .ok ()) ∨
      limits.checkCollect path length = .error (.located path (.collectLimit length)) := by
  unfold checkCollect
  by_cases hfits : length ≤ limits.collect
  · exact .inl ⟨if_pos hfits, if_pos (hfits.trans h.collect_le)⟩
  · exact .inr (if_neg hfits)

/-- A check against a smaller number of elements can only refuse more. -/
theorem narrows_checkCollect (h : limits.Within wider) (length : Nat) :
    (Intake.ofExcept () (limits.checkCollect path length)).Narrows
      (.ofExcept () (wider.checkCollect path length)) := by
  rcases Limits.checkCollect_cases h path length with ⟨hlimits, hwider⟩ | hlimits
  · rw [hlimits, hwider]
    exact .refl _
  · rw [hlimits]
    exact .refused rfl

/-- A check against a smaller number of bytes can only refuse more. -/
theorem narrows_checkBlob (h : limits.Within wider) (length : Nat) :
    (Intake.ofExcept () (limits.checkBlob path length)).Narrows
      (.ofExcept () (wider.checkBlob path length)) := by
  unfold Limits.checkBlob
  by_cases hfits : length ≤ limits.blob
  · rw [if_pos hfits, if_pos (hfits.trans h.blob_le)]
    exact .refl _
  · rw [if_neg hfits]
    exact .refused rfl

end limits

section text

variable {settings : Settings} {limits wider : Limits} {path : Path} {plan : Plan}

/-- A string of known length is read alike or refused for its length. -/
theorem narrows_readBlob (h : limits.Within wider) (length : Nat) :
    (readBlob (settings.under limits) path length).Narrows
      (readBlob (settings.under wider) path length) :=
  (narrows_checkBlob h length).bind fun _ => .refl _

/-- The room that is left to a string with a terminator is all that the limit adds to reading it. -/
theorem narrows_readTerminated (wire : WireType) {room room' : Nat} (hroom : room ≤ room')
    (got : Bytes) :
    (readTerminated wire path room got).Narrows (readTerminated wire path room' got) := by
  induction room using Nat.strong_induction_on generalizing room' got with
  | _ room ih =>
    have hsize := wire.terminatorSize_pos
    rw [readTerminated, readTerminated]
    refine .read fun part => ?_
    split
    next => exact .refl _
    next =>
      split
      next => exact .refused rfl
      next hunit =>
        rw [dif_neg (by omega)]
        exact ih (room - wire.terminatorSize) (by omega) (by omega) _

/-- A string in its frame is read alike or refused for its length. -/
theorem narrows_readFramed (h : limits.Within wider) (current : Nat) :
    (readFramed (settings.under limits) path plan current).Narrows
      (readFramed (settings.under wider) path plan current) := by
  unfold readFramed
  split
  next => exact (narrows_readBlob h _).bind fun _ => .refl _
  next => exact (narrows_readBlob h _).bind fun _ => .refl _
  next => exact narrows_readTerminated _ h.blob_le []
  next => exact narrows_readTerminated _ h.blob_le []
  next => exact (Narrows.refl _).bind fun _ => (narrows_readBlob h _).bind fun _ => .refl _

/-- A text is decoded alike or refused for the length of its string. -/
theorem narrows_decodeText (h : limits.Within wider) (current : Nat) :
    (decodeText (settings.under limits) path plan current).Narrows
      (decodeText (settings.under wider) path plan current) :=
  (narrows_readFramed h current).bind fun _ => .refl _

end text

section values

variable {schema : Schema} {settings : Settings} {limits wider : Limits}
  {child child' : Option ChildDecoder} {path : Path} {plan : Plan}

/-- The decoder one step further down narrows the other one, or there is no room for it. -/
def ChildNarrows (child child' : Option ChildDecoder) : Prop :=
  ∀ decode, child = some decode → ∃ decode', child' = some decode' ∧
    ∀ path value plan, (decode path value plan).Narrows (decode' path value plan)

/-- A value behind references respects the order if what decodes into it does. -/
theorem narrows_decodeBehind {decode decode' : Value → Intake Value Value}
    (hdecode : ∀ content, (decode content).Narrows (decode' content)) (levels : Nat)
    (value : Value) :
    (decodeBehind schema path decode levels value).Narrows
      (decodeBehind schema path decode' levels value) := by
  induction levels generalizing value with
  | zero => exact hdecode value
  | succ levels ih =>
      unfold decodeBehind
      split
      next => exact .fail _ _
      next =>
        split
        next => exact (ih _).within _
        next => exact (ih _).within _
        next => exact .fail _ _

/-- An element respects the order if the values one step further down do. -/
theorem narrows_decodeElement (hchild : ChildNarrows child child') (index : Nat) (item : Value) :
    (decodeElement child path plan index item).Narrows
      (decodeElement child' path plan index item) := by
  cases child with
  | none => exact .refused rfl
  | some decode =>
      obtain ⟨decode', rfl, hdecode⟩ := hchild decode rfl
      unfold decodeElement
      simp only
      split
      next => exact .fail _ _
      next => exact hdecode _ _ _

/-- A run of elements respects the order, whichever were decoded before. -/
theorem narrows_decodeElements (hchild : ChildNarrows child child') (index : Nat)
    (decoded items : List Value) :
    (decodeElements child path plan index decoded items).Narrows
      (decodeElements child' path plan index decoded items) := by
  induction items generalizing index decoded with
  | nil => exact .done _
  | cons item items ih =>
      unfold decodeElements
      exact ((narrows_decodeElement hchild index item).bimap _ id).bind fun item => ih _ _

/-- The items of a sequence respect the order, at once or one by one. -/
theorem narrows_decodeItems (hchild : ChildNarrows child child') (element : HostType)
    (items : List Value) :
    (decodeItems child path plan element items).Narrows
      (decodeItems child' path plan element items) := by
  unfold decodeItems
  split
  next => exact .refl _
  next => exact narrows_decodeElements hchild 0 [] items

/-- Elements that are read and dropped respect the order. -/
theorem narrows_discardElements (hchild : ChildNarrows child child') (count index : Nat)
    (scratch : Value) :
    (discardElements child path plan count index scratch).Narrows
      (discardElements child' path plan count index scratch) := by
  induction count generalizing index scratch with
  | zero => exact .done ()
  | succ count ih =>
      unfold discardElements
      exact ((narrows_decodeElement hchild index scratch).leaving ()).bind fun _ => ih _ _

/-- The slots behind the stored items respect the order. -/
theorem narrows_discardSlots (hchild : ChildNarrows child child') (scratch : Value)
    (stored slots : Nat) :
    (discardSlots child path plan scratch stored slots).Narrows
      (discardSlots child' path plan scratch stored slots) := by
  unfold discardSlots
  split
  next => exact .done ()
  next =>
    cases child with
    | none => exact .refused rfl
    | some decode =>
        obtain ⟨decode', rfl, -⟩ := hchild decode rfl
        simp only [Option.isNone_some, Bool.false_eq_true, if_false]
        split
        next => exact .fail _ _
        next =>
          split
          next => exact .refl _
          next => exact narrows_discardElements hchild _ _ _

/-- A sequence is decoded alike or refused for its number of elements. -/
theorem narrows_decodeSequence (h : limits.Within wider) (hchild : ChildNarrows child child')
    (kind : SequenceKind) (element : HostType) (items : List Value) :
    (decodeSequence schema (settings.under limits) child path plan kind element items).Narrows
      (decodeSequence schema (settings.under wider) child' path plan kind element items) := by
  unfold decodeSequence Settings.under
  simp only
  rcases Limits.checkCollect_cases h path (plan.arrayLength.getD items.length) with
    ⟨hlimits, hwider⟩ | hlimits
  · rw [hlimits, hwider]
    refine ((narrows_decodeItems hchild element _).within _).bind fun decoded => ?_
    exact ((narrows_discardSlots hchild _ _ _).leaving decoded).bind fun _ => .refl _
  · rw [hlimits]
    exact .refused rfl

/-- Numbers are collected into a text alike, or refused for their number. -/
theorem narrows_decodeNumbersAsText (h : limits.Within wider) (hchild : ChildNarrows child child')
    (current : Nat) :
    (decodeNumbersAsText (settings.under limits) child path plan current).Narrows
      (decodeNumbersAsText (settings.under wider) child' path plan current) := by
  refine (narrows_checkCollect h _).bind fun _ => ?_
  exact ((narrows_decodeItems hchild .byte _).leaving ()).bind fun _ => .refl _

/-- Putting a text into its destination respects the order. -/
theorem narrows_putText {intake intake' : Intake Unit String} (destination : Value)
    (h : intake.Narrows intake') :
    (putText path destination intake).Narrows (putText path destination intake') :=
  (h.leaving destination).bind fun _ => .refl _

/-- A single value in the place of an array respects the order. -/
theorem narrows_decodeSingle (hchild : ChildNarrows child child') (value : Value) :
    (decodeSingle child path value plan).Narrows (decodeSingle child' path value plan) := by
  unfold decodeSingle
  split
  next => exact .done value
  next =>
    refine (narrows_decodeElement hchild 0 value).bind fun decoded => ?_
    exact ((narrows_discardSlots hchild _ _ _).leaving decoded).bind fun _ => .refl _

/-- An array respects the order for every kind of destination. -/
theorem narrows_decodeArray (h : limits.Within wider) (hchild : ChildNarrows child child')
    (value : Value) :
    (decodeArray schema (settings.under limits) child path value plan).Narrows
      (decodeArray schema (settings.under wider) child' path value plan) := by
  have htext (text : String) :
      (if plan.wire.isNumeric then
        putText path value
          (decodeNumbersAsText (settings.under limits) child path plan text.utf8ByteSize)
      else decodeSingle child path value plan).Narrows
        (if plan.wire.isNumeric then
          putText path value
            (decodeNumbersAsText (settings.under wider) child' path plan text.utf8ByteSize)
        else decodeSingle child' path value plan) := by
    split
    next => exact narrows_putText value (narrows_decodeNumbersAsText h hchild _)
    next => exact narrows_decodeSingle hchild value
  unfold decodeArray
  split
  next => exact .fail _ _
  next =>
    split
    next => exact .fail _ _
    next => exact (narrows_decodeSequence h hchild _ _ _).within _
  next text _ => exact htext text
  next text _ => exact htext text
  next => exact narrows_decodeSingle hchild value

/-- A field respects the order, also one that is skipped. -/
theorem narrows_decodeField (hchild : ChildNarrows child child') (record : Record) (index : Nat)
    (field : FieldLayout) :
    (decodeField child path record index field).Narrows
      (decodeField child' path record index field) := by
  unfold decodeField
  split
  next => exact .done _
  next =>
    cases child with
    | none => exact .refused rfl
    | some decode =>
        obtain ⟨decode', rfl, hdecode⟩ := hchild decode rfl
        simp only
        split
        next => exact .fail _ _
        next =>
          split
          next => exact .done _
          next =>
            split
            next => exact .fail _ _
            next =>
              split
              next => exact .fail _ _
              next => exact (hdecode _ _ _).within _

/-- The fields of a record respect the order, from any of them on. -/
theorem narrows_decodeFields (hchild : ChildNarrows child child') (layout : Layout) (index : Nat)
    (fields : List FieldLayout) (values : List Value) :
    (decodeFields child path layout index fields values).Narrows
      (decodeFields child' path layout index fields values) := by
  induction fields generalizing index values with
  | nil => exact .done values
  | cons field fields ih =>
      unfold decodeFields
      exact (narrows_decodeField hchild _ _ _).bind fun values => ih _ _

/-- A value without an array respects the order if its fields do. -/
theorem narrows_decodeLeaf (h : limits.Within wider) (hchild : ChildNarrows child child')
    (value : Value) :
    (decodeLeaf (settings.under limits) child path value plan).Narrows
      (decodeLeaf (settings.under wider) child' path value plan) := by
  unfold decodeLeaf
  split
  next => exact .fail _ _
  next =>
    split
    next =>
      split
      next => exact (narrows_decodeFields hchild _ _ _ _).within _
      next => exact .fail _ _
    next =>
      split
      next => exact narrows_putText value (narrows_decodeText h _)
      next => exact .fail _ _
    next =>
      -- The byte order is all that reading a scalar takes from the settings.
      exact .refl _
    next => exact .fail _ _

/-- A value respects the order if the values one step further down do. -/
theorem narrows_decodeWith (h : limits.Within wider) (hchild : ChildNarrows child child')
    (value : Value) :
    (decodeWith schema (settings.under limits) child path value plan).Narrows
      (decodeWith schema (settings.under wider) child' path value plan) := by
  unfold decodeWith
  split
  next => exact .done value
  next => exact .refl _
  next =>
    refine narrows_decodeBehind (fun content => ?_) _ _
    split
    next => exact narrows_decodeArray h hchild content
    next => exact narrows_decodeLeaf h hchild content

/-- Less room and narrower limits narrow the decoder. -/
theorem narrows_decodeIn (schema : Schema) (settings : Settings) (h : limits.Within wider)
    {room room' : Nat} (hroom : room ≤ room') (path : Path) (value : Value) (plan : Plan) :
    (decodeIn schema (settings.under limits) room path value plan).Narrows
      (decodeIn schema (settings.under wider) room' path value plan) := by
  induction room generalizing room' path value plan with
  | zero =>
      have hnone (child' : Option ChildDecoder) : ChildNarrows none child' := nofun
      cases room' with
      | zero => exact narrows_decodeWith h (hnone _) value
      | succ room' => exact narrows_decodeWith h (hnone _) value
  | succ room ih =>
      cases room' with
      | zero => exact absurd hroom (Nat.not_succ_le_zero room)
      | succ room' =>
          refine narrows_decodeWith h ?_ value
          rintro decode ⟨⟩
          exact ⟨_, rfl, fun path value plan => ih (Nat.le_of_succ_le_succ hroom) path value plan⟩

end values

/-- Under narrower limits, a decoded value is the same or refused by a limit. -/
theorem narrows_decodeTagged (schema : Schema) (settings : Settings) {limits wider : Limits}
    (h : limits.Within wider) (tag : Tag) (value : Value) :
    (decodeTagged schema (settings.under limits) tag value).Narrows
      (decodeTagged schema (settings.under wider) tag value) := by
  have hroom : limits.room .top ≤ wider.room .top := Nat.sub_le_sub_right h.recursion_le _
  unfold decodeTagged
  split
  next => exact .fail _ _
  next plan _ => exact narrows_decodeIn schema settings h hroom .top value plan

namespace Decoder

/-- The same decoder with other limits. -/
def under (decoder : Decoder) (limits : Limits) : Decoder :=
  { decoder with settings := decoder.settings.under limits }

/-- Limits only refuse. Decoding a value under narrower limits leaves the same destination, with the
same result or error, and the source at the same place as decoding it under the wider ones, or it
ends because a limit is exceeded. -/
theorem decodeAs_narrow {limits wider : Limits} (h : limits.Within wider) (decoder : Decoder)
    (tag : Tag) (value : Value) :
    (((decoder.under limits).decodeAs tag value).1 = ((decoder.under wider).decodeAs tag value).1 ∧
      ((decoder.under limits).decodeAs tag value).2 =
        ((decoder.under wider).decodeAs tag value).2.under limits) ∨
    ∃ path fault, fault.isLimit = true ∧
      ((decoder.under limits).decodeAs tag value).1.outcome = .error (.located path fault) := by
  have hnarrows := narrows_decodeTagged decoder.schema decoder.settings h tag value
  rcases Source.supply_of_narrows hnarrows decoder.boundary decoder.source with
    hsame | ⟨path, fault, left, hstop, hlimit⟩
  · refine .inl ?_
    simp only [decodeAs, under]
    rw [hsame]
    split
    next => exact ⟨rfl, rfl⟩
    next => exact ⟨rfl, rfl⟩
  · refine .inr ⟨path, fault, hlimit, ?_⟩
    simp only [decodeAs, under]
    split
    next hsupply =>
      rw [hsupply] at hstop
      cases hstop
    next hsupply =>
      rw [hsupply] at hstop
      cases hstop
      rfl

/-- A decoder of a record with two words and a string of two bytes, and of one more byte. -/
def ofCounted : Decoder :=
  ({} : Packer).decoder [] .littleEndian (.ofData [2, 7, 0, 9, 0, 104, 105, 0, 55])

/-- The narrowest limits that do not refuse the record make the same of it as the usual ones. -/
theorem decodeAs_narrow_counted :
    (Limits.mk 2 2 2).Within {} ∧
    ((ofCounted.under ⟨2, 2, 2⟩).decodeAs .empty (countedRecord 0 [] "")).1 =
      ⟨countedRecord 2 [.ofByte 7, .ofByte 9] "hi", .ok 8⟩ ∧
    ((ofCounted.under {}).decodeAs .empty (countedRecord 0 [] "")).1 =
      ⟨countedRecord 2 [.ofByte 7, .ofByte 9] "hi", .ok 8⟩ := by
  have hwithin : (Limits.mk 2 2 2).Within {} := ⟨by decide, by decide, by decide⟩
  have hdecoded : ((ofCounted.under ⟨2, 2, 2⟩).decodeAs .empty (countedRecord 0 [] "")).1 =
      ⟨countedRecord 2 [.ofByte 7, .ofByte 9] "hi", .ok 8⟩ := by cbv
  refine ⟨hwithin, hdecoded, ?_⟩
  rcases decodeAs_narrow hwithin ofCounted .empty (countedRecord 0 [] "") with
    ⟨hsame, -⟩ | ⟨path, fault, -, hrefused⟩
  · exact hsame.symm.trans hdecoded
  · rw [hdecoded] at hrefused
    cases hrefused

end Decoder

end PackedRecord
