import PackedRecord.Proofs.RecordRoundTrip
import PackedRecord.Proofs.Tagged

/-!
# Round trip

`unpack_pack` says that a record that was encoded is decoded again: from the bytes of a portable
record, a destination that agrees with it becomes that record. `restores_in` says so of every value
below it, by induction on how far down there is room.
-/

namespace PackedRecord

open Value

section step

variable {schema : Schema} {settings : Settings} {encode : Option ChildEncoder}
  {decode : Option ChildDecoder} {path : Path} {plan : Plan} {type : HostType} {bytes : Bytes}
  {value current : Value}

/-- A value that is coded by itself comes back. -/
theorem accepts_decodeLeaf_of_yields
    (hchild : Option.Rel (Restores schema settings.limits) encode decode)
    (hvalue : Portable schema settings.limits type plan value)
    (hagrees : Agrees schema plan value current)
    (h : (encodeLeaf settings encode path value plan).Yields bytes ()) :
    (decodeLeaf settings decode path current plan).Accepts bytes value := by
  obtain ⟨targetType, htarget, -, hpointer⟩ := hvalue.target
  obtain ⟨hsame, hwith⟩ := hagrees.target
  have hwritable := hagrees.isReadOnly_eq
  rw [← hwith]
  unfold encodeLeaf at h
  unfold decodeLeaf
  rw [hwritable, if_neg Bool.false_ne_true]
  generalize value.target = target at htarget hpointer hsame h ⊢
  generalize current.target = place at hsame ⊢
  cases htarget with
  | @scalar _ _ content htype hexact =>
      cases hsame with
      | @scalar _ _ current hscalar =>
          simp only at h ⊢
          split at h
          next hnumeric =>
            rw [if_pos hnumeric]
            split at h
            next image himage =>
              rw [← hscalar]
              rw [← htype] at hexact
              exact (Intake.Accepts.leaving _
                (accepts_decodeScalar path hexact himage h)).bind_done ⟨rfl, rfl⟩
            next => exact (Emission.not_yields_fail h).elim
          next => exact (Emission.not_yields_fail h).elim
  | @text _ content htext hencoding hnul hblob =>
      cases hsame with
      | @text _ _ current hsize =>
          simp only at h ⊢
          rw [if_pos htext] at h ⊢
          -- Only a bare string takes its length from the destination.
          have hplain (hwidth : plan.wire.lengthSize? = none) (hz : plan.wire ≠ .zstring)
              (hz16 : plan.wire ≠ .z16string) : plan.wire = .string := by
            revert htext hwidth hz hz16
            cases plan.wire <;> simp [WireType.isText, WireType.kind, WireType.lengthSize?]
          have hdecoded : (decodeText settings path plan current.utf8ByteSize).Accepts bytes
              content := by
            refine accepts_decodeText path hencoding hnul ?_ hblob h
            intro hwidth hz hz16 hbuffer
            exact (hsize (hplain hwidth hz hz16) hbuffer).symm
          refine (Intake.Accepts.leaving _ hdecoded).bind_done ?_
          rw [hwritable, if_neg Bool.false_ne_true]
          exact ⟨rfl, rfl⟩
  | vector => exact (Emission.not_yields_fail h).elim
  | array => exact (Emission.not_yields_fail h).elim
  | optional => exact (Emission.not_yields_fail h).elim
  | owned => exact (hpointer _ _ rfl).elim
  | @record _ _ recordType fields _ hbuilt htypes hfields =>
      obtain ⟨name, declared, hbuilt⟩ := hbuilt
      cases hsame with
      | @record _ _ _ current hcount hrest hcoded =>
          simp only at h ⊢
          split at h
          next hstruct =>
            rw [if_pos hstruct]
            have hdecoded := accepts_decodeFields_of_yields hchild hbuilt htypes hcount hfields
              hrest hcoded List.drop_zero h
            exact hdecoded.bimap _ _
          next => exact (Emission.not_yields_fail h).elim

/-- A value that is coded as an array comes back. -/
theorem accepts_decodeArray_of_yields
    (hchild : Option.Rel (Restores schema settings.limits) encode decode)
    (hpad : plan.wire ≠ .pad) (hignore : plan.wire ≠ .ignore)
    (hdirect : type.natural.indirection = 0)
    (hvalue : Portable schema settings.limits type plan value)
    (hagrees : Agrees schema plan value current)
    (h : (encodeArray encode path value plan).Yields bytes ()) :
    (decodeArray schema settings decode path current plan).Accepts bytes value := by
  obtain ⟨targetType, htarget, hnatural, hpointer⟩ := hvalue.target
  obtain ⟨hsame, hwith⟩ := hagrees.target
  have hwritable := hagrees.isReadOnly_eq
  generalize hvalueTarget : value.target = target at htarget hpointer hsame hwith
  generalize hcurrentTarget : current.target = place at hsame
  cases htarget with
  | scalar =>
      exact accepts_decodeArray_single hchild hpad hignore hvalue hagrees
        (.inl ⟨_, hvalueTarget⟩) h
  | text =>
      exact accepts_decodeArray_single hchild hpad hignore hvalue hagrees
        (.inr ⟨_, hvalueTarget⟩) h
  | @vector _ element items hlength hcollect hitems =>
      cases hsame with
      | @vector _ _ _ places hcount hplaces =>
          rw [← hwith, ← hvalueTarget]
          refine accepts_decodeArray_sequence hchild hpad hignore hvalueTarget hcurrentTarget
            hwritable ?_ (hlength.slots_eq hcount) hcollect hitems ?_ h
          · rw [if_pos rfl, length_resized]
          · rw [if_pos rfl]
            exact hplaces
  | @array _ length element items hsize hlength hcollect hitems =>
      subst hsize
      cases hsame with
      | @array _ _ _ places hcount hplaces =>
          rw [← hwith, ← hvalueTarget]
          refine accepts_decodeArray_sequence hchild hpad hignore hvalueTarget hcurrentTarget
            hwritable ?_ (hlength.slots_eq (fun _ => hcount)) hcollect hitems ?_ h
          · exact hcount.symm
          · exact hplaces
  | optional =>
      rw [← hnatural] at hdirect
      cases hdirect
  | owned => exact (hpointer _ _ rfl).elim
  | record =>
      rw [encodeArray_eq, Elements.of, hvalueTarget] at h
      exact (Emission.not_yields_fail h).elim

/-- A value behind references comes back. -/
theorem accepts_decodeBehind_of_yields {content : Value}
    {decodeContent : Value → Intake Value Value} {levels : Nat}
    (hlevels : levels = type.natural.indirection)
    (hvalue : Portable schema settings.limits type plan value)
    (hagrees : Agrees schema plan value current) (hstrip : value.strip levels = .ok content)
    (hcontent : ∀ contentType place, contentType.natural.indirection = 0 →
      Portable schema settings.limits contentType plan content →
      Agrees schema plan content place → (decodeContent place).Accepts bytes content) :
    (decodeBehind schema path decodeContent levels current).Accepts bytes value := by
  -- On each level a pointer may stand in front of the optional, so the targets are taken apart.
  induction levels generalizing type value current with
  | zero =>
      cases hstrip
      exact hcontent type current hlevels.symm hvalue hagrees
  | succ levels ih =>
      obtain ⟨targetType, htarget, hnatural, hpointer⟩ := hvalue.target
      obtain ⟨hsame, hwith⟩ := hagrees.target
      rw [← hnatural] at hlevels
      rw [Value.strip] at hstrip
      rw [decodeBehind, hagrees.isReadOnly_eq, ← hwith]
      generalize value.target = target at htarget hpointer hsame hstrip ⊢
      generalize current.target = place at hsame ⊢
      cases htarget with
      | optional hinner =>
          cases hsame with
          | optional hplace =>
              have hdecoded := ih (Nat.succ.inj hlevels) hinner hplace hstrip
              exact hdecoded.bimap _ _
      | owned => exact (hpointer _ _ rfl).elim
      | _ => cases hlevels

/-- The encoder and the decoder of a value restore what those one step further down do. -/
theorem restores_with (hchild : Option.Rel (Restores schema settings.limits) encode decode) :
    Restores schema settings.limits (encodeWith settings encode)
      (decodeWith schema settings decode) where
  accepts := by
    intro type path plan value current bytes hvalue hagrees hsuits h
    rw [encodeWith_coded hsuits.not_pad hsuits.not_ignore] at h
    rw [decodeWith_coded hsuits.not_pad hsuits.not_ignore]
    split at h
    next => exact (Emission.not_yields_fail h).elim
    next content hstrip =>
      refine accepts_decodeBehind_of_yields hsuits.indirection_eq hvalue hagrees hstrip ?_
      intro contentType place hdirect hcontent hplace
      split at h
      next harray =>
        rw [if_pos harray]
        exact accepts_decodeArray_of_yields hchild hsuits.not_pad hsuits.not_ignore hdirect
          hcontent hplace h
      next hleaf =>
        rw [if_neg hleaf]
        exact accepts_decodeLeaf_of_yields hchild hcontent hplace h
  accepts_pad := by
    intro path plan value bytes hpad h
    unfold encodeWith at h
    unfold decodeWith
    rw [hpad] at h ⊢
    have hzeros : bytes = Bytes.zeros (plan.padLength value) := Emission.yields_write.1 h
    have hskip : (Intake.skip path (plan.padLength value)).Accepts bytes () := by
      rw [← Bytes.length_zeros (plan.padLength value), ← hzeros]
      exact Intake.accepts_skip
    exact (Intake.Accepts.leaving value hskip).bind_done ⟨rfl, rfl⟩

/-- The encoder and the decoder restore values down to any depth. -/
theorem restores_in (schema : Schema) (settings : Settings) (room : Nat) :
    Restores schema settings.limits (encodeIn settings room) (decodeIn schema settings room) := by
  induction room with
  | zero => exact restores_with .none
  | succ room ih => exact restores_with (.some ih)

end step

/-- Without a tag, the plan of a type suits it. -/
theorem Plan.untagged_suits (type : HostType) : (Plan.untagged type).Suits type :=
  ⟨rfl, type.natural_wire_getD_ne.1, type.natural_wire_getD_ne.2⟩

/-- An encoded value decodes again: from the bytes of a portable value, a destination that agrees
with it becomes that value, and no byte is left. -/
theorem unpack_pack {packer : Packer} {schema : Schema} {order : ByteOrder} {type : HostType}
    {value destination : Value} {bytes : Bytes}
    (hvalue : Portable schema packer.limits type (.untagged type) value)
    (hagrees : Agrees schema (.untagged type) value destination)
    (hpack : packer.pack order value = .ok bytes) :
    packer.unpack schema order bytes destination = ⟨value, .ok bytes.length⟩ := by
  have hyields := Packer.yields_of_packAs hpack
  obtain ⟨_, plan, back, hbytes, hresolve, hencode⟩ := Emission.yields_bind.1 hyields
  obtain ⟨rfl, hplan⟩ := Emission.yields_ofExcept.1 hresolve
  obtain rfl : bytes = back := hbytes
  -- A type without a wire type has no plan, so that nothing of it would have been encoded.
  have hwire : type.natural.wire ≠ none := by
    intro hnone
    obtain ⟨wire, hwire, -⟩ := ok_of_bind hplan
    unfold Tag.empty Plan.resolveWire at hwire
    rw [(Natural.unsized_inj.1 hvalue.natural_eq).1, hnone] at hwire
    cases hwire
  rw [Plan.resolve_empty hvalue.natural_eq hwire] at hplan
  cases hplan
  have haccepts : (decodeTagged schema (packer.settings order) .empty destination).Accepts bytes
      value := by
    rw [decodeTagged, Plan.resolve_empty (hagrees.natural_eq hvalue) hwire]
    exact (restores_in schema (packer.settings order) _).accepts hvalue hagrees
      (Plan.untagged_suits type) hencode
  exact Packer.unpackAs_of_accepts haccepts

section parcel

/-- A record type with a truth value. -/
def sealType : RecordType := ⟨.build "Seal" [⟨"intact", "", true⟩], [.scalar .bool]⟩

/-- A record type with a private count, as many words, padding, a string and an optional record. -/
def parcelType : RecordType :=
  ⟨.build "Parcel" [⟨"count", "", false⟩, ⟨"weights", "[count]uint16", true⟩,
    ⟨"gap", "pad(3)", true⟩, ⟨"label", "bstring(4)", true⟩, ⟨"wax", "", true⟩],
    [.byte, .vector .byte, .byte, .text, .optional (.record "Seal")]⟩

/-- The schema of parcels. -/
def parcelSchema : Schema := [("Parcel", parcelType), ("Seal", sealType)]

/-- A parcel that counts two weights. -/
def parcel (weights : List Value) (label : String) (wax : Option Value) : Value :=
  .record parcelType.layout [.ofByte 2, .sequence .growable .byte weights, .ofByte 0, .text label,
    .optional (.record "Seal") wax]

/-- A seal. -/
def waxSeal (intact : Bool) : Value := .record sealType.layout [.scalar (.bool intact)]

/-- Parcels and seals are registered. -/
theorem lookup_parcelSchema : parcelSchema.lookup "Parcel" = some parcelType ∧
    parcelSchema.lookup "Seal" = some sealType := by
  constructor
  all_goals cbv

/-- The truth value of a seal is coded without a tag. -/
theorem codedTag?_seal : sealType.layout.codedTag? 0 = some .empty := by cbv

/-- Of a parcel, the weights, the label and the seal are coded; the count and the padding
are not. -/
theorem codedTag?_parcel :
    parcelType.layout.codedTag? 0 = none ∧
    parcelType.layout.codedTag? 1 = some ⟨some .uint16,
      .length ⟨"count", [⟨false, .field 0 "count"⟩]⟩, none, none⟩ ∧
    parcelType.layout.codedTag? 2 = none ∧
    parcelType.layout.codedTag? 3 = some ⟨some .bstring, .absent,
      some ⟨"4", [⟨false, .literal 4⟩]⟩, none⟩ ∧
    parcelType.layout.codedTag? 4 = some .empty := by
  refine ⟨?_, ?_, ?_, ?_, ?_⟩
  all_goals cbv

/-- A seal is portable under every plan. -/
theorem portable_waxSeal (plan : Plan) (intact : Bool) :
    Portable parcelSchema {} (.record "Seal") plan (waxSeal intact) := by
  refine .record lookup_parcelSchema.2 ⟨_, _, rfl⟩ rfl ?_
  intro index tag value fieldType path fieldPlan htag hvalue htype hplan
  match index with
  | 0 =>
      cases codedTag?_seal.symm.trans htag
      cases hvalue
      cases htype
      cases hplan
      exact .scalar rfl rfl nofun
  | index + 1 => cases hvalue

/-- A broken seal is a destination for every seal. -/
theorem agrees_waxSeal (plan : Plan) (intact : Bool) :
    Agrees parcelSchema plan (waxSeal intact) (waxSeal false) := by
  refine .record rfl ?_ ?_
  · intro index huncoded
    match index with
    | 0 => cases codedTag?_seal.symm.trans huncoded
    | index + 1 => rfl
  · intro index tag value place path fieldPlan htag hvalue hplace hplan
    match index with
    | 0 =>
        cases hvalue
        cases hplace
        exact .scalar rfl
    | index + 1 => cases hvalue

/-- A sealed parcel of two weights is portable. -/
theorem portable_parcel :
    Portable parcelSchema {} (.record "Parcel") (.untagged (.record "Parcel"))
      (parcel [.ofByte 3, .ofByte 4] "ab" (some (waxSeal true))) := by
  obtain ⟨hcount, hweights, hgap, hlabel, hwax⟩ := codedTag?_parcel
  refine .record lookup_parcelSchema.1 ⟨_, _, rfl⟩ rfl ?_
  intro index tag value fieldType path plan htag hvalue htype hplan
  match index with
  | 0 => cases hcount.symm.trans htag
  | 1 =>
      cases hweights.symm.trans htag
      cases hvalue
      cases htype
      cases hplan
      refine .vector ?_ (by decide) ?_
      · intro given hgiven
        cases hgiven
        rfl
      · intro item hitem
        rcases List.mem_pair.1 hitem with rfl | rfl
        · exact .scalar rfl rfl nofun
        · exact .scalar rfl rfl nofun
  | 2 => cases hgap.symm.trans htag
  | 3 =>
      cases hlabel.symm.trans htag
      cases hvalue
      cases htype
      cases hplan
      exact .text rfl rfl (by unfold EndsWithNul; decide) (by decide) nofun
  | 4 =>
      cases hwax.symm.trans htag
      cases hvalue
      cases htype
      exact .optional (portable_waxSeal _ _)
  | index + 5 => cases hvalue

/-- An empty parcel that counts two weights is a destination for the sealed one. -/
theorem agrees_parcel :
    Agrees parcelSchema (.untagged (.record "Parcel"))
      (parcel [.ofByte 3, .ofByte 4] "ab" (some (waxSeal true))) (parcel [] "" none) := by
  obtain ⟨hcount, hweights, hgap, hlabel, hwax⟩ := codedTag?_parcel
  refine .record rfl ?_ ?_
  · intro index huncoded
    match index with
    | 0 => rfl
    | 1 => cases hweights.symm.trans huncoded
    | 2 => rfl
    | 3 => cases hlabel.symm.trans huncoded
    | 4 => cases hwax.symm.trans huncoded
    | index + 5 => rfl
  · intro index tag value place path plan htag hvalue hplace hplan
    match index with
    | 0 => cases hcount.symm.trans htag
    | 1 =>
        cases hweights.symm.trans htag
        cases hvalue
        cases hplace
        cases hplan
        refine .vector nofun ?_
        intro index item place hitem hplace
        match index with
        | 0 =>
            cases hitem
            cases hplace
            exact .scalar rfl
        | 1 =>
            cases hitem
            cases hplace
            exact .scalar rfl
        | index + 2 => cases hitem
    | 2 => cases hgap.symm.trans htag
    | 3 =>
        cases hlabel.symm.trans htag
        cases hvalue
        cases hplace
        cases hplan
        exact .text nofun
    | 4 =>
        cases hwax.symm.trans htag
        cases hvalue
        cases hplace
        have hdefault : parcelSchema.default (.record "Seal") = waxSeal false := by cbv
        refine .optional ?_
        rw [Option.getD_none, hdefault]
        exact agrees_waxSeal _ _
    | index + 5 => cases hvalue

/-- A parcel with two weights, a label and a seal comes back into an empty one. -/
theorem unpack_parcel :
    (Packer.mk {} .empty).pack .bigEndian
      (parcel [.ofByte 3, .ofByte 4] "ab" (some (waxSeal true))) =
        .ok [0, 3, 0, 4, 0, 0, 0, 2, 97, 98, 0, 0, 1] ∧
    (Packer.mk {} .empty).unpack parcelSchema .bigEndian [0, 3, 0, 4, 0, 0, 0, 2, 97, 98, 0, 0, 1]
      (parcel [] "" none) =
        ⟨parcel [.ofByte 3, .ofByte 4] "ab" (some (waxSeal true)), .ok 13⟩ := by
  have hpack : (Packer.mk {} .empty).pack .bigEndian
      (parcel [.ofByte 3, .ofByte 4] "ab" (some (waxSeal true))) =
      .ok [0, 3, 0, 4, 0, 0, 0, 2, 97, 98, 0, 0, 1] := by cbv
  exact ⟨hpack, unpack_pack portable_parcel agrees_parcel hpack⟩

end parcel

end PackedRecord
