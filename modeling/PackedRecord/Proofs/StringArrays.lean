import PackedRecord.Proofs.RoundTrip
import PackedRecord.Proofs.Vectors

/-!
# Arrays of strings with padding

A vector of strings that does not fill its array is encoded with zeros in the other slots, as many
in each as the buffer of a string is long. `unpack_padded_texts` says what the decoder makes of it:
without a length field in front of the strings, the other slots hold empty strings; with one, the
bytes end before the last slot does.
-/

namespace PackedRecord

/-- A vector of strings. -/
def textVector (texts : List String) : Value :=
  .sequence .growable .text (texts.map .text)

/-- The tag of an array of strings in buffers. -/
def Tag.texts (wire : WireType) (length size : SizeExpr) : Tag :=
  ⟨some wire, .length length, some size, none⟩

/-- A wire type for strings is neither padding nor ignored nor open. -/
theorem WireType.ne_of_isText {wire : WireType} (h : wire.isText = true) :
    wire ≠ .pad ∧ wire ≠ .ignore ∧ wire ≠ .any := by
  refine ⟨?_, ?_, ?_⟩
  all_goals
    rintro rfl
    cases h

namespace Plan

/-- The plan for an array of strings in buffers. -/
def texts (wire : WireType) (slots size : Nat) : Plan :=
  ⟨wire, true, some slots, some size, 0, none⟩

/-- The plan for a string in a buffer. -/
def textSlot (wire : WireType) (size : Nat) : Plan :=
  ⟨wire, false, none, some size, 0, none⟩

variable {wire : WireType} {length sizeExpr : SizeExpr} {slots size : Nat}

/-- An array of strings stands behind no reference. -/
theorem texts_isDirect (htext : wire.isText = true) (slots size : Nat) :
    (texts wire slots size).IsDirect :=
  ⟨(WireType.ne_of_isText htext).1, (WireType.ne_of_isText htext).2.1, rfl⟩

/-- A string of such an array stands behind no reference. -/
theorem textSlot_isDirect (htext : wire.isText = true) (size : Nat) :
    (textSlot wire size).IsDirect :=
  ⟨(WireType.ne_of_isText htext).1, (WireType.ne_of_isText htext).2.1, rfl⟩

/-- The elements of an array of strings are strings in buffers of the same length. -/
theorem texts_ofElement (htext : wire.isText = true) (slots size : Nat) :
    (texts wire slots size).ofElement .text = textSlot wire size := by
  rw [ofElement, texts, textSlot, if_neg (WireType.ne_of_isText htext).2.2]
  rfl

/-- A buffer without bytes is refused. -/
theorem size_pos_of_resolve {path : Path} {value : Value} {record : Option Record} {plan : Plan}
    (h : resolve path value (.texts wire length sizeExpr) record = .ok plan)
    (hsize : evalSize path sizeExpr record = .ok size) : 0 < size := by
  obtain ⟨_, -, h⟩ := ok_of_bind h
  obtain ⟨_, -, h⟩ := ok_of_bind h
  obtain ⟨_, hbuffer, -⟩ := ok_of_bind h
  rw [Tag.texts, resolveBuffer, hsize] at hbuffer
  cases size with
  | zero => cases hbuffer
  | succ size => exact Nat.succ_pos size

/-- Vectors of strings are coded as arrays of buffers. -/
theorem codesVectors_texts (htext : wire.isText = true)
    (hslots : evalSize .top length none = .ok slots)
    (hsize : evalSize .top sizeExpr none = .ok size) (hpos : 0 < size) :
    (texts wire slots size).CodesVectors (.texts wire length sizeExpr) .text slots := by
  refine ⟨texts_isDirect htext slots size, ?_, rfl, rfl⟩
  intro items
  obtain ⟨size, rfl⟩ := Nat.exists_eq_add_one.2 hpos
  have hwire : resolveWire .top (.sequence .growable .text items) (some wire) = .ok wire := by
    cases wire <;> rfl
  rw [resolve, Tag.texts, hwire, resolveArray, hslots, resolveBuffer, hsize]
  rfl

end Plan

section slots

variable {schema : Schema} {settings : Settings} {wire : WireType} {size slots room : Nat}
  {texts : List String} {bytes : Bytes} {last : Option Nat}

/-- A slot of zeros, with a length field if there is one, holds the empty string. -/
theorem accepts_decodeElement_zeros (htext : wire.isText = true)
    (hblob : size ≤ settings.limits.blob) (index : Nat) :
    (decodeElement (some (decodeIn schema settings room)) .top (.texts wire slots size) index
      (.text "")).Accepts (Bytes.zeros (wire.lengthSize?.getD 0 + size)) (.text "") := by
  have hdirect := Plan.texts_isDirect htext slots size
  have hplan : (Plan.texts wire slots size).element [.index index] (.text "") =
      .ok (.textSlot wire size) := by
    rw [← Plan.texts_ofElement htext slots size]
    exact Plan.element_eq hdirect.not_pad hdirect.not_ignore rfl nofun
  refine accepts_decodeElement rfl hplan ?_
  have hdecoded : (decodeText settings [.index index] (.textSlot wire size)
      "".utf8ByteSize).Accepts (Bytes.zeros (wire.lengthSize?.getD 0 + size)) "" :=
    accepts_decodeText_zeros _ rfl rfl hblob
  rw [decodeIn_eq, (Plan.textSlot_isDirect htext size).decodeWith_eq]
  show (if wire.isText then putText _ _ _ else _).Accepts _ _
  rw [if_pos htext]
  exact (Intake.Accepts.leaving _ hdecoded).bind_done ⟨rfl, rfl⟩

/-- The strings and the slots of zeros behind them are decoded one after the other. -/
theorem accepts_decodeItems_texts (htext : wire.isText = true)
    (hnul : ∀ text ∈ texts, ¬ EndsWithNul text) (hblob : size ≤ settings.limits.blob)
    (hfits : texts.length ≤ slots)
    (h : (encodeElements (some (encodeIn settings room)) .top (.texts wire slots size) 0 none
      (texts.map .text)).Yields bytes last) :
    (decodeItems (some (decodeIn schema settings room)) .top (.texts wire slots size) .text
      (List.replicate slots (.text ""))).Accepts
        (bytes ++ Bytes.zeros ((slots - texts.length) * (wire.lengthSize?.getD 0 + size)))
        ((texts ++ List.replicate (slots - texts.length) "").map .text) := by
  have hdirect := Plan.texts_isDirect htext slots size
  have hslot := Plan.texts_ofElement htext slots size
  have hplaces : List.replicate slots (Value.text "") =
      List.replicate texts.length (.text "") ++
        List.replicate (slots - texts.length) (.text "") := by
    rw [List.replicate_append_replicate, Nat.add_sub_cancel' hfits]
  have hfront : (decodeElements (some (decodeIn schema settings room)) .top
      (.texts wire slots size) 0 [] (List.replicate texts.length (.text ""))).Accepts bytes
        (texts.map .text) := by
    have hitems : ∀ item ∈ texts.map Value.text, Value.Portable schema settings.limits .text
        ((Plan.texts wire slots size).ofElement .text) item := by
      intro item hitem
      obtain ⟨text, hmem, rfl⟩ := List.mem_map.1 hitem
      rw [hslot]
      exact .text htext rfl (hnul text hmem) hblob nofun
    refine accepts_decodeElements_of_yields (.some (restores_in schema settings room))
      hdirect.not_pad hdirect.not_ignore ?_ hitems ?_ h
    · rw [List.length_map, List.length_replicate]
    · intro index item place hitem hplace
      obtain ⟨text, -, rfl⟩ := List.mem_map.1 (List.mem_of_getElem? hitem)
      obtain rfl := List.eq_of_mem_replicate (List.mem_of_getElem? hplace)
      rw [hslot]
      exact .text nofun
  -- The slots behind the strings have no encoder to go by, only their zeros.
  have hzeros (index : Nat) : (decodeElement (some (decodeIn schema settings room)) .top
      (.texts wire slots size) index (.text "")).Accepts
        (Bytes.zeros (wire.lengthSize?.getD 0 + size)) (.text "") :=
    accepts_decodeElement_zeros htext hblob index
  have hback := accepts_decodeElements_replicate hzeros (slots - texts.length) texts.length
    (texts.map Value.text).reverse
  rw [List.reverse_reverse, Bytes.flatten_zeros] at hback
  have hsingly : ¬ (HostType.text = .byte ∧ ((Plan.texts wire slots size).wire = .byte ∨
      (Plan.texts wire slots size).wire = .uint8)) := by
    rintro ⟨hbytes, -⟩
    cases hbytes
  rw [decodeItems, if_neg hsingly, hplaces, List.map_append, List.map_replicate]
  refine accepts_decodeElements_append.2 ⟨bytes, _, _, rfl, hfront, ?_⟩
  rw [List.length_replicate, Nat.zero_add]
  exact hback

end slots

/-- Decoding what a vector of strings was encoded into, in buffers of an array of a given length,
into an empty vector. Without a length field in front of the strings, or if there are as many of
them as slots, they come back, followed by empty strings, and no byte is left. Otherwise each slot
of zeros lacks a length field, so that the bytes end before the last slot does. Bytes that fit into
memory are fewer than `sizeMax`. -/
theorem unpack_padded_texts {packer : Packer} {schema : Schema} {order : ByteOrder}
    {wire : WireType} {length sizeExpr : SizeExpr} {slots size : Nat} {texts : List String}
    {bytes : Bytes} (htext : wire.isText = true)
    (hslots : Plan.evalSize .top length none = .ok slots)
    (hsize : Plan.evalSize .top sizeExpr none = .ok size)
    (hnul : ∀ text ∈ texts, ¬ EndsWithNul text) (hcollect : slots ≤ packer.limits.collect)
    (hblob : size ≤ packer.limits.blob) (hroom : 0 < packer.limits.recursion)
    (hmemory : bytes.length < sizeMax)
    (hpack : packer.packAs order (.texts wire length sizeExpr) (textVector texts) = .ok bytes) :
    (wire.lengthSize? = none ∨ texts.length = slots →
      packer.unpackAs schema order (.texts wire length sizeExpr) bytes (textVector []) =
        ⟨textVector (texts ++ List.replicate (slots - texts.length) ""), .ok bytes.length⟩) ∧
    (wire.lengthSize? ≠ none → texts.length < slots →
      ∃ path left, packer.unpackAs schema order (.texts wire length sizeExpr) bytes
        (textVector []) = ⟨left, .error (.located path .unexpectedEnd)⟩) := by
  have hpos : 0 < size := by
    obtain ⟨_, plan, _, _, hplan, _⟩ := Emission.yields_bind.1 (Packer.yields_of_packAs hpack)
    exact Plan.size_pos_of_resolve (Emission.yields_ofExcept.1 hplan).2 hsize
  have hplan := Plan.codesVectors_texts htext hslots hsize hpos
  obtain ⟨room, hdeep⟩ : ∃ room, packer.limits.room .top = room + 1 :=
    Nat.exists_eq_add_one.2 hroom
  obtain ⟨hfits, front, last, hfront, hbytes⟩ := yields_of_packAs_vector hplan hpack
  rw [List.length_map] at hfits hbytes
  rw [hdeep] at hfront
  have haccepts : (decodeTagged schema (packer.settings order) (.texts wire length sizeExpr)
      (textVector [])).Accepts
        (front ++ Bytes.zeros ((slots - texts.length) * (wire.lengthSize?.getD 0 + size)))
        (textVector (texts ++ List.replicate (slots - texts.length) "")) := by
    refine accepts_decodeTagged_vector hplan hcollect ?_
    rw [hdeep]
    exact accepts_decodeItems_texts htext hnul hblob hfits hfront
  have hpadding : bytes = front ++ Bytes.zeros ((slots - texts.length) * size) := by
    have hsmall : sizeMul (slots - texts.length) size < sizeMax := by
      refine Nat.lt_of_le_of_lt ?_ hmemory
      rw [hbytes, List.length_append, Bytes.length_zeros]
      exact Nat.le_add_left _ _
    rw [← sizeMul_of_lt hsmall]
    exact hbytes
  constructor
  · intro hcomplete
    have hsame : (slots - texts.length) * (wire.lengthSize?.getD 0 + size) =
        (slots - texts.length) * size := by
      rcases hcomplete with hwidth | hfull
      · rw [hwidth, Option.getD_none, Nat.zero_add]
      · rw [hfull, Nat.sub_self, Nat.zero_mul, Nat.zero_mul]
    rw [hsame, ← hpadding] at haccepts
    exact Packer.unpackAs_of_accepts haccepts
  · intro hcounted hshort
    obtain ⟨width, hwidth⟩ := Option.ne_none_iff_exists'.1 hcounted
    have hmissing : 0 < (slots - texts.length) * width :=
      Nat.mul_pos (Nat.sub_pos_of_lt hshort) (WireType.lengthSize_pos hwidth)
    -- What was written is all but the length fields, so it is a part of what would be accepted.
    rw [hwidth, Option.getD_some, Nat.add_comm, Nat.mul_add, Bytes.zeros_add, ← List.append_assoc,
      ← hpadding] at haccepts
    obtain ⟨path, left, hunpack⟩ := Packer.unpackAs_of_accepts_append haccepts (by
      rw [← List.length_pos_iff, Bytes.length_zeros]
      exact hmissing)
    refine ⟨path, left, ?_⟩
    have hnonempty : bytes ≠ [] := by
      rw [← List.length_pos_iff, hpadding, List.length_append, Bytes.length_zeros]
      exact Nat.add_pos_right _ (Nat.mul_pos (Nat.sub_pos_of_lt hshort) hpos)
    rw [if_neg hnonempty] at hunpack
    exact hunpack

/-- One string in an array of two buffers comes back with an empty string. -/
theorem unpack_padded_label :
    (Packer.mk {} .empty).packAs .bigEndian (.texts .string (.ofNat 2) (.ofNat 3))
      (textVector ["ab"]) = .ok [97, 98, 0, 0, 0, 0] ∧
    (Packer.mk {} .empty).unpackAs [] .bigEndian
      (.texts .string (.ofNat 2) (.ofNat 3)) [97, 98, 0, 0, 0, 0] (textVector []) =
        ⟨textVector ["ab", ""], .ok 6⟩ := by
  have hpack : (Packer.mk {} .empty).packAs .bigEndian
      (.texts .string (.ofNat 2) (.ofNat 3)) (textVector ["ab"]) =
        .ok [97, 98, 0, 0, 0, 0] := by cbv
  have hnul : ∀ text ∈ ["ab"], ¬ EndsWithNul text := by
    unfold EndsWithNul
    decide
  have hmemory : ([97, 98, 0, 0, 0, 0] : Bytes).length < sizeMax := by decide
  exact ⟨hpack, (unpack_padded_texts rfl rfl rfl hnul (show 2 ≤ 65536 by decide)
    (show 3 ≤ 16777216 by decide) (show 0 < 32 by decide) hmemory hpack).1 (.inl rfl)⟩

/-- Behind a length field, one string in an array of two buffers does not come back. -/
theorem unpack_padded_counted_label :
    (Packer.mk {} .empty).packAs .bigEndian (.texts .bstring (.ofNat 2) (.ofNat 3))
      (textVector ["ab"]) = .ok [2, 97, 98, 0, 0, 0, 0] ∧
    ((Packer.mk {} .empty).unpackAs [] .bigEndian
      (.texts .bstring (.ofNat 2) (.ofNat 3)) [2, 97, 98, 0, 0, 0, 0]
      (textVector [])).outcome = .error (.located [.index 1] .unexpectedEnd) := by
  constructor
  · cbv
  · cbv

end PackedRecord
