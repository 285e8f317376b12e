import PackedRecord.Proofs.FixedCoding

/-!
# Arrays of elements of a fixed size

A vector that does not fill its array is encoded with zeros in the other slots, as many in each as
the last element took. A vector without elements leaves the encoder to guess that size.
`unpack_padded_fixed` says when what is written is an array of the given length: always if there is
an element, and otherwise exactly if the guess is right.
-/

namespace PackedRecord

/-- The tag of an array of a given length. -/
def Tag.slots (length : SizeExpr) : Tag :=
  ⟨none, .length length, none, none⟩

namespace Plan

/-- The plan for a vector in an array of a given length. -/
def slots (element : HostType) (slots : Nat) : Plan :=
  ⟨(Natural.sequence element.natural none).wire.getD .any, true, some slots, none, 0, none⟩

/-- The plan for so many elements of a type codes these elements. -/
theorem codesElements_slots (element : HostType) (count : Nat) :
    (slots element count).CodesElements element :=
  ⟨rfl, rfl, rfl⟩

/-- Vectors of a type with a representation are coded as arrays of a given length. -/
theorem codesVectors_slots {element : HostType} {length : SizeExpr} {count : Nat}
    (hwire : element.natural.wire ≠ none) (hlength : evalSize .top length none = .ok count) :
    (slots element count).CodesVectors (.slots length) element count := by
  obtain ⟨hpad, hignore⟩ := (codesElements_slots element count).not_pad
  refine ⟨⟨hpad, hignore, rfl⟩, ?_, rfl, rfl⟩
  intro items
  have hresolve : resolveWire .top (.sequence .growable element items) none =
      .ok (slots element count).wire :=
    resolveWire_none (Natural.wire_sequence hwire (some items.length))
  rw [resolve, Tag.slots, hresolve, resolveArray, hlength]
  rfl

end Plan

/-- Values of the type do not nest too deep: a vector with one of them can be packed. -/
def Packer.AdmitsElement (packer : Packer) (schema : Schema) (order : ByteOrder)
    (element : HostType) : Prop :=
  ∃ item bytes, Value.Fits schema element item ∧
    packer.pack order (.sequence .growable element [item]) = .ok bytes

section vector

variable {packer : Packer} {schema : Schema} {order : ByteOrder} {greatest height size : Nat}
  {element : HostType}

/-- If one element can be packed, any bytes can be unpacked into elements. -/
theorem acceptsAll_of_admitsElement (hfixed : element.FixedSize schema greatest height size)
    (hcollect : greatest ≤ packer.limits.collect)
    (hadmits : packer.AdmitsElement schema order element) {plan : Plan}
    (hplan : plan.CodesElements element) {places : List Value}
    (hplaces : ∀ place ∈ places, Value.Fits schema element place) :
    (decodeItems (decodeBelow schema (packer.settings order) (packer.limits.room .top)) .top plan
      element places).AcceptsAll (places.length * size)
        fun results => results.length = places.length ∧
          ∀ result ∈ results, Value.Fits schema element result := by
  obtain ⟨item, bytes, hitem, hpack⟩ := hadmits
  have hyields := Packer.yields_of_packAs hpack
  have hvalue : (Value.sequence .growable element [item]).natural.unsized =
      (HostType.vector element).natural.unsized := rfl
  have hwire : (HostType.vector element).natural.wire ≠ none := by
    show (Natural.sequence element.natural none).wire ≠ none
    rw [Natural.wire_sequence hfixed.natural_wire_ne none]
    exact nofun
  obtain ⟨hpad, hignore⟩ := (HostType.vector element).natural_wire_getD_ne
  rw [encodeTagged, Plan.resolve_empty hvalue hwire, Emission.ofExcept_ok_bind, encodeValue,
    encodeIn_eq, encodeWith_coded hpad hignore] at hyields
  have hof : Elements.of .top (.sequence .growable element [item])
      (Plan.untagged (.vector element)).wire =
        .ok ⟨[item], Value.bytes? element [item], element.natural⟩ := rfl
  obtain ⟨last, hitems⟩ := yields_encodeArray_full hof rfl hyields
  have hfits : ∀ place ∈ [item], Value.Fits schema element place := by
    intro place hplace
    rw [List.mem_singleton.1 hplace]
    exact hitem
  exact ((regular_items (regular_below _) ⟨rfl, rfl, rfl⟩ hfixed hfits hitems).2
    (List.cons_ne_nil _ _)).2 hcollect .top plan hplan places hplaces

/-- An empty slot is taken for as large as the elements are, or as the encoder guesses if there are
none. -/
theorem slotSize_eq {encode : Option ChildEncoder} {decode : Option ChildDecoder} {limits : Limits}
    {path : Path} {plan : Plan} {items : List Value} {front : Bytes} {last : Option Nat}
    (hchild : Option.Rel (Regular schema limits greatest) encode decode)
    (hplan : plan.CodesElements element) (hfixed : element.FixedSize schema greatest height size)
    (hitems : ∀ item ∈ items, Value.Fits schema element item)
    (h : (encodeItems encode path plan ⟨items, Value.bytes? element items, element.natural⟩).Yields
      front last) :
    last.getD element.guessedSize = if items = [] then element.guessedSize else size := by
  cases items with
  | cons item items =>
      obtain ⟨hlast, -⟩ := (regular_items hchild hplan hfixed hitems h).2 (List.cons_ne_nil _ _)
      rw [hlast, if_neg (List.cons_ne_nil _ _), Option.getD_some]
  | nil =>
      rw [if_pos rfl]
      by_cases hbyte : element = .byte
      · subst hbyte
        have hwire : plan.wire = .byte ∨ plan.wire = .uint8 := .inr hplan.wire_eq
        have hdata : Value.bytes? .byte [] = some [] := rfl
        simp only [encodeItems, hdata, if_pos hwire] at h
        obtain ⟨_, _, _, _, -, hdone⟩ := Emission.yields_bind.1 h
        rw [← Except.ok.inj (Emission.yields_ofExcept.1 hdone).2]
        rfl
      · simp only [encodeItems, Value.bytes?, if_neg hbyte] at h
        rw [← Except.ok.inj (Emission.yields_ofExcept.1 h).2, Option.getD_none]

section packed

variable {length : SizeExpr} {slots : Nat} {items : List Value} {bytes : Bytes}
  (hfixed : element.FixedSize schema greatest height size)
  (hitems : ∀ item ∈ items, Value.Fits schema element item)
  (hslots : Plan.evalSize .top length none = .ok slots)
  (hpack : packer.packAs order (.slots length) (.sequence .growable element items) = .ok bytes)

include hfixed hitems hslots hpack

/-- The bytes of an array of elements of a fixed size. -/
theorem length_of_packAs_fixed (hmemory : bytes.length < sizeMax) :
    bytes.length = if items = [] then slots * element.guessedSize else slots * size := by
  have hplan := Plan.codesVectors_slots hfixed.natural_wire_ne hslots
  have hcodes := Plan.codesElements_slots element slots
  obtain ⟨hfits, front, last, hfront, hbytes⟩ := yields_of_packAs_vector hplan hpack
  obtain ⟨hlength, -⟩ := regular_items (regular_below _) hcodes hfixed hitems hfront
  have hslot : ((Plan.slots element slots).bufferLength <|> last).getD
      (staticSize (Plan.slots element slots).wire element.natural) =
        if items = [] then element.guessedSize else size :=
    slotSize_eq (regular_below _) hcodes hfixed hitems hfront
  rw [hslot] at hbytes
  have hsmall : sizeMul (slots - items.length)
      (if items = [] then element.guessedSize else size) < sizeMax := by
    refine Nat.lt_of_le_of_lt ?_ hmemory
    rw [hbytes, List.length_append, Bytes.length_zeros]
    exact Nat.le_add_left _ _
  rw [hbytes, sizeMul_of_lt hsmall, List.length_append, hlength, Bytes.length_zeros]
  by_cases hempty : items = []
  · rw [if_pos hempty, if_pos hempty, hempty, List.length_nil, Nat.zero_mul, Nat.zero_add,
      Nat.sub_zero]
  · rw [if_neg hempty, if_neg hempty, ← Nat.add_mul, Nat.add_sub_cancel' hfits]

/-- Any bytes of the size of the array are taken for its elements, if an element can be packed. -/
theorem acceptsAll_of_packAs_fixed (hcollect : slots ≤ packer.limits.collect)
    (hgreatest : greatest ≤ packer.limits.collect)
    (hadmits : items = [] → packer.AdmitsElement schema order element) :
    (decodeTagged schema (packer.settings order) (.slots length)
      (.sequence .growable element [])).AcceptsAll (slots * size) fun result =>
        ∃ decoded, decoded.length = slots ∧ result = .sequence .growable element decoded := by
  have hplan := Plan.codesVectors_slots hfixed.natural_wire_ne hslots
  have hcodes := Plan.codesElements_slots element slots
  obtain ⟨-, front, last, hfront, -⟩ := yields_of_packAs_vector hplan hpack
  have hplaces : ∀ place ∈ List.replicate slots (schema.default element),
      Value.Fits schema element place := by
    intro place hplace
    rw [List.eq_of_mem_replicate hplace]
    exact hfixed.fits_default
  -- An element that was packed shows that there is room enough below, and so does any other one.
  have hdecode : (decodeItems
      (decodeBelow schema (packer.settings order) (packer.limits.room .top)) .top
      (.slots element slots) element (List.replicate slots (schema.default element))).AcceptsAll
        ((List.replicate slots (schema.default element)).length * size) fun results =>
          results.length = (List.replicate slots (schema.default element)).length ∧
            ∀ result ∈ results, Value.Fits schema element result := by
    by_cases hempty : items = []
    · exact acceptsAll_of_admitsElement hfixed hgreatest (hadmits hempty) hcodes hplaces
    · exact ((regular_items (regular_below _) hcodes hfixed hitems hfront).2 hempty).2 hgreatest
        .top _ hcodes _ hplaces
  rw [List.length_replicate] at hdecode
  intro data hdata
  obtain ⟨decoded, ⟨hcount, -⟩, haccepts⟩ := hdecode data hdata
  exact ⟨_, ⟨decoded, hcount, rfl⟩, accepts_decodeTagged_vector hplan hcollect haccepts⟩

/-- What a vector of elements of a fixed size is packed into, in an array of a given length, is of
the size of the array exactly if there is an element to take the size of an empty slot from, there
are no slots, or the guess at that size is right. An empty vector is unpacked from it in this case,
with no byte left, and otherwise the bytes end too early. Bytes that fit into memory are fewer than
`sizeMax`. -/
theorem unpack_padded_fixed (hmemory : bytes.length < sizeMax) :
    (bytes.length = slots * size ↔ items ≠ [] ∨ slots = 0 ∨ element.guessedSize = size) ∧
    (slots ≤ packer.limits.collect → greatest ≤ packer.limits.collect →
      (items = [] → packer.AdmitsElement schema order element) →
      (bytes.length = slots * size → ∃ decoded, decoded.length = slots ∧
        packer.unpackAs schema order (.slots length) bytes (.sequence .growable element []) =
          ⟨.sequence .growable element decoded, .ok bytes.length⟩) ∧
      (bytes.length ≠ slots * size → ∃ path left,
        packer.unpackAs schema order (.slots length) bytes (.sequence .growable element []) =
          ⟨left, .error (if bytes = [] then .endOfStream else .located path .unexpectedEnd)⟩)) := by
  have htotal := length_of_packAs_fixed hfixed hitems hslots hpack hmemory
  have hmost : bytes.length ≤ slots * size := by
    rw [htotal]
    split
    · exact Nat.mul_le_mul_left slots hfixed.guessedSize_le
    · exact Nat.le_refl _
  constructor
  · rw [htotal]
    by_cases hempty : items = []
    · rw [if_pos hempty, mul_eq_mul_left_iff, or_comm]
      exact ⟨.inr, fun h => h.resolve_left fun hnonempty => hnonempty hempty⟩
    · rw [if_neg hempty]
      exact iff_of_true rfl (.inl hempty)
  · intro hcollect hgreatest hadmits
    have hall := acceptsAll_of_packAs_fixed hfixed hitems hslots hpack hcollect hgreatest hadmits
    constructor
    · intro hcomplete
      obtain ⟨_, ⟨decoded, hcount, rfl⟩, haccepts⟩ := hall bytes hcomplete
      exact ⟨decoded, hcount, Packer.unpackAs_of_accepts haccepts⟩
    · intro hshort
      -- With the missing bytes the array would be taken, so what is there is a part of one.
      have hmissing : 0 < slots * size - bytes.length := by omega
      have hfull : (bytes ++ Bytes.zeros (slots * size - bytes.length)).length = slots * size := by
        rw [List.length_append, Bytes.length_zeros, Nat.add_sub_cancel' hmost]
      obtain ⟨_, -, haccepts⟩ := hall _ hfull
      refine Packer.unpackAs_of_accepts_append haccepts ?_
      rw [← List.length_pos_iff, Bytes.length_zeros]
      exact hmissing

end packed

end vector

/-- The type of a word of two bytes. -/
def wordType : HostType := .scalar (.int .u16)

/-- The type of two rows of two words each. -/
def gridType : HostType := .array 2 (.array 2 wordType)

/-- A word whose bytes are one and two. -/
def word : Value := .scalar (.int ⟨.u16, 0x0102, by decide⟩)

/-- Two rows of two words each. -/
def grid : Value :=
  .sequence .fixed (.array 2 wordType)
    [.sequence .fixed wordType [word, word], .sequence .fixed wordType [word, word]]

/-- A grid takes eight bytes. -/
theorem fixedSize_gridType (schema : Schema) : gridType.FixedSize schema 2 0 8 := by
  have hword : wordType.FixedSize schema 2 0 2 := .int
  have hrow : HostType.FixedSize schema 2 0 (.array 2 wordType) (2 * 2) :=
    .array (Nat.le_refl 2) hword
  exact .array (Nat.le_refl 2) hrow

/-- A grid is a value of its type. -/
theorem fits_grid (schema : Schema) : Value.Fits schema gridType grid := by
  have hrow : Value.Fits schema (.array 2 wordType) (.sequence .fixed wordType [word, word]) := by
    refine .array rfl ?_
    intro item hitem
    rcases List.mem_pair.1 hitem with rfl | rfl
    · exact .scalar rfl
    · exact .scalar rfl
  refine .array rfl ?_
  intro item hitem
  rcases List.mem_pair.1 hitem with rfl | rfl
  · exact hrow
  · exact hrow

/-- The bytes of a grid in an array of three. -/
def gridBytes : Bytes :=
  [1, 2, 1, 2, 1, 2, 1, 2] ++ Bytes.zeros 16

/-- One grid in an array of three is packed into as many bytes as three grids, and three grids are
unpacked from these. -/
theorem unpack_padded_grid :
    (Packer.mk {} .empty).packAs .bigEndian (.slots (.ofNat 3))
      (.sequence .growable gridType [grid]) = .ok gridBytes ∧
    ∃ decoded, decoded.length = 3 ∧
      (Packer.mk {} .empty).unpackAs [] .bigEndian (.slots (.ofNat 3)) gridBytes
        (.sequence .growable gridType []) = ⟨.sequence .growable gridType decoded, .ok 24⟩ := by
  have hpack : (Packer.mk {} .empty).packAs .bigEndian (.slots (.ofNat 3))
      (.sequence .growable gridType [grid]) = .ok gridBytes := by cbv
  have hitems : ∀ item ∈ [grid], Value.Fits [] gridType item := by
    intro item hitem
    rw [List.mem_singleton.1 hitem]
    exact fits_grid []
  have hmemory : gridBytes.length < sizeMax := by decide
  have hunpack := (unpack_padded_fixed (fixedSize_gridType []) hitems rfl hpack hmemory).2
    (show 3 ≤ 65536 by decide) (show 2 ≤ 65536 by decide)
    (fun hempty => absurd hempty (List.cons_ne_nil _ _))
  exact ⟨hpack, hunpack.1 rfl⟩

/-- A vector without grids is packed into nothing in an array of three, and no such array is
unpacked from that. -/
theorem unpack_no_grid :
    gridType.FixedSize [] 2 0 8 ∧
    (Packer.mk {} .empty).packAs .bigEndian (.slots (.ofNat 3))
      (.sequence .growable gridType []) = .ok [] ∧
    ((Packer.mk {} .empty).unpackAs [] .bigEndian (.slots (.ofNat 3)) []
      (.sequence .growable gridType [])).outcome = .error .endOfStream := by
  refine ⟨fixedSize_gridType [], ?_, ?_⟩
  · cbv
  · cbv

end PackedRecord
