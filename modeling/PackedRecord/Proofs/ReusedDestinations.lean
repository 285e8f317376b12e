import Mathlib.Data.List.Forall2
import PackedRecord.Proofs.StableSizes
import PackedRecord.Proofs.TextBounds

/-!
# Destinations that are used again

A destination says how long the strings and the arrays are whose tags do not. Decoding keeps the
lengths of the arrays. A string gets shorter if it is read with zeros at its end, which are padding.
So the second of two decodings into one value takes as many bytes as the first one if and only if
no string got shorter. This is `Decoder.decodeAs_again`; `Value.Spans` says how many bytes such a
value takes, and `Decoder.Refills.sizes_le` that any number of decodings take less and less.
-/

namespace PackedRecord

/-- How many bytes a value takes, and how long its strings are, one after the other. -/
structure Extent where
  size : Nat
  texts : List Nat

namespace Extent

instance : Zero Extent := ⟨⟨0, []⟩⟩

instance : Add Extent :=
  ⟨fun first second => ⟨first.size + second.size, first.texts ++ second.texts⟩⟩

/-- The strings of a value may have become shorter, and if one has, the value takes less bytes. -/
structure Shrinks (before after : Extent) : Prop where
  texts_le : List.Forall₂ (· ≤ ·) after.texts before.texts
  size_le : after.size ≤ before.size
  size_eq_iff : after.size = before.size ↔ after.texts = before.texts

variable {before after before' after' : Extent}

/-- An extent that stays as it is has not grown. -/
theorem Shrinks.refl (extent : Extent) : extent.Shrinks extent :=
  ⟨List.forall₂_refl _, Nat.le_refl _, iff_of_true rfl rfl⟩

/-- A string in units of some width takes less bytes if it becomes shorter. -/
theorem Shrinks.text {width length length' : Nat} (hwidth : 0 < width) (h : length' ≤ length) :
    Shrinks ⟨length * width, [length]⟩ ⟨length' * width, [length']⟩ := by
  refine ⟨.cons h .nil, Nat.mul_le_mul_right width h, ?_⟩
  show length' * width = length * width ↔ [length'] = [length]
  rw [Nat.mul_left_inj hwidth.ne', List.singleton_inj]

/-- Two extents that did not grow have not grown together. -/
theorem Shrinks.add (h : before.Shrinks after) (h' : before'.Shrinks after') :
    (before + before').Shrinks (after + after') := by
  refine ⟨List.rel_append h.texts_le h'.texts_le, Nat.add_le_add h.size_le h'.size_le, ?_⟩
  have hsize : after.size + after'.size = before.size + before'.size ↔
      after.size = before.size ∧ after'.size = before'.size := by
    have := h.size_le
    have := h'.size_le
    omega
  have htexts : after.texts ++ after'.texts = before.texts ++ before'.texts ↔
      after.texts = before.texts ∧ after'.texts = before'.texts :=
    ⟨fun heq => List.append_inj heq h.texts_le.length_eq, fun ⟨heq, heq'⟩ => by rw [heq, heq']⟩
  show after.size + after'.size = before.size + before'.size ↔ _
  rw [hsize, h.size_eq_iff, h'.size_eq_iff]
  exact htexts.symm

/-- Extents that did not grow have not grown in sum. -/
theorem Shrinks.sum {extents extents' : List Extent} (h : List.Forall₂ Shrinks extents extents') :
    extents.sum.Shrinks extents'.sum := by
  induction h with
  | nil => exact .refl 0
  | cons hfirst _ ih =>
      rw [List.sum_cons, List.sum_cons]
      exact hfirst.add ih

/-- Equal extents take a multiple of their size. -/
theorem size_sum_replicate (count size : Nat) :
    (List.replicate count (⟨size, []⟩ : Extent)).sum.size = count * size := by
  induction count with
  | zero => exact (Nat.zero_mul size).symm
  | succ count ih =>
      rw [List.replicate_succ, List.sum_cons, Nat.succ_mul, Nat.add_comm, ← ih]
      rfl

end Extent

/-- The tag gives no length. -/
structure Tag.IsImplicit (tag : Tag) : Prop where
  no_length : ∀ expr, tag.brackets ≠ .length expr
  no_buffer : tag.bufferLength = none

/-- The plan that a tag without lengths gives for a value. -/
def Tag.planOf (tag : Tag) (value : Value) : Plan where
  wire := tag.wire.getD (value.natural.wire.getD .any)
  isArray := if tag.brackets = .absent then value.natural.isArray else true
  arrayLength := none
  bufferLength := none
  indirection := value.natural.indirection
  encoding := tag.encoding

/-- A tag without lengths gives the same plan on every record. -/
theorem Tag.IsImplicit.plan_eq {tag : Tag} {path : Path} {value : Value} {record : Option Record}
    {plan : Plan} (himplicit : tag.IsImplicit)
    (h : Plan.resolve path value tag record = .ok plan) : plan = tag.planOf value := by
  obtain ⟨hwire, harray, hbuffer, hindirection, hencoding⟩ := Plan.parts_of_resolve h
  obtain ⟨wire, isArray, arrayLength, bufferLength, indirection, encoding⟩ := plan
  obtain rfl : wire = (tag.planOf value).wire := by
    unfold Plan.resolveWire at hwire
    unfold planOf
    split at hwire <;> simp_all
  have hparts : isArray = (tag.planOf value).isArray ∧ arrayLength = none := by
    unfold Plan.resolveArray at harray
    unfold planOf
    split at harray
    · simp_all
    · simp_all
    next expr hexpr => exact absurd hexpr (himplicit.no_length expr)
  obtain rfl : bufferLength = none := by
    rw [himplicit.no_buffer] at hbuffer
    exact (Except.ok.inj hbuffer).symm
  obtain ⟨rfl, rfl⟩ := hparts
  cases hindirection
  cases hencoding
  rfl

/-- The plan of a tag without lengths depends on the natural representation only. -/
theorem Tag.planOf_congr {value value' : Value} (tag : Tag) (h : value'.natural = value.natural) :
    tag.planOf value' = tag.planOf value := by
  rw [planOf, h, planOf]

/-- The value is coded by the plan without any length but its own, and takes so much: a scalar, a
bare string, a string as an array of numbers, the elements of a sequence one after the other, or the
fields of a record whose tags give no lengths. -/
inductive Value.Spans : Plan → Value → Extent → Prop where
  | scalar {plan : Plan} {content : Scalar} :
      plan.IsDirect → plan.isArray = false → plan.wire.isNumeric = true →
      Spans plan (.scalar content) ⟨plan.wire.byteSize, []⟩
  | text {plan : Plan} {content : String} :
      plan.IsDirect → plan.isArray = false → plan.wire = .string → plan.bufferLength = none →
      Spans plan (.text content) ⟨content.utf8ByteSize, [content.utf8ByteSize]⟩
  | numbers {plan : Plan} {content : String} :
      plan.IsDirect → plan.isArray = true → plan.arrayLength = none → plan.wire.isNumeric = true →
      Spans plan (.text content)
        ⟨content.utf8ByteSize * plan.wire.byteSize, [content.utf8ByteSize]⟩
  | sequence {plan : Plan} {kind : SequenceKind} {element : HostType} {items : List Value}
      {extents : List Extent} :
      plan.IsDirect → plan.isArray = true → plan.arrayLength = none →
      (∀ item ∈ items, item.natural.unsized = element.natural.unsized) →
      extents.length = items.length →
      (∀ (index : Nat) item extent, items[index]? = some item → extents[index]? = some extent →
        Spans (plan.ofElement element) item extent) →
      Spans plan (.sequence kind element items) extents.sum
  | record {plan : Plan} {layout : Layout} {fields : List Value} {extents : List Extent} :
      plan.IsDirect → plan.isArray = false → plan.wire = .struct →
      extents.length = layout.fields.length →
      (∀ (index : Nat) extent, extents[index]? = some extent → layout.visitedTag? index = none →
        extent = 0) →
      (∀ (index : Nat) tag, layout.visitedTag? index = some tag → tag.IsImplicit) →
      (∀ (index : Nat) extent tag value, extents[index]? = some extent →
        layout.visitedTag? index = some tag → fields[index]? = some value →
        Spans (tag.planOf value) value extent) →
      Spans plan (.record layout fields) extents.sum

/-- The bytes that were decoded into a value are those that it takes, and the result is such a
value again. -/
structure Value.Reused (plan : Plan) (value : Value) (extent : Extent) (bytes : Bytes)
    (result : Value) : Prop where
  length_eq : bytes.length = extent.size
  natural_eq : result.natural = value.natural
  spans : ∃ extent', Value.Spans plan result extent' ∧ extent.Shrinks extent'

/-- The decoder one step further down reuses what it decodes into. -/
def ChildReuses (child : Option ChildDecoder) : Prop :=
  ∀ decode, child = some decode → ∀ {path plan value extent bytes result},
    Value.Spans plan value extent → (decode path value plan).Accepts bytes result →
    Value.Reused plan value extent bytes result

section leaves

variable {settings : Settings} {path : Path} {plan : Plan} {bytes : Bytes}

/-- A number takes as many bytes as its width. -/
theorem length_of_accepts_readImage {width : Nat} {image : UInt64}
    (h : (readImage settings path width).Accepts bytes image) : bytes.length = width := by
  obtain ⟨_, _, _, rfl, ⟨front, back, rfl, hfront, rfl, rfl⟩, himage⟩ := Intake.accepts_bind.1 h
  split at himage
  next =>
    obtain ⟨rfl, -⟩ := himage
    rw [List.append_nil, List.append_nil, hfront]
  next => exact himage.elim

/-- A numeric wire type has at least one byte. -/
theorem WireType.byteSize_pos {wire : WireType} (h : wire.isNumeric = true) :
    0 < wire.byteSize := by
  revert h
  cases wire <;> decide

/-- The wire types of elements that are read at once are those of bytes. -/
theorem WireType.size_of_bulk {wire : WireType} (h : wire = .byte ∨ wire = .uint8) :
    wire.isNumeric = true ∧ wire.byteSize = 1 := by
  rcases h with rfl | rfl
  · exact ⟨rfl, rfl⟩
  · exact ⟨rfl, rfl⟩

/-- A number becomes a scalar of the type that is asked for. -/
theorem ScalarType.type_of_ofNumber {type : ScalarType} {number : Number} {scalar : Scalar}
    (h : type.ofNumber number = .ok scalar) : scalar.type = type := by
  unfold ofNumber at h
  split at h
  next => split at h <;> cases h <;> rfl
  next =>
    split at h
    · cases h
    · cases h
      rfl
  next =>
    cases h
    rfl
  next type =>
    split at h
    next value hvalue =>
      cases h
      obtain ⟨integer, -, hholds⟩ := Option.bind_eq_some_iff.1 hvalue
      unfold HostInt.ofInt? at hholds
      split at hholds
      · cases hholds
        rfl
      · cases hholds
    next => cases h

/-- What is read as a type is of that type. -/
theorem ScalarType.type_of_ofImage {type : ScalarType} {wire : WireType} {image : UInt64}
    {scalar : Scalar} (h : type.ofImage wire image = .ok scalar) : scalar.type = type := by
  unfold ofImage at h
  split at h
  · exact type_of_ofNumber h
  · cases h

/-- A scalar takes as many bytes as its wire type is wide, and stays one of its type. -/
theorem accepts_decodeScalar_type {wire : WireType} {type : ScalarType} {scalar : Scalar}
    (h : (decodeScalar settings path wire type).Accepts bytes scalar) :
    bytes.length = wire.byteSize ∧ scalar.type = type := by
  obtain ⟨front, image, back, rfl, himage, hscalar⟩ := Intake.accepts_bind.1 h
  split at hscalar
  next decoded hdecoded =>
    obtain ⟨rfl, rfl⟩ := hscalar
    rw [List.append_nil]
    exact ⟨length_of_accepts_readImage himage, ScalarType.type_of_ofImage hdecoded⟩
  next => exact hscalar.elim

/-- Without a buffer and a length field, as many bytes are read as the destination has. -/
theorem accepts_readFramed_bare {current : Nat} {framed : Bytes} (hwire : plan.wire = .string)
    (hbuffer : plan.bufferLength = none)
    (h : (readFramed settings path plan current).Accepts bytes framed) :
    bytes.length = current ∧ framed = bytes ∧ plan.encoding = none := by
  obtain ⟨wire, isArray, arrayLength, bufferLength, indirection, encoding⟩ := plan
  cases hwire
  cases hbuffer
  obtain ⟨_, length, _, rfl, hlength, hrest⟩ := Intake.accepts_bind.1 h
  cases encoding with
  | some encoding => exact hlength.elim
  | none =>
      obtain ⟨rfl, rfl⟩ := hlength
      obtain ⟨_, data, _, rfl, hblob, rfl, rfl⟩ := Intake.accepts_bind.1 hrest
      obtain ⟨_, _, _, rfl, hcheck, _, _, rfl, hcount, rfl, rfl⟩ := Intake.accepts_bind.1 hblob
      obtain ⟨rfl, -⟩ := Intake.accepts_ofExcept.1 hcheck
      simp only [Option.getD_none, Nat.max_zero] at hcount
      subst hcount
      simp only [List.nil_append, List.append_nil, List.take_length, and_self]

/-- A bare string takes as many bytes as the destination has, and gets no longer. -/
theorem accepts_decodeText_bare {current : Nat} {text : String} (hwire : plan.wire = .string)
    (hbuffer : plan.bufferLength = none)
    (h : (decodeText settings path plan current).Accepts bytes text) :
    bytes.length = current ∧ text.utf8ByteSize ≤ current := by
  obtain ⟨front, framed, _, rfl, hframed, hrest⟩ := Intake.accepts_bind.1 h
  obtain ⟨hlength, rfl, hplain⟩ := accepts_readFramed_bare hwire hbuffer hframed
  rw [hplain, transcode_none] at hrest
  obtain ⟨rfl, htext⟩ := Intake.accepts_ofExcept.1 hrest
  rw [List.append_nil, ← hlength]
  exact ⟨rfl, utf8ByteSize_of_textOfBytes htext⟩

end leaves

/-- Elements that were decoded take the bytes of those before, and are such elements again. -/
structure ItemsReused (plan : Plan) (element : HostType) (extents : List Extent) (bytes : Bytes)
    (result : List Value) : Prop where
  length_eq : bytes.length = extents.sum.size
  natural_eq : ∀ item ∈ result, item.natural.unsized = element.natural.unsized
  spans : ∃ extents', List.Forall₂ (Value.Spans (plan.ofElement element)) result extents' ∧
    List.Forall₂ Extent.Shrinks extents extents'

section elements

variable {schema : Schema} {settings : Settings} {child : Option ChildDecoder} {path : Path}
  {plan : Plan} {element : HostType} {items : List Value} {extents : List Extent} {bytes : Bytes}

/-- An element is reused if the values below it are. -/
theorem reused_decodeElement (hchild : ChildReuses child) (hdirect : plan.IsDirect) {index : Nat}
    {item result : Value} {extent : Extent}
    (hnatural : item.natural.unsized = element.natural.unsized)
    (hspans : Value.Spans (plan.ofElement element) item extent)
    (h : (decodeElement child path plan index item).Accepts bytes result) :
    Value.Reused (plan.ofElement element) item extent bytes result := by
  unfold decodeElement at h
  split at h
  next => exact h.elim
  next decode =>
    simp only at h
    split at h
    next => exact h.elim
    next itemPlan hplan =>
      have hwire :=
        Plan.natural_wire_of_element hdirect.not_pad hdirect.not_ignore hnatural hplan
      rw [Plan.element_eq hdirect.not_pad hdirect.not_ignore hnatural hwire] at hplan
      cases hplan
      exact hchild decode rfl hspans h

/-- Elements are reused one by one, whatever was decoded before them. -/
theorem reused_decodeElements (hchild : ChildReuses child) (hdirect : plan.IsDirect)
    {index : Nat} {decoded result : List Value}
    (hnatural : ∀ item ∈ items, item.natural.unsized = element.natural.unsized)
    (hspans : List.Forall₂ (Value.Spans (plan.ofElement element)) items extents)
    (h : (decodeElements child path plan index decoded items).Accepts bytes result) :
    ∃ items', result = decoded.reverse ++ items' ∧
      ItemsReused plan element extents bytes items' := by
  induction hspans generalizing index decoded bytes with
  | nil =>
      obtain ⟨rfl, rfl⟩ := h
      exact ⟨[], (List.append_nil _).symm, rfl, nofun, [], .nil, .nil⟩
  | @cons item extent items extents hitem _ ih =>
      rw [List.forall_mem_cons] at hnatural
      obtain ⟨front, item', back, rfl, hfirst, hrest⟩ := accepts_decodeElements_cons.1 h
      obtain ⟨items', rfl, hlater⟩ := ih hnatural.2 hrest
      have hreused := reused_decodeElement hchild hdirect hnatural.1 hitem hfirst
      obtain ⟨extent', hspans, hshrinks⟩ := hreused.spans
      obtain ⟨extents', hspans', hshrinks'⟩ := hlater.spans
      refine ⟨item' :: items', by rw [List.reverse_cons, List.append_assoc]; rfl, ?_, ?_, ?_⟩
      · rw [List.length_append, hreused.length_eq, hlater.length_eq, List.sum_cons]
        rfl
      · rw [List.forall_mem_cons, hreused.natural_eq]
        exact ⟨hnatural.1, hlater.natural_eq⟩
      · exact ⟨extent' :: extents', .cons hspans hspans', .cons hshrinks hshrinks'⟩

/-- The plan for the elements of an array of numbers that are bytes. -/
theorem Plan.ofElement_byte (hdirect : plan.IsDirect) (hnumeric : plan.wire.isNumeric = true) :
    (plan.ofElement .byte).IsDirect ∧ (plan.ofElement .byte).isArray = false ∧
      (plan.ofElement .byte).wire = plan.wire := by
  have hopen : plan.wire ≠ .any := by
    intro hany
    rw [hany] at hnumeric
    cases hnumeric
  have hwire : (plan.ofElement .byte).wire = plan.wire := if_neg hopen
  refine ⟨⟨?_, ?_, rfl⟩, rfl, hwire⟩
  · rw [hwire]
    exact hdirect.not_pad
  · rw [hwire]
    exact hdirect.not_ignore

/-- Bytes in an array of numbers take the width of the numbers each. -/
theorem spans_bytes (hdirect : plan.IsDirect) (hnumeric : plan.wire.isNumeric = true)
    (data : Bytes) :
    List.Forall₂ (Value.Spans (plan.ofElement .byte)) (data.map Value.ofByte)
      (List.replicate data.length ⟨plan.wire.byteSize, []⟩) := by
  obtain ⟨hitems, hsingle, hwire⟩ := Plan.ofElement_byte hdirect hnumeric
  rw [← hwire] at hnumeric ⊢
  induction data with
  | nil => exact .nil
  | cons byte data ih => exact .cons (.scalar hitems hsingle hnumeric) ih

/-- Bytes have the natural representation of their type. -/
theorem natural_of_bytes (data : Bytes) : ∀ item ∈ data.map Value.ofByte,
    item.natural.unsized = HostType.byte.natural.unsized := by
  intro item hitem
  obtain ⟨byte, -, rfl⟩ := List.mem_map.1 hitem
  rfl

/-- Whatever is coded as a byte in an array of bytes takes one. -/
theorem Value.Spans.eq_of_byte {item : Value} {extent : Extent} (hdirect : plan.IsDirect)
    (hwire : plan.wire = .byte ∨ plan.wire = .uint8)
    (h : Spans (plan.ofElement .byte) item extent) : extent = ⟨1, []⟩ := by
  obtain ⟨hnumeric, hsize⟩ := WireType.size_of_bulk hwire
  obtain ⟨-, hsingle, hsame⟩ := Plan.ofElement_byte hdirect hnumeric
  rw [← hsame] at hnumeric hsize
  cases h with
  | scalar => rw [hsize]
  | text _ _ hwire => rw [hwire] at hnumeric; cases hnumeric
  | numbers _ harray => rw [hsingle] at harray; cases harray
  | sequence _ harray => rw [hsingle] at harray; cases harray
  | record _ _ hwire => rw [hwire] at hnumeric; cases hnumeric

/-- Elements that are coded as bytes take one byte each. -/
theorem extents_of_bytes (hdirect : plan.IsDirect) (hwire : plan.wire = .byte ∨ plan.wire = .uint8)
    (hspans : List.Forall₂ (Value.Spans (plan.ofElement .byte)) items extents) :
    extents = List.replicate items.length ⟨1, []⟩ := by
  induction hspans with
  | nil => rfl
  | cons hitem _ ih => rw [hitem.eq_of_byte hdirect hwire, ih, List.length_cons,
      List.replicate_succ]

/-- Elements are reused, at once or one by one. -/
theorem reused_decodeItems (hchild : ChildReuses child) (hdirect : plan.IsDirect)
    {result : List Value}
    (hnatural : ∀ item ∈ items, item.natural.unsized = element.natural.unsized)
    (hspans : List.Forall₂ (Value.Spans (plan.ofElement element)) items extents)
    (h : (decodeItems child path plan element items).Accepts bytes result) :
    ItemsReused plan element extents bytes result := by
  unfold decodeItems at h
  split at h
  next hbulk =>
    -- The bytes that were there do not matter: as many take their places.
    obtain ⟨rfl, hwire⟩ := hbulk
    obtain ⟨data, _, rfl, hcount, rfl, rfl⟩ := h
    obtain ⟨hnumeric, hsize⟩ := WireType.size_of_bulk hwire
    have hspans' := spans_bytes hdirect hnumeric data
    rw [hsize] at hspans'
    rw [extents_of_bytes hdirect hwire hspans, ← hcount]
    refine ⟨?_, natural_of_bytes data, _, hspans',
      List.forall₂_same.2 fun extent _ => .refl extent⟩
    rw [Extent.size_sum_replicate, Nat.mul_one, List.append_nil]
  next =>
    obtain ⟨items', rfl, hreused⟩ := reused_decodeElements hchild hdirect hnatural hspans h
    exact hreused

/-- A sequence that is as long as its plan says, which says nothing, is reused. -/
theorem reused_decodeSequence {kind : SequenceKind} {result : List Value}
    (hchild : ChildReuses child) (hdirect : plan.IsDirect) (hlength : plan.arrayLength = none)
    (hnatural : ∀ item ∈ items, item.natural.unsized = element.natural.unsized)
    (hspans : List.Forall₂ (Value.Spans (plan.ofElement element)) items extents)
    (h : (decodeSequence schema settings child path plan kind element items).Accepts bytes result) :
    result.length = items.length ∧ ItemsReused plan element extents bytes result := by
  have hplaces : (if kind = .growable then resized (schema.default element) items.length items
      else items) = items := by
    split
    · rw [resized, List.take_length, Nat.sub_self, List.replicate_zero, List.append_nil]
    · rfl
  simp only [decodeSequence, hlength, Option.getD_none, hplaces] at h
  split at h
  next => exact h.elim
  next =>
    obtain ⟨front, stored, back, rfl, hstored, hrest⟩ := Intake.accepts_bind.1 h
    obtain ⟨decoded, hdecoded, rfl⟩ := Intake.accepts_bimap.1 hstored
    rw [discardSlots, if_pos (Nat.le_refl _)] at hrest
    obtain ⟨rfl, rfl⟩ := hrest
    rw [List.take_length] at hdecoded
    rw [List.drop_length, List.append_nil, List.append_nil]
    exact ⟨length_of_accepts_decodeItems hdecoded,
      reused_decodeItems hchild hdirect hnatural hspans hdecoded⟩

/-- A string that is an array of numbers takes as many of them as the destination has bytes, and
gets no longer. -/
theorem accepts_decodeNumbersAsText_bare {current : Nat} {text : String}
    (hchild : ChildReuses child) (hdirect : plan.IsDirect) (hlength : plan.arrayLength = none)
    (hnumeric : plan.wire.isNumeric = true)
    (h : (decodeNumbersAsText settings child path plan current).Accepts bytes text) :
    bytes.length = current * plan.wire.byteSize ∧ text.utf8ByteSize ≤ current := by
  simp only [decodeNumbersAsText, hlength, Option.getD_none] at h
  obtain ⟨_, _, _, rfl, hcheck, hrest⟩ := Intake.accepts_bind.1 h
  obtain ⟨rfl, -⟩ := Intake.accepts_ofExcept.1 hcheck
  obtain ⟨front, _, _, rfl, hitems, hdone⟩ := Intake.accepts_bind.1 hrest
  obtain ⟨rfl, htext⟩ := Intake.accepts_ofExcept.1 hdone
  obtain ⟨items, hdecoded, rfl⟩ := Intake.accepts_bimap.1 hitems
  have hzeros : List.replicate current (Value.ofByte 0) =
      (Bytes.zeros current).map Value.ofByte := List.map_replicate.symm
  rw [hzeros] at hdecoded
  have hreused := reused_decodeItems hchild hdirect (natural_of_bytes _)
    (spans_bytes hdirect hnumeric _) hdecoded
  have hcount := length_of_accepts_decodeItems hdecoded
  have hsize := utf8ByteSize_of_textOfBytes htext
  have hbytes := List.length_filterMap_le Value.byte? items
  rw [List.length_map, Bytes.length_zeros] at hcount
  rw [List.nil_append, List.append_nil, hreused.length_eq, Extent.size_sum_replicate,
    Bytes.length_zeros]
  exact ⟨rfl, hsize.trans (hbytes.trans hcount.le)⟩

end elements

/-- The field at `index` takes so much: nothing if it is not visited, else what its value takes by
the plan of a tag without lengths. -/
def FieldSpans (layout : Layout) (values : List Value) (index : Nat) (extent : Extent) : Prop :=
  match layout.visitedTag? index with
  | none => extent = 0
  | some tag => tag.IsImplicit ∧
      ∀ value, values[index]? = some value → Value.Spans (tag.planOf value) value extent

namespace FieldSpans

variable {layout : Layout} {values values' : List Value} {index : Nat} {extent : Extent} {tag : Tag}

/-- A field that is not visited takes nothing. -/
theorem eq_zero (h : FieldSpans layout values index extent)
    (hunvisited : layout.visitedTag? index = none) : extent = 0 := by
  unfold FieldSpans at h
  rw [hunvisited] at h
  exact h

/-- A visited field has a tag without lengths and takes what its value does. -/
theorem of_visited (h : FieldSpans layout values index extent)
    (htag : layout.visitedTag? index = some tag) : tag.IsImplicit ∧
      ∀ value, values[index]? = some value → Value.Spans (tag.planOf value) value extent := by
  unfold FieldSpans at h
  rw [htag] at h
  exact h

/-- What a field takes depends on its own value only. -/
theorem congr (hsame : values'[index]? = values[index]?)
    (h : FieldSpans layout values index extent) : FieldSpans layout values' index extent := by
  unfold FieldSpans at h ⊢
  rw [hsame]
  exact h

end FieldSpans

section fields

variable {schema : Schema} {settings : Settings} {child : Option ChildDecoder} {path : Path}
  {layout : Layout} {index : Nat} {values result : List Value} {bytes : Bytes}

/-- Private and ignored fields are not visited. -/
theorem visitedTag?_eq_none {field : FieldLayout} (hfield : layout.fields[index]? = some field)
    (h : field.exported = true → ∀ tag, field.tag = .ok tag → tag.wire = some .ignore) :
    layout.visitedTag? index = none := by
  obtain ⟨name, exported, tag⟩ := field
  unfold Layout.visitedTag?
  rw [hfield]
  cases exported with
  | false => rfl
  | true =>
      cases tag with
      | error error => rfl
      | ok tag => exact if_pos (h rfl tag rfl)

/-- A field takes as many bytes as its extent says, and does not grow. -/
theorem reused_decodeField (hchild : ChildReuses child) {field : FieldLayout} {extent : Extent}
    (hfield : layout.fields[index]? = some field) (hspans : FieldSpans layout values index extent)
    (h : (decodeField child path ⟨layout, values⟩ index field).Accepts bytes result) :
    bytes.length = extent.size ∧
      ∃ extent', FieldSpans layout result index extent' ∧ extent.Shrinks extent' := by
  rcases accepts_decodeField_iff.1 h with
    ⟨hprivate, rfl, rfl⟩ |
      ⟨decode, tag, hdecode, hexported, htag, ⟨hignore, rfl, rfl⟩ | ⟨hcoded, hvalue⟩⟩
  · have hnone := visitedTag?_eq_none hfield fun hexported => by
      rw [hprivate] at hexported
      cases hexported
    obtain rfl := hspans.eq_zero hnone
    exact ⟨rfl, 0, hspans, .refl 0⟩
  · have hnone := visitedTag?_eq_none hfield fun _ tag' htag' => by
      cases htag.symm.trans htag'
      exact hignore
    obtain rfl := hspans.eq_zero hnone
    exact ⟨rfl, 0, hspans, .refl 0⟩
  · obtain ⟨value, plan, decoded, hvalue, hplan, hown, rfl⟩ := hvalue
    have hvisited := Layout.visitedTag?_eq_some hfield hexported htag hcoded
    obtain ⟨himplicit, hspans⟩ := hspans.of_visited hvisited
    obtain rfl := himplicit.plan_eq hplan
    have hreused := hchild decode hdecode (hspans value hvalue) hown
    obtain ⟨extent', hspans', hshrinks⟩ := hreused.spans
    refine ⟨hreused.length_eq, extent', ?_, hshrinks⟩
    unfold FieldSpans
    rw [hvisited]
    refine ⟨himplicit, ?_⟩
    intro value' hvalue'
    obtain ⟨hinside, -⟩ := List.getElem?_eq_some_iff.1 hvalue
    cases (List.getElem?_set_self hinside).symm.trans hvalue'
    rw [tag.planOf_congr hreused.natural_eq]
    exact hspans'

/-- The fields of a record are reused one after the other. -/
theorem reused_decodeFields (hchild : ChildReuses child) {rest : List FieldLayout}
    {extents : List Extent} (hrest : layout.fields.drop index = rest)
    (hlength : extents.length = rest.length)
    (hspans : ∀ (offset : Nat) extent, extents[offset]? = some extent →
      FieldSpans layout values (index + offset) extent)
    (h : (decodeFields child path layout index rest values).Accepts bytes result) :
    bytes.length = extents.sum.size ∧
      ∃ extents', List.Forall₂ Extent.Shrinks extents extents' ∧
        ∀ (offset : Nat) extent, extents'[offset]? = some extent →
          FieldSpans layout result (index + offset) extent := by
  -- The fields behind the first one are as they were when it is decoded, and it stays as it is
  -- then.
  induction rest generalizing index extents values bytes with
  | nil =>
      obtain rfl := List.eq_nil_of_length_eq_zero hlength
      obtain ⟨rfl, rfl⟩ := h
      exact ⟨rfl, [], .nil, nofun⟩
  | cons field rest ih =>
      obtain ⟨extent, extents, rfl⟩ := List.exists_cons_of_length_eq_add_one hlength
      obtain ⟨hfield, hlater⟩ := Layout.fields_of_drop hrest
      rw [decodeFields, Intake.accepts_bind] at h
      obtain ⟨front, half, back, rfl, hown, hothers⟩ := h
      obtain ⟨hfront, extent', hspans', hshrinks⟩ :=
        reused_decodeField hchild hfield (hspans 0 extent rfl) hown
      have hframe (position : Nat) (hother : position ≠ index) :
          half[position]? = values[position]? :=
        getElem?_of_accepts_decodeField hown (.inl hother)
      have hbehind (offset : Nat) (extent : Extent) (hextent : extents[offset]? = some extent) :
          FieldSpans layout half (index + 1 + offset) extent := by
        have hspans' := hspans (offset + 1) extent hextent
        rw [Nat.add_comm offset 1, ← Nat.add_assoc] at hspans'
        exact hspans'.congr (hframe _ (by omega))
      obtain ⟨hback, extents', hall, hresult⟩ := ih hlater (Nat.succ.inj hlength) hbehind hothers
      refine ⟨?_, extent' :: extents', .cons hshrinks hall, ?_⟩
      · rw [List.length_append, hfront, hback, List.sum_cons]
        rfl
      · intro offset extent hextent
        cases offset with
        | zero =>
            cases hextent
            refine hspans'.congr (getElem?_of_accepts_decodeFields ?_ hothers (.inl ?_))
            · rw [hlater]
            · exact Nat.lt_succ_self _
        | succ offset =>
            have hspans' := hresult offset extent hextent
            rw [Nat.add_assoc, Nat.add_comm 1] at hspans'
            exact hspans'

end fields

section step

variable {schema : Schema} {settings : Settings} {child : Option ChildDecoder} {path : Path}
  {plan : Plan} {value result : Value} {extent : Extent} {bytes : Bytes}

/-- A string that is put into a text was decoded by the intake. -/
theorem accepts_putText {content : String} {intake : Intake Unit String}
    (h : (putText path (.text content) intake).Accepts bytes result) :
    ∃ decoded, intake.Accepts bytes decoded ∧ result = .text decoded := by
  obtain ⟨front, _, _, rfl, hintake, hput⟩ := Intake.accepts_bind.1 h
  obtain ⟨decoded, hdecoded, rfl⟩ := Intake.accepts_bimap.1 hintake
  obtain ⟨rfl, rfl⟩ := hput
  rw [List.append_nil]
  exact ⟨decoded, hdecoded, rfl⟩

/-- A value that is no array is reused if the values below it are. -/
theorem reused_decodeLeaf (hchild : ChildReuses child) (hsingle : plan.isArray = false)
    (hspans : value.Spans plan extent)
    (h : (decodeLeaf settings child path value plan).Accepts bytes result) :
    value.Reused plan extent bytes result := by
  cases hspans with
  | @scalar _ content hdirect _ hnumeric =>
      simp only [decodeLeaf, Value.target, if_pos hnumeric] at h
      obtain ⟨front, _, _, rfl, hscalar, rfl, rfl⟩ := Intake.accepts_bind.1 h
      obtain ⟨decoded, hdecoded, rfl⟩ := Intake.accepts_bimap.1 hscalar
      obtain ⟨hlength, htype⟩ := accepts_decodeScalar_type hdecoded
      rw [List.append_nil]
      refine ⟨hlength, ?_, _, .scalar hdirect hsingle hnumeric, .refl _⟩
      show Natural.single decoded.type.natural = Natural.single content.type.natural
      rw [htype]
  | @text _ content hdirect _ hwire hbuffer =>
      have htext : plan.wire.isText = true := by rw [hwire]; rfl
      simp only [decodeLeaf, Value.target, if_pos htext] at h
      obtain ⟨decoded, hdecoded, rfl⟩ := accepts_putText h
      obtain ⟨hlength, hsize⟩ := accepts_decodeText_bare hwire hbuffer hdecoded
      have hshrinks := Extent.Shrinks.text Nat.one_pos hsize
      rw [Nat.mul_one, Nat.mul_one] at hshrinks
      exact ⟨hlength, rfl, _, .text hdirect hsingle hwire hbuffer, hshrinks⟩
  | numbers _ harray => rw [hsingle] at harray; cases harray
  | sequence _ harray => rw [hsingle] at harray; cases harray
  | @record _ layout fields extents hdirect _ hwire hlength hunvisited himplicit hfields =>
      simp only [decodeLeaf, Value.target, if_pos hwire] at h
      obtain ⟨fields', hdecoded, rfl⟩ := Intake.accepts_bimap.1 h
      have hown (index : Nat) (extent : Extent) (hextent : extents[index]? = some extent) :
          FieldSpans layout fields (0 + index) extent := by
        rw [Nat.zero_add]
        unfold FieldSpans
        split
        next hnone => exact hunvisited index extent hextent hnone
        next tag htag =>
          exact ⟨himplicit index tag htag, fun value => hfields index extent tag value hextent htag⟩
      obtain ⟨hbytes, extents', hshrinks, hresult⟩ :=
        reused_decodeFields hchild List.drop_zero hlength hown hdecoded
      simp only [Nat.zero_add] at hresult
      refine ⟨hbytes, rfl, extents'.sum, ?_, .sum hshrinks⟩
      refine .record hdirect hsingle hwire (hshrinks.length_eq.symm.trans hlength) ?_ himplicit ?_
      · intro index extent' hextent hnone
        exact (hresult index extent' hextent).eq_zero hnone
      · intro index extent' tag value hextent htag
        exact ((hresult index extent' hextent).of_visited htag).2 value

/-- An array is reused if its elements are. -/
theorem reused_decodeArray (hchild : ChildReuses child) (harray : plan.isArray = true)
    (hspans : value.Spans plan extent)
    (h : (decodeArray schema settings child path value plan).Accepts bytes result) :
    value.Reused plan extent bytes result := by
  cases hspans with
  | scalar _ hsingle => rw [hsingle] at harray; cases harray
  | text _ hsingle => rw [hsingle] at harray; cases harray
  | record _ hsingle => rw [hsingle] at harray; cases harray
  | @numbers _ content hdirect _ hlength hnumeric =>
      simp only [decodeArray, Value.target, if_pos hnumeric] at h
      obtain ⟨decoded, hdecoded, rfl⟩ := accepts_putText h
      obtain ⟨hbytes, hsize⟩ :=
        accepts_decodeNumbersAsText_bare hchild hdirect hlength hnumeric hdecoded
      exact ⟨hbytes, rfl, _, .numbers hdirect harray hlength hnumeric,
        .text (WireType.byteSize_pos hnumeric) hsize⟩
  | @sequence _ kind element items extents hdirect _ hlength hnatural hcount hitems =>
      simp only [decodeArray, Value.target] at h
      split at h
      next => exact h.elim
      next =>
        obtain ⟨items', hdecoded, rfl⟩ := Intake.accepts_bimap.1 h
        obtain ⟨hsame, hreused⟩ := reused_decodeSequence hchild hdirect hlength hnatural
          (forall₂_iff_getElem?.2 ⟨hcount, hitems⟩) hdecoded
        obtain ⟨extents', hspans', hshrinks⟩ := hreused.spans
        obtain ⟨hcount', hitems'⟩ := forall₂_iff_getElem?.1 hspans'
        refine ⟨hreused.length_eq, ?_, extents'.sum, ?_, .sum hshrinks⟩
        · show Natural.sequence element.natural (some items'.length) = _
          rw [hsame]
          rfl
        · exact .sequence hdirect harray hlength hreused.natural_eq hcount' hitems'

/-- The decoder of a value reuses it if the decoder one step further down does. -/
theorem reused_decodeWith (hchild : ChildReuses child) (hspans : value.Spans plan extent)
    (h : (decodeWith schema settings child path value plan).Accepts bytes result) :
    value.Reused plan extent bytes result := by
  have hdirect : plan.IsDirect := by cases hspans <;> assumption
  rw [hdirect.decodeWith_eq] at h
  split at h
  next harray => exact reused_decodeArray hchild harray hspans h
  next hsingle => exact reused_decodeLeaf hchild (Bool.eq_false_of_not_eq_true hsingle) hspans h

/-- However much room there is, the decoder one step further down reuses its destinations. -/
theorem reuses_below (schema : Schema) (settings : Settings) (room : Nat) :
    ChildReuses (decodeBelow schema settings room) := by
  induction room with
  | zero => exact nofun
  | succ room ih =>
      rintro _ ⟨⟩ path plan value extent bytes result hspans h
      rw [decodeIn_eq] at h
      exact reused_decodeWith ih hspans h

end step

namespace Decoder

/-- A value that was decoded from any source accepts as many bytes as were consumed. -/
theorem accepts_of_decodeAs_ok {decoder : Decoder} {tag : Tag} {value left : Value} {count : Nat}
    (h : (decoder.decodeAs tag value).1 = ⟨left, .ok count⟩) :
    ∃ bytes, bytes.length = count ∧
      (decodeTagged decoder.schema decoder.settings tag value).Accepts bytes left := by
  simp only [decodeAs] at h
  split at h
  next result source hsupply =>
    obtain ⟨bytes, hposition, haccepts⟩ := Source.accepts_of_supply_ok hsupply
    cases h
    refine ⟨bytes, ?_, haccepts⟩
    rw [position, hposition, Nat.add_sub_cancel_left]
  next => cases h

/-- A value that was decoded into has taken the bytes that it spans, and spans as many again unless
a string of it got shorter. -/
theorem reused_of_decodeAs {decoder : Decoder} {tag : Tag} {plan : Plan} {value left : Value}
    {extent : Extent} {count : Nat} (hplan : Plan.resolve .top value tag none = .ok plan)
    (hspans : value.Spans plan extent)
    (h : (decoder.decodeAs tag value).1 = ⟨left, .ok count⟩) :
    count = extent.size ∧ Plan.resolve .top left tag none = .ok plan ∧
      ∃ extent', left.Spans plan extent' ∧ extent.Shrinks extent' := by
  obtain ⟨bytes, hbytes, haccepts⟩ := accepts_of_decodeAs_ok h
  rw [decodeTagged, hplan] at haccepts
  change (decodeIn _ _ _ _ value plan).Accepts bytes left at haccepts
  rw [decodeIn_eq] at haccepts
  have hreused := reused_decodeWith (reuses_below _ _ _) hspans haccepts
  have hnatural : left.natural.unsized = value.natural.unsized := by rw [hreused.natural_eq]
  exact ⟨hbytes.symm.trans hreused.length_eq, Plan.resolve_of_natural hnatural hplan, hreused.spans⟩

/-- The second of two decodings into one value takes no more bytes than the first one. It takes as
many if and only if the first one left every string as long as it was. -/
theorem decodeAs_again {first second : Decoder} {tag : Tag} {plan : Plan}
    {value left left' : Value} {extent : Extent} {count count' : Nat}
    (hplan : Plan.resolve .top value tag none = .ok plan) (hspans : value.Spans plan extent)
    (hfirst : (first.decodeAs tag value).1 = ⟨left, .ok count⟩)
    (hsecond : (second.decodeAs tag left).1 = ⟨left', .ok count'⟩) :
    count = extent.size ∧ ∃ texts, left.Spans plan ⟨count', texts⟩ ∧
      List.Forall₂ (· ≤ ·) texts extent.texts ∧ count' ≤ count ∧
      (count' = count ↔ texts = extent.texts) := by
  obtain ⟨rfl, hplan', extent', hspans', hshrinks⟩ := reused_of_decodeAs hplan hspans hfirst
  obtain ⟨rfl, -⟩ := reused_of_decodeAs hplan' hspans' hsecond
  exact ⟨rfl, extent'.texts, hspans', hshrinks.texts_le, hshrinks.size_le, hshrinks.size_eq_iff⟩

/-- Decodings into one value with a tag, one after the other, and the bytes that each one took. -/
inductive Refills (tag : Tag) : (value : Value) → (counts : List Nat) → (left : Value) → Prop where
  | nil {value : Value} : Refills tag value [] value
  | cons {decoder : Decoder} {value middle left : Value} {count : Nat} {counts : List Nat} :
      (decoder.decodeAs tag value).1 = ⟨middle, .ok count⟩ → Refills tag middle counts left →
      Refills tag value (count :: counts) left

/-- No decoding into one value takes more bytes than an earlier one. -/
theorem Refills.sizes_le {tag : Tag} {plan : Plan} {value left : Value} {extent : Extent}
    {counts : List Nat} (hplan : Plan.resolve .top value tag none = .ok plan)
    (hspans : value.Spans plan extent) (h : Refills tag value counts left) :
    (∀ count ∈ counts, count ≤ extent.size) ∧ counts.Pairwise fun count later => later ≤ count := by
  induction h generalizing extent with
  | nil => exact ⟨nofun, .nil⟩
  | @cons _ _ _ _ _ counts hdecode _ ih =>
      obtain ⟨rfl, hplan', extent', hspans', hshrinks⟩ := reused_of_decodeAs hplan hspans hdecode
      obtain ⟨hcounts, hpairs⟩ := ih hplan' hspans'
      have hlater : ∀ later ∈ counts, later ≤ extent.size :=
        fun later hmem => (hcounts later hmem).trans hshrinks.size_le
      exact ⟨List.forall_mem_cons.2 ⟨Nat.le_refl _, hlater⟩, .cons hlater hpairs⟩

end Decoder

section tape

/-- The layout of a tape with a title, codes as 16-bit numbers and levels. -/
def tapeLayout : Layout :=
  .build "Tape" [⟨"title", "", true⟩, ⟨"codes", "[]int16", true⟩, ⟨"levels", "", true⟩]

/-- A tape. -/
def tape (title codes : String) (levels : Bytes) : Value :=
  .record tapeLayout [.text title, .text codes, .sequence .growable .byte (levels.map .ofByte)]

/-- A decoder of so many bytes. -/
def tapeDecoder (data : Bytes) : Decoder := ⟨[], ⟨.bigEndian, {}, .empty⟩, .ofData data, 0⟩

/-- A tape has three fields. -/
theorem length_fields_tapeLayout : tapeLayout.fields.length = 3 := by cbv

/-- The fields of a tape are all visited, the codes as an array without a length. -/
theorem visitedTag?_tapeLayout :
    tapeLayout.visitedTag? 0 = some .empty ∧
    tapeLayout.visitedTag? 1 = some ⟨some .int16, .blank, none, none⟩ ∧
    tapeLayout.visitedTag? 2 = some .empty := by
  refine ⟨?_, ?_, ?_⟩
  all_goals cbv

/-- A visited field of a tape is one of its three. -/
theorem visitedTag?_tapeLayout_eq_some {index : Nat} {tag : Tag}
    (h : tapeLayout.visitedTag? index = some tag) :
    (index = 0 ∧ tag = .empty) ∨ (index = 1 ∧ tag = ⟨some .int16, .blank, none, none⟩) ∨
      (index = 2 ∧ tag = .empty) := by
  obtain ⟨htitle, hcodes, hlevels⟩ := visitedTag?_tapeLayout
  match index with
  | 0 => exact .inl ⟨rfl, Option.some.inj (h.symm.trans htitle)⟩
  | 1 => exact .inr (.inl ⟨rfl, Option.some.inj (h.symm.trans hcodes)⟩)
  | 2 => exact .inr (.inr ⟨rfl, Option.some.inj (h.symm.trans hlevels)⟩)
  | index + 3 =>
      unfold Layout.visitedTag? at h
      rw [List.getElem?_eq_none (by rw [length_fields_tapeLayout]; omega)] at h
      cases h

/-- A tape of three letters, two codes and two levels takes nine bytes. -/
theorem spans_tape :
    (tape "xyz" "pq" [0, 0]).Spans (Plan.untagged (.record "Tape")) ⟨9, [3, 2]⟩ := by
  obtain ⟨htitle, hcodes, hlevels⟩ := visitedTag?_tapeLayout
  let extents : List Extent := [⟨3, [3]⟩, ⟨4, [2]⟩, ⟨2, []⟩]
  show Value.Spans _ _ extents.sum
  refine .record ⟨nofun, nofun, rfl⟩ rfl rfl length_fields_tapeLayout.symm ?_ ?_ ?_
  · intro index extent hextent hunvisited
    match index with
    | 0 => cases htitle.symm.trans hunvisited
    | 1 => cases hcodes.symm.trans hunvisited
    | 2 => cases hlevels.symm.trans hunvisited
    | index + 3 => cases hextent
  · intro index tag htag
    rcases visitedTag?_tapeLayout_eq_some htag with ⟨-, rfl⟩ | ⟨-, rfl⟩ | ⟨-, rfl⟩
    all_goals exact ⟨nofun, rfl⟩
  · intro index extent tag value hextent htag hvalue
    rcases visitedTag?_tapeLayout_eq_some htag with ⟨rfl, rfl⟩ | ⟨rfl, rfl⟩ | ⟨rfl, rfl⟩
    · cases hextent
      cases hvalue
      exact .text ⟨nofun, nofun, rfl⟩ rfl rfl rfl
    · cases hextent
      cases hvalue
      exact .numbers ⟨nofun, nofun, rfl⟩ rfl rfl rfl
    · cases hextent
      cases hvalue
      have hdirect : (Tag.empty.planOf (.sequence .growable .byte [])).IsDirect :=
        ⟨nofun, nofun, rfl⟩
      obtain ⟨hcount, hitems⟩ := forall₂_iff_getElem?.1 (spans_bytes hdirect rfl [0, 0])
      exact .sequence hdirect rfl rfl (natural_of_bytes [0, 0]) hcount hitems

/-- A tape whose title and codes end in zeros takes three bytes less the next time. -/
theorem decodeAs_again_tape :
    ((tapeDecoder [97, 98, 0, 0, 99, 0, 0, 1, 2]).decodeAs .empty (tape "xyz" "pq" [0, 0])).1 =
      ⟨tape "ab" "c" [1, 2], .ok 9⟩ ∧
    ((tapeDecoder [100, 101, 0, 102, 3, 4]).decodeAs .empty (tape "ab" "c" [1, 2])).1 =
      ⟨tape "de" "f" [3, 4], .ok 6⟩ ∧
    ∃ texts, (tape "ab" "c" [1, 2]).Spans (Plan.untagged (.record "Tape")) ⟨6, texts⟩ ∧
      List.Forall₂ (· ≤ ·) texts [3, 2] := by
  have hfirst : ((tapeDecoder [97, 98, 0, 0, 99, 0, 0, 1, 2]).decodeAs .empty
      (tape "xyz" "pq" [0, 0])).1 = ⟨tape "ab" "c" [1, 2], .ok 9⟩ := by cbv
  have hsecond : ((tapeDecoder [100, 101, 0, 102, 3, 4]).decodeAs .empty
      (tape "ab" "c" [1, 2])).1 = ⟨tape "de" "f" [3, 4], .ok 6⟩ := by cbv
  obtain ⟨-, texts, hspans, htexts, -⟩ := Decoder.decodeAs_again rfl spans_tape hfirst hsecond
  exact ⟨hfirst, hsecond, texts, hspans, htexts⟩

/-- A bare string of three bytes that is read with a zero at its end takes two bytes after that. -/
theorem decode_shrunk_text :
    ((tapeDecoder [97, 98, 0]).decode (.text "xyz")).1 = ⟨.text "ab", .ok 3⟩ ∧
    ((tapeDecoder [97, 98, 99]).decode (.text "ab")).1 = ⟨.text "ab", .ok 2⟩ := by
  constructor
  all_goals cbv

end tape

end PackedRecord
