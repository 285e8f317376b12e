import PackedRecord.Proofs.ScalarRoundTrip
import PackedRecord.Proofs.SurplusSlots

/-!
# Single values as arrays

A scalar or a string that a tag makes an array of is the first element of that array.
`single_as_vector` says that this is what a vector with one element comes to: both are encoded
alike, and the value takes from the input what an empty vector takes, and becomes its first element.
The two go different ways. Bytes of a vector are written and read at once, a single value as an
element one step further down, so that an error that the sink gives has another place.
-/

namespace PackedRecord

section bytes

variable {settings : Settings} {path : Path} {plan : Plan}

/-- A byte is its own image under the two wire types for bytes. -/
theorem Scalar.toImage_ofByte {wire : WireType} (hwire : wire = .byte ∨ wire = .uint8)
    (byte : UInt8) :
    ∃ image, (Scalar.ofByte byte).toImage wire = .ok image ∧ image.toNat = byte.toNat := by
  have hlt := byte.toNat_lt
  have himage : (imageOfInt byte.toNat).toNat = byte.toNat := by
    rw [imageOfInt, UInt64.toNat_ofNat']
    omega
  refine ⟨imageOfInt byte.toNat, ?_, himage⟩
  obtain rfl | rfl := hwire
  · have hlow : (byte.toNat : Int) % 256 ^ 1 = byte.toNat := by omega
    show Except.ok (imageOfInt ((byte.toNat : Int) % 256 ^ 1)) = _
    rw [hlow]
  · have hinside : (0 : Int) ≤ byte.toNat ∧ (byte.toNat : Int) ≤ 2 ^ 8 - 1 := by omega
    exact if_pos hinside

/-- The image of a byte is written as that byte, in either order. -/
theorem emitImage_byte (settings : Settings) (path : Path) {image : UInt64} {byte : UInt8}
    (h : image.toNat = byte.toNat) :
    emitImage settings path 1 image = .write path (.data [byte]) := by
  have hbyte : settings.order.toNat [byte] = byte.toNat := by
    cases settings.order <;> simp [ByteOrder.toNat, Bytes.toNat]
  have hbytes := settings.order.bytes_toNat [byte]
  rw [hbyte, ← h] at hbytes
  rw [emitImage, ByteOrder.put, if_pos (by decide)]
  exact congrArg (fun bytes => Emission.write path (.data bytes)) hbytes

/-- A byte that is coded as a byte is that byte. -/
theorem encodeIn_byte (hdirect : plan.IsDirect) (hsingle : plan.isArray = false)
    (hwire : plan.wire = .byte ∨ plan.wire = .uint8) (room : Nat) (byte : UInt8) :
    encodeIn settings room path (.ofByte byte) plan = .write path (.data [byte]) := by
  obtain ⟨image, himage, hvalue⟩ := Scalar.toImage_ofByte hwire byte
  obtain ⟨hnumeric, hsize⟩ := WireType.size_of_bulk hwire
  rw [encodeIn_eq, hdirect.encodeWith_eq, hsingle, ← emitImage_byte settings path hvalue]
  simp only [encodeLeaf, Value.ofByte, Value.target, if_pos hnumeric, himage, hsize,
    Bool.false_eq_true, if_false]

/-- A byte is read into a scalar byte as it is, whatever that held before. -/
theorem accepts_decodeIn_byte (schema : Schema) (hdirect : plan.IsDirect)
    (hsingle : plan.isArray = false) (hwire : plan.wire = .byte ∨ plan.wire = .uint8) (room : Nat)
    (byte byte' : UInt8) :
    (decodeIn schema settings room path (.ofByte byte') plan).Accepts [byte] (.ofByte byte) := by
  obtain ⟨image, himage, hvalue⟩ := Scalar.toImage_ofByte hwire byte
  obtain ⟨hnumeric, hsize⟩ := WireType.size_of_bulk hwire
  have hyields : (emitImage settings path plan.wire.byteSize image).Yields [byte] () := by
    rw [hsize, emitImage_byte settings path hvalue]
    exact Emission.yields_write.2 rfl
  have hexact : (Scalar.ofByte byte).type.isExactAs plan.wire = true := by
    obtain hwire | hwire := hwire <;> rw [hwire] <;> rfl
  have hscalar := accepts_decodeScalar path hexact himage hyields
  rw [decodeIn_eq, hdirect.decodeWith_eq, hsingle]
  show (if plan.wire.isNumeric then _ else _ : Intake Value Value).Accepts _ _
  rw [if_pos hnumeric]
  exact (hscalar.leaving _).bind_done ⟨rfl, rfl⟩

end bytes

/-- The value is a scalar that the tag leaves one, or a string that the tag leaves one, of the type
that comes first. -/
inductive Value.IsSlot (tagged : Option WireType) : HostType → Value → Prop where
  | scalar {type : ScalarType} {content : Scalar} (htype : content.type = type)
      (hwire : ∀ wire, tagged = some wire → wire.isNumeric = true) :
      IsSlot tagged (.scalar type) (.scalar content)
  | text {content : String} (hwire : ∀ wire, tagged = some wire → wire.isText = true) :
      IsSlot tagged .text (.text content)

namespace Value.IsSlot

variable {tag : Tag} {element : HostType} {value : Value} {path : Path} {record : Option Record}
  {expr : SizeExpr} {plan : Plan}

/-- The default of the type of a slot is a slot under the same tag. -/
theorem default (schema : Schema) (h : value.IsSlot tag.wire element) :
    (schema.default element).IsSlot tag.wire element := by
  cases h with
  | scalar htype hwire => exact .scalar (Scalar.type_zero _) hwire
  | text hwire => exact .text hwire

/-- The type of a slot has no records in it. -/
theorem steady (schema : Schema) (h : value.IsSlot tag.wire element) : element.Steady schema := by
  intro key hoccurs
  cases h <;> cases hoccurs

/-- A slot has the natural coding of its type. -/
theorem natural_eq (h : value.IsSlot tag.wire element) : value.natural = element.natural := by
  cases h with
  | scalar htype hwire =>
      rw [← htype]
      rfl
  | text => rfl

/-- A vector of such values has the plan of one of them. -/
theorem resolve_sequence (h : value.IsSlot tag.wire element)
    (hbrackets : tag.brackets = .length expr)
    (kind : SequenceKind) (items : List Value) :
    Plan.resolve path (.sequence kind element items) tag record =
      Plan.resolve path value tag record := by
  have hwire : Plan.resolveWire path (.sequence kind element items) tag.wire =
      Plan.resolveWire path value tag.wire := by
    unfold Plan.resolveWire
    rw [h.natural_eq]
    cases h <;> (cases tag.wire with
      | none => rfl
      | some wire => cases wire <;> rfl)
  have hindirection : (sequence kind element items).natural.indirection =
      value.natural.indirection := by
    rw [h.natural_eq]
    cases h <;> rfl
  simp only [Plan.resolve, hwire, hbrackets, Plan.resolveArray, hindirection]

/-- The wire type of the plan, and what it does to the value. -/
theorem wire_of_resolve (h : value.IsSlot tag.wire element)
    (hplan : Plan.resolve path value tag record = .ok plan) :
    (∃ content, value = .scalar content) ∧ plan.wire.isNumeric = true ∨
      (∃ content, value = .text content) ∧ plan.wire.isText = true := by
  have hof := Plan.wire_of_resolveWire (Plan.parts_of_resolve hplan).1
  cases h with
  | @scalar type content htype hwire =>
      refine .inl ⟨⟨content, rfl⟩, ?_⟩
      rw [hof]
      cases htag : tag.wire with
      | none =>
          show content.type.natural.isNumeric = true
          cases content.type with
          | int type => cases type <;> rfl
          | bool | f32 | f64 => rfl
      | some wire => exact hwire wire htag
  | @text content hwire =>
      refine .inr ⟨⟨content, rfl⟩, ?_⟩
      rw [hof]
      cases htag : tag.wire with
      | none => rfl
      | some wire => exact hwire wire htag

/-- A slot stands behind no reference. -/
theorem isDirect (h : value.IsSlot tag.wire element)
    (hplan : Plan.resolve path value tag record = .ok plan) : plan.IsDirect := by
  have hwire := h.wire_of_resolve hplan
  refine ⟨?_, ?_, ?_⟩
  · rintro hpad
    simp [hpad, WireType.isNumeric, WireType.isText, WireType.kind] at hwire
  · rintro hignore
    simp [hignore, WireType.isNumeric, WireType.isText, WireType.kind] at hwire
  · rw [(Plan.parts_of_resolve hplan).2.2.2.1, h.natural_eq]
    cases h <;> rfl

/-- The tag of a slot makes it neither padding nor an ignored value. -/
theorem not_skipped (h : value.IsSlot tag.wire element) :
    tag.wire ≠ some .pad ∧ tag.wire ≠ some .ignore := by
  cases h with
  | scalar htype hwire | text hwire =>
      constructor
      · intro hpad
        cases hwire _ hpad
      · intro hignore
        cases hwire _ hignore

/-- As an array, the value is its only element. -/
theorem elements_of (h : value.IsSlot tag.wire element)
    (hplan : Plan.resolve path value tag record = .ok plan) :
    Elements.of path value plan.wire = .ok ⟨[value], none, element.natural⟩ := by
  rw [← h.natural_eq]
  obtain ⟨⟨content, rfl⟩, -⟩ | ⟨⟨content, rfl⟩, htext⟩ := h.wire_of_resolve hplan
  · rfl
  · refine if_neg fun hnumeric => ?_
    rw [WireType.isText_of_isNumeric hnumeric] at htext
    cases htext

/-- Only a byte is written at once. -/
theorem eq_of_bytes {bytes : Bytes} (h : value.IsSlot tag.wire element)
    (hbytes : Value.bytes? element [value] = some bytes) :
    ∃ byte, value = .ofByte byte ∧ bytes = [byte] := by
  unfold Value.bytes? at hbytes
  split at hbytes
  next hbyte =>
    cases hbyte
    cases h with
    | scalar htype hwire =>
        obtain ⟨byte, hvalue⟩ := exists_ofByte htype
        have hone : (Value.ofByte byte).byte? = some byte := Scalar.byte?_ofByte byte
        rw [hvalue, List.mapM_cons, hone] at hbytes
        cases hbytes
        exact ⟨byte, hvalue, rfl⟩
  next => cases hbytes

end Value.IsSlot

/-- The error without its place. -/
def Error.unplaced : Error → Error
  | .located _ fault => .located .top fault
  | error => error

/-- Both write the same, if on behalf of other values, and end in the same way. -/
structure Emission.Relocates {α : Type} (emission emission' : Emission α) : Prop where
  chunks_eq : emission'.writes.map Write.chunk = emission.writes.map Write.chunk
  outcome_eq : emission'.outcome = emission.outcome

namespace Emission.Relocates

variable {α β : Type} {emission emission' : Emission α}

/-- An emission relocates to itself. -/
theorem refl (emission : Emission α) : emission.Relocates emission := ⟨rfl, rfl⟩

/-- What follows two emissions that differ in places only leaves them so. -/
theorem bind (h : emission.Relocates emission') (following : α → Emission β) :
    (emission >>= following).Relocates (emission' >>= following) := by
  obtain ⟨writes, outcome⟩ := emission
  obtain ⟨writes', outcome'⟩ := emission'
  obtain ⟨hchunks, houtcome⟩ := h
  cases (houtcome : outcome' = outcome)
  cases outcome with
  | error error => exact ⟨hchunks, rfl⟩
  | ok result =>
      refine ⟨?_, rfl⟩
      show (writes' ++ (following result).writes).map Write.chunk =
        (writes ++ (following result).writes).map Write.chunk
      rw [List.map_append, List.map_append]
      exact congrArg (· ++ _) hchunks

/-- Two emissions that differ in places only have one size. -/
theorem sized (h : emission.Relocates emission') : emission.sized.Relocates emission'.sized := by
  refine ⟨h.chunks_eq, ?_⟩
  have hsize : emission'.size = emission.size := by
    have hsizes := congrArg (List.map Chunk.size) h.chunks_eq
    rw [List.map_map, List.map_map] at hsizes
    exact congrArg List.sum hsizes
  show emission'.outcome.map _ = emission.outcome.map _
  rw [h.outcome_eq, hsize]

end Emission.Relocates

/-- A sink takes the same whatever it is for. -/
theorem Sink.absorb_of_chunks {writes writes' : List Write}
    (h : writes'.map Write.chunk = writes.map Write.chunk) (sink : Sink) :
    (sink.absorb writes').2 = (sink.absorb writes).2 ∧
      (sink.absorb writes').1.mapError Error.unplaced =
        (sink.absorb writes).1.mapError Error.unplaced := by
  induction writes generalizing writes' sink with
  | nil =>
      cases List.map_eq_nil_iff.1 h
      exact ⟨rfl, rfl⟩
  | cons write writes ih =>
      obtain ⟨write', rest, rfl, hchunk, hrest⟩ := List.map_eq_cons_iff.1 h
      unfold Sink.absorb
      rw [hchunk]
      cases hwrite : sink.write write.chunk with
      | mk result after =>
          cases result with
          | error fault => exact ⟨rfl, rfl⟩
          | ok => exact ih hrest after

/-- Emissions that differ in places only leave the encoder alike and give errors that differ in
places only. -/
theorem Encoder.run_of_relocates {α : Type} {emission emission' : Emission α}
    (h : emission.Relocates emission') (encoder : Encoder) :
    (encoder.run emission').2 = (encoder.run emission).2 ∧
      (encoder.run emission').1.mapError Error.unplaced =
        (encoder.run emission).1.mapError Error.unplaced := by
  obtain ⟨hsink, hresult⟩ := Sink.absorb_of_chunks h.chunks_eq encoder.sink
  unfold run
  rw [h.outcome_eq]
  generalize encoder.sink.absorb emission.writes = taken,
    encoder.sink.absorb emission'.writes = taken' at hsink hresult
  obtain ⟨result, sink⟩ := taken
  obtain ⟨result', sink'⟩ := taken'
  cases (hsink : sink' = sink)
  cases result with
  | ok =>
      cases result' with
      | ok => exact ⟨rfl, rfl⟩
      | error => cases hresult
  | error fault =>
      cases result' with
      | ok => cases hresult
      | error fault' => exact ⟨rfl, congrArg Except.error (Except.error.inj hresult)⟩

section encoding

variable {settings : Settings} {room : Nat} {path : Path} {record : Option Record} {tag : Tag}
  {expr : SizeExpr} {element : HostType} {value : Value} {plan : Plan}

/-- A single byte is written as an element one step further down. -/
theorem encodeElements_byte (hdirect : plan.IsDirect)
    (hwire : plan.wire = .byte ∨ plan.wire = .uint8) (byte : UInt8) :
    encodeElements (encodeBelow settings (room + 1)) path plan 0 none [.ofByte byte] =
      ⟨[⟨.index 0 :: path, .data [byte]⟩], .ok (some 1)⟩ := by
  have hplan : plan.element (.index 0 :: path) (.ofByte byte) = .ok (plan.ofElement .byte) :=
    Plan.element_eq hdirect.not_pad hdirect.not_ignore rfl nofun
  obtain ⟨hitem, hsingle, hsame⟩ :=
    Plan.ofElement_byte hdirect (WireType.size_of_bulk hwire).1
  have hbyte : encodeIn settings room (.index 0 :: path) (.ofByte byte) (plan.ofElement .byte) =
      .write (.index 0 :: path) (.data [byte]) :=
    encodeIn_byte hitem hsingle (hsame ▸ hwire) room byte
  simp only [encodeElements, encodeBelow, descend, Emission.pure_eq, Emission.ofExcept_ok_bind,
    hplan, hbyte]
  rfl

/-- Whether it stands alone or in a vector, the value is encoded to the same. -/
theorem relocates_encodeArray (hslot : value.IsSlot tag.wire element)
    (hplan : Plan.resolve path value tag record = .ok plan) :
    (encodeArray (encodeBelow settings (room + 1)) path value plan).Relocates
      (encodeArray (encodeBelow settings (room + 1)) path (.sequence .growable element [value])
        plan) := by
  have hdirect := hslot.isDirect hplan
  have hitems : (encodeItems (encodeBelow settings (room + 1)) path plan
        ⟨[value], none, element.natural⟩).Relocates
      (encodeItems (encodeBelow settings (room + 1)) path plan
        ⟨[value], Value.bytes? element [value], element.natural⟩) := by
    unfold encodeItems
    cases hbytes : Value.bytes? element [value] with
    | none => exact .refl _
    | some bytes =>
        simp only
        split
        next hwire =>
          obtain ⟨byte, rfl, rfl⟩ := hslot.eq_of_bytes hbytes
          rw [encodeElements_byte hdirect hwire]
          exact ⟨rfl, rfl⟩
        next => exact .refl _
  have hvector : Elements.of path (.sequence .growable element [value]) plan.wire =
      .ok ⟨[value], Value.bytes? element [value], element.natural⟩ := rfl
  rw [encodeArray_eq, encodeArray_eq, hslot.elements_of hplan, hvector, Emission.ofExcept_ok_bind,
    Emission.ofExcept_ok_bind]
  simp only
  split
  · exact .refl _
  · exact hitems.bind _

/-- A slot is encoded as the vector that has it as its only element, up to the places of the
writes. -/
theorem relocates_encodeAt (hslot : value.IsSlot tag.wire element)
    (hbrackets : tag.brackets = .length expr) (hdepth : path.depth < settings.limits.recursion) :
    (encodeAt settings path record tag value).Relocates
      (encodeAt settings path record tag (.sequence .growable element [value])) := by
  unfold encodeAt
  rw [hslot.resolve_sequence hbrackets]
  cases hplan : Plan.resolve path value tag record with
  | error error => exact .refl _
  | ok plan =>
      have hdirect := hslot.isDirect hplan
      have harray := (Plan.eval_of_resolve_length hplan hbrackets).1
      obtain ⟨room, hroom⟩ := Limits.exists_room hdepth
      rw [Emission.ofExcept_ok_bind, Emission.ofExcept_ok_bind, encodeValue, encodeValue, hroom,
        encodeIn_eq, hdirect.encodeWith_eq, hdirect.encodeWith_eq, if_pos harray, if_pos harray]
      exact relocates_encodeArray hslot hplan

end encoding

section decoding

variable {schema : Schema} {settings : Settings} {room : Nat} {path : Path} {record : Option Record}
  {tag : Tag} {expr : SizeExpr} {element : HostType} {value fresh left : Value} {plan : Plan}
  {bytes : Bytes}

/-- The first element of an array, as one of its elements. -/
theorem accepts_decodeElement_of_items (hdirect : plan.IsDirect) {item : Value}
    (h : (decodeItems (decodeBelow schema settings (room + 1)) path plan element
      [schema.default element]).Accepts bytes [item]) :
    (decodeElement (decodeBelow schema settings (room + 1)) path plan 0
      (schema.default element)).Accepts bytes item := by
  unfold decodeItems at h
  split at h
  next hbulk =>
    obtain ⟨rfl, hwire⟩ := hbulk
    obtain ⟨data, _, rfl, hcount, rfl, hitem⟩ := h
    obtain ⟨byte, rfl⟩ := List.length_eq_one_iff.1 hcount
    cases hitem
    have hplan : plan.element (.index 0 :: path) (schema.default .byte) =
        .ok (plan.ofElement .byte) :=
      Plan.element_eq hdirect.not_pad hdirect.not_ignore rfl nofun
    obtain ⟨hitem, hsingle, hsame⟩ :=
      Plan.ofElement_byte hdirect (WireType.size_of_bulk hwire).1
    refine accepts_decodeElement rfl hplan ?_
    exact accepts_decodeIn_byte schema hitem hsingle (hsame ▸ hwire) room byte 0
  next =>
    obtain ⟨front, item', back, rfl, hfront, hback⟩ := accepts_decodeElements_cons.1 h
    obtain ⟨rfl, hresult⟩ := hback
    cases hresult
    rwa [List.append_nil]

/-- An array is decoded into a slot as into a value that is no sequence. -/
theorem decodeArray_slot (hslot : value.IsSlot tag.wire element)
    (hplan : Plan.resolve path value tag record = .ok plan) (child : Option ChildDecoder) :
    decodeArray schema settings child path value plan = decodeSingle child path value plan := by
  obtain ⟨⟨content, rfl⟩, -⟩ | ⟨⟨content, rfl⟩, htext⟩ := hslot.wire_of_resolve hplan
  · rfl
  · refine if_neg fun hnumeric => ?_
    rw [WireType.isText_of_isNumeric hnumeric] at htext
    cases htext

/-- What an empty vector is decoded from, a single value is decoded from as well, if there is at
least one element. -/
theorem accepts_decodeAt_single (hslot : value.IsSlot tag.wire element)
    (hbrackets : tag.brackets = .length expr) (hdepth : path.depth < settings.limits.recursion)
    (hsize : bytes.length ≤ sizeMax)
    (h : (decodeAt schema settings path record tag (schema.default (.vector element))).Accepts bytes
      left) :
    ∃ items, left = .sequence .growable element items ∧
      Plan.evalSize path expr record = .ok items.length ∧
      ∀ item, items.head? = some item →
        (decodeAt schema settings path record tag (schema.default element)).Accepts bytes item := by
  obtain ⟨hpad, hignore⟩ := hslot.not_skipped
  obtain ⟨plan, items, rfl, hplan, hdirect, hslots, hlength, hcheck, hitems⟩ :=
    accepts_decodeAt_vector hbrackets hpad hignore h
  refine ⟨items, rfl, hlength, fun item hitem => ?_⟩
  obtain ⟨rest, rfl⟩ : ∃ rest, items = item :: rest := List.head?_eq_some_iff.1 hitem
  have hfresh := hslot.default schema
  have hplan' : Plan.resolve path (schema.default element) tag record = .ok plan :=
    (hfresh.resolve_sequence hbrackets .growable []).symm.trans hplan
  have hscratch : (schema.default element).scratch = schema.default element := by
    cases hslot <;> rfl
  obtain ⟨room, hroom⟩ := Limits.exists_room hdepth
  rw [hroom] at hitems
  -- The first element is decoded into the value, the others are passed over.
  obtain ⟨front, back, rfl, hfront, hback⟩ :=
    accepts_decodeItems_split hdirect (hslot.steady schema) hsize hitems 1
  rw [List.length_cons, Nat.min_eq_right (Nat.le_add_left 1 _)] at hfront
  have hfirst := accepts_decodeElement_of_items hdirect hfront
  rw [decodeAt, hplan']
  show (decodeIn schema settings (settings.limits.room path) path _ plan).Accepts _ _
  rw [hroom, decodeIn_eq, hdirect.decodeWith_eq,
    if_pos (Plan.eval_of_resolve_length hplan hbrackets).1, decodeArray_slot hfresh hplan',
    decodeSingle, hscratch, hslots]
  exact hfirst.bind ((hback.leaving _).bind_done ⟨rfl, rfl⟩)

end decoding

/-- A single value that a tag makes an array of is a vector of one element. It is encoded to the
same bytes, with the same result or an error of the same kind. What an empty vector is decoded from,
the default of the type of the value is decoded from: as long as the array has an element, it takes
as many bytes and becomes the first one. -/
theorem single_as_vector {path : Path} {record : Option Record} {tag : Tag} {expr : SizeExpr}
    {element : HostType} {value : Value} (hslot : value.IsSlot tag.wire element)
    (hbrackets : tag.brackets = .length expr) :
    (∀ encoder : Encoder, path.depth < encoder.settings.limits.recursion →
      let single := encoder.encodeAt path record tag value
      let vector := encoder.encodeAt path record tag (.sequence .growable element [value])
      vector.2 = single.2 ∧ vector.1.mapError Error.unplaced = single.1.mapError Error.unplaced) ∧
    ∀ (schema : Schema) (settings : Settings) (data : Bytes) (start boundary : Nat) (left : Value)
      (count : Nat), path.depth < settings.limits.recursion → count ≤ sizeMax →
      let decoder : Decoder := ⟨schema, settings, .steady data start, boundary⟩
      (decoder.decodeAt path record tag (schema.default (.vector element))).1 = ⟨left, .ok count⟩ →
      ∃ items, left = .sequence .growable element items ∧
        Plan.evalSize path expr record = .ok items.length ∧
        ∀ item, items.head? = some item →
          decoder.decodeAt path record tag (schema.default element) =
            (⟨item, .ok count⟩,
              ⟨schema, settings, .steady (data.drop count) (start + count), boundary⟩) := by
  constructor
  · intro encoder hdepth
    exact Encoder.run_of_relocates (relocates_encodeAt hslot hbrackets hdepth).sized encoder
  · intro schema settings data start boundary left count hdepth hsize decoder hvector
    obtain ⟨bytes, rest, rfl, rfl, haccepts⟩ := Decoder.accepts_of_decodeAt hvector
    obtain ⟨items, rfl, hlength, hsingle⟩ :=
      accepts_decodeAt_single hslot hbrackets hdepth hsize haccepts
    refine ⟨items, rfl, hlength, fun item hitem => ?_⟩
    rw [Decoder.decodeAt_of_accepts boundary start rest (hsingle item hitem), List.drop_left]

/-- A byte as an array of three 16-bit numbers, and the first one of two strings. -/
theorem single_as_vector_instances :
    let settings : Settings := ⟨.bigEndian, {}, .empty⟩
    let encoder : Encoder := ⟨settings, .unbounded⟩
    let decoder : Decoder := ⟨[], settings, .steady [97, 0, 98, 99, 0, 1] 0, 0⟩
    let numbers : Tag := ⟨some .uint16, .length (.ofNat 3), none, none⟩
    let texts : Tag := ⟨some .zstring, .length (.ofNat 2), none, none⟩
    ((Value.ofByte 7).IsSlot numbers.wire .byte ∧ (Value.text "").IsSlot texts.wire .text ∧
      Path.depth .top < settings.limits.recursion) ∧
    (encoder.encodeAt .top none numbers (.sequence .growable .byte [.ofByte 7])).2.sink.held =
      #[0, 7, 0, 0, 0, 0] ∧
    decoder.decodeAt .top none texts (Schema.default [] .text) =
      (⟨.text "a", .ok 5⟩, ⟨[], settings, .steady [1] 5, 0⟩) := by
  intro settings encoder decoder numbers texts
  have hnumber : (Value.ofByte 7).IsSlot numbers.wire .byte := .scalar rfl fun _ h => by
    cases h
    rfl
  have htext : (Value.text "").IsSlot texts.wire .text := .text fun _ h => by
    cases h
    rfl
  have hdepth : Path.depth .top < settings.limits.recursion := by decide
  have hsingle : (encoder.encodeAt .top none numbers (.ofByte 7)).2.sink.held =
      #[0, 7, 0, 0, 0, 0] := by cbv
  have hvector : (decoder.decodeAt .top none texts (Schema.default [] (.vector .text))).1 =
      ⟨.sequence .growable .text [.text "a", .text "bc"], .ok 5⟩ := by cbv
  obtain ⟨hencode, -⟩ := @single_as_vector .top none numbers _ _ _ hnumber rfl
  obtain ⟨-, hdecode⟩ := @single_as_vector .top none texts _ _ _ htext rfl
  obtain ⟨items, hitems, -, hfirst⟩ := hdecode [] settings _ 0 0 _ 5 hdepth (by decide) hvector
  cases hitems
  refine ⟨⟨hnumber, htext, hdepth⟩, ?_, hfirst (.text "a") rfl⟩
  rw [(hencode encoder hdepth).1]
  exact hsingle

end PackedRecord
