import PackedRecord.Proofs.CountedPayloads
import PackedRecord.Proofs.DecodedText
import PackedRecord.Proofs.ShortWrites
import PackedRecord.Proofs.SurplusSlots
import PackedRecord.Proofs.TextBounds
import PackedRecord.Proofs.Wrappers

/-!
# Strings as arrays of numbers

A string that a tag makes an array of numbers is the vector of its bytes. `numbers_of_string` is the
statement to read. To the encoder the two are the same; the decoder reads a vector of bytes and
makes a string of it, which `decodeAt_text_numbers` says for any source. What is left of the string
when it comes back is all but zeros at its end.
-/

namespace PackedRecord

/-- The tag of an array of numbers of the wire type, of a length that an expression gives. -/
def WireType.numbersTag (wire : WireType) (expr : SizeExpr) : Tag :=
  ⟨some wire, .length expr, none, none⟩

/-- The plan for an array of so many numbers. -/
def Plan.numbers (wire : WireType) (slots : Nat) : Plan := ⟨wire, true, some slots, none, 0, none⟩

/-- The bytes of a sequence of bytes. -/
def Value.content : Value → Bytes
  | .sequence _ _ items => items.filterMap Value.byte?
  | _ => []

/-- The content of a payload is its bytes. -/
@[simp] theorem content_payload (data : Bytes) : (payload data).content = data := by
  show (data.map Value.ofByte).filterMap Value.byte? = data
  have hbyte : Value.byte? ∘ Value.ofByte = some := funext Scalar.byte?_ofByte
  rw [List.filterMap_map, hbyte, List.filterMap_some]

section plans

variable {wire : WireType} {slots : Nat} {path : Path} {record : Option Record} {expr : SizeExpr}

/-- An array of numbers stands behind no reference. -/
theorem Plan.numbers_isDirect (hwire : wire.isCount = true) (slots : Nat) :
    (Plan.numbers wire slots).IsDirect :=
  ⟨(WireType.ne_of_isCount hwire).1, (WireType.ne_of_isCount hwire).2, rfl⟩

/-- Bytes in an array of numbers are single numbers. -/
theorem Plan.element_numbers (hwire : wire.isCount = true) (path : Path) (byte : UInt8) :
    (Plan.numbers wire slots).element path (.ofByte byte) = .ok (Plan.count wire) := by
  cases wire with
  | any => cases hwire
  | _ => rfl

/-- Values that are not behind references have the same plan as an array of numbers. -/
theorem resolve_numbers {value : Value} {natural : WireType}
    (hnatural : value.natural.wire = some natural) (hindirection : value.natural.indirection = 0) :
    Plan.resolve path value (wire.numbersTag expr) record =
      (Plan.evalSize path expr record).map (Plan.numbers wire) := by
  have hagreed : Plan.resolveWire path value (some wire) = .ok wire := by
    unfold Plan.resolveWire
    rw [hnatural]
    cases wire <;> rfl
  simp only [Plan.resolve, WireType.numbersTag, hagreed, Plan.resolveArray, Plan.resolveBuffer,
    hindirection]
  cases Plan.evalSize path expr record <;> rfl

/-- A string under the tag of numbers is planned as so many numbers. -/
theorem resolve_numbers_text (text : String) :
    Plan.resolve path (.text text) (wire.numbersTag expr) record =
      (Plan.evalSize path expr record).map (Plan.numbers wire) := resolve_numbers rfl rfl

/-- A payload under the tag of numbers is planned as so many numbers. -/
theorem resolve_numbers_payload (data : Bytes) :
    Plan.resolve path (payload data) (wire.numbersTag expr) record =
      (Plan.evalSize path expr record).map (Plan.numbers wire) := resolve_numbers rfl rfl

end plans

section encoding

variable {settings : Settings} {path : Path} {record : Option Record} {wire : WireType}
  {expr : SizeExpr}

/-- A string has the elements that its bytes are. -/
theorem Elements.of_text (path : Path) (hwire : wire.isNumeric = true) (text : String) :
    Elements.of path (.text text) wire =
      Elements.of path (payload (Text.Utf8.encode text)) wire := by
  show (if wire.isNumeric then _ else _) = Except.ok (Elements.mk _ (Value.bytes? .byte _) _)
  rw [if_pos hwire, bytes?_payload]

/-- The encoder makes no difference between a string and the vector of its bytes. -/
theorem encodeAt_text_numbers (hwire : wire.isCount = true) (text : String) :
    encodeAt settings path record (wire.numbersTag expr) (.text text) =
      encodeAt settings path record (wire.numbersTag expr) (payload (Text.Utf8.encode text)) := by
  rw [encodeAt, encodeAt, resolve_numbers_text, resolve_numbers_payload]
  cases Plan.evalSize path expr record with
  | error error => rfl
  | ok slots =>
      have hdirect := Plan.numbers_isDirect hwire slots
      have harray : (Plan.numbers wire slots).isArray = true := rfl
      have hof := Elements.of_text path (WireType.isNumeric_of_isCount hwire) text
      show encodeIn settings _ path _ _ = encodeIn settings _ path _ _
      rw [encodeIn_eq, hdirect.encodeWith_eq, hdirect.encodeWith_eq, if_pos harray, if_pos harray,
        encodeArray_eq, encodeArray_eq]
      show Emission.ofExcept (Elements.of path _ wire) >>= _ =
        Emission.ofExcept (Elements.of path _ wire) >>= _
      rw [hof]

end encoding

section decoding

variable {schema : Schema} {settings : Settings} {path : Path} {record : Option Record}
  {wire : WireType} {expr : SizeExpr} {room slots : Nat}

/-- A byte is decoded from a number whatever it was before. -/
theorem leaving_decodeElement (hwire : wire.isCount = true) (index : Nat) (byte byte' : UInt8) :
    Intake.leaving () (decodeElement (decodeBelow schema settings room) path
        (Plan.numbers wire slots) index (.ofByte byte)) =
      Intake.leaving () (decodeElement (decodeBelow schema settings room) path
        (Plan.numbers wire slots) index (.ofByte byte')) := by
  cases room with
  | zero => rfl
  | succ room =>
      have hsingle : ¬ (Plan.count wire).isArray = true := Bool.false_ne_true
      have hnumeric : (Plan.count wire).wire.isNumeric = true := WireType.isNumeric_of_isCount hwire
      simp only [decodeElement, decodeBelow, Plan.element_numbers hwire]
      rw [decodeIn_eq, (count_isDirect hwire).decodeWith_eq, (count_isDirect hwire).decodeWith_eq,
        if_neg hsingle, if_neg hsingle]
      simp only [decodeLeaf, Value.target, Value.ofByte, if_pos hnumeric]
      show Intake.leaving () (Intake.leaving _ _ >>= _) =
        Intake.leaving () (Intake.leaving _ _ >>= _)
      unfold Intake.leaving
      rw [Intake.bimap_bind, Intake.bimap_bind, Intake.bimap_bimap, Intake.bimap_bimap]
      rfl

/-- So are all bytes of a vector. -/
theorem leaving_decodeElements (hwire : wire.isCount = true) {bytes bytes' : Bytes}
    (hlength : bytes.length = bytes'.length) (index : Nat) (decoded : List Value) :
    Intake.leaving () (decodeElements (decodeBelow schema settings room) path
        (Plan.numbers wire slots) index decoded (bytes.map Value.ofByte)) =
      Intake.leaving () (decodeElements (decodeBelow schema settings room) path
        (Plan.numbers wire slots) index decoded (bytes'.map Value.ofByte)) := by
  induction bytes generalizing bytes' index decoded with
  | nil =>
      obtain rfl := List.eq_nil_of_length_eq_zero hlength.symm
      rfl
  | cons byte bytes ih =>
      obtain ⟨byte', bytes', rfl⟩ := List.exists_cons_of_length_eq_add_one hlength.symm
      have hfirst : Intake.leaving () (decodeElement (decodeBelow schema settings room) path
          (Plan.numbers wire slots) index (.ofByte byte)) = _ :=
        leaving_decodeElement hwire index byte byte'
      unfold Intake.leaving at hfirst ih ⊢
      simp only [List.map_cons, decodeElements, Intake.bimap_bind, Intake.bimap_bimap]
      refine congrArg₂ _ hfirst ?_
      funext item
      exact ih (Nat.succ.inj hlength) _ _

/-- What bytes held before does not matter for what is decoded into as many of them. -/
theorem leaving_decodeItems (hwire : wire.isCount = true) {bytes bytes' : Bytes}
    (hlength : bytes.length = bytes'.length) :
    Intake.leaving () (decodeItems (decodeBelow schema settings room) path
        (Plan.numbers wire slots) .byte (bytes.map Value.ofByte)) =
      Intake.leaving () (decodeItems (decodeBelow schema settings room) path
        (Plan.numbers wire slots) .byte (bytes'.map Value.ofByte)) := by
  unfold decodeItems
  split
  next => simp only [Intake.leaving, Intake.bimap, List.length_map, hlength]
  next => exact leaving_decodeElements hwire hlength 0 []

/-- A vector of bytes becomes as long as there are slots before numbers are decoded into it. -/
theorem decodeArray_payload (child : Option ChildDecoder) (old : Bytes) :
    decodeArray schema settings child path (payload old) (Plan.numbers wire slots) =
      match settings.limits.checkCollect path slots with
      | .error error => .fail error (payload old)
      | .ok () =>
          (decodeItems child path (Plan.numbers wire slots) .byte
            ((old.resized slots).map Value.ofByte)).within (.sequence .growable .byte) := by
  rw [← resized_map]
  exact decodeArray_vector schema settings child path (Plan.numbers wire slots) .byte _

/-- A string becomes what a vector of zeros is decoded into. -/
theorem decodeArray_text (hwire : wire.isCount = true) (child : Option ChildDecoder)
    (text : String) :
    decodeArray schema settings child path (.text text) (Plan.numbers wire slots) =
      match settings.limits.checkCollect path slots with
      | .error error => .fail error (.text text)
      | .ok () =>
          putText path (.text text) (Intake.leaving () (decodeItems child path
              (Plan.numbers wire slots) .byte ((Bytes.zeros slots).map Value.ofByte)) >>=
            fun items => .ofExcept () (textOfBytes path (items.filterMap Value.byte?))) := by
  have hzeros : List.replicate slots (Value.ofByte 0) = (Bytes.zeros slots).map Value.ofByte :=
    List.map_replicate.symm
  rw [← hzeros]
  refine (if_pos (WireType.isNumeric_of_isCount hwire)).trans ?_
  show putText path (.text text) (.ofExcept () (settings.limits.checkCollect path slots) >>= _) = _
  cases settings.limits.checkCollect path slots <;> rfl

/-- What is read as a vector and then made a string is the same as what is read for the string. -/
theorem putText_eq (text : String) (intake : Intake Unit (List Value)) :
    putText path (.text text) (intake >>= fun items =>
        .ofExcept () (textOfBytes path (items.filterMap Value.byte?))) =
      intake.bimap (fun _ => .text text) (Value.sequence .growable .byte) >>= fun filled =>
        .ofExcept (.text text) ((textOfBytes path filled.content).map .text) := by
  induction intake with
  | done items =>
      show putText path (.text text)
          (.ofExcept () (textOfBytes path (items.filterMap Value.byte?))) =
        .ofExcept (.text text) ((textOfBytes path (items.filterMap Value.byte?)).map .text)
      cases textOfBytes path (items.filterMap Value.byte?) <;> rfl
  | fail error left => rfl
  | read place count torn next ih =>
      show Intake.read _ _ _ _ = Intake.read _ _ _ _
      congr 1
      funext bytes
      exact ih bytes

/-- A string is decoded from numbers by decoding a vector of bytes, whatever it was before, and
taking its bytes for those of the string. -/
theorem decodeAt_text_numbers (hwire : wire.isCount = true) (text : String) (old : Bytes) :
    decodeAt schema settings path record (wire.numbersTag expr) (.text text) =
      Intake.leaving (.text text)
          (decodeAt schema settings path record (wire.numbersTag expr) (payload old)) >>=
        fun filled => .ofExcept (.text text) ((textOfBytes path filled.content).map .text) := by
  rw [decodeAt, decodeAt, resolve_numbers_text, resolve_numbers_payload]
  cases Plan.evalSize path expr record with
  | error error => rfl
  | ok slots =>
      have hdirect := Plan.numbers_isDirect hwire slots
      have harray : (Plan.numbers wire slots).isArray = true := rfl
      show decodeIn schema settings _ path _ _ =
        Intake.leaving _ (decodeIn schema settings _ path _ _) >>= _
      rw [decodeIn_eq, hdirect.decodeWith_eq, hdirect.decodeWith_eq, if_pos harray, if_pos harray,
        decodeArray_payload, decodeArray_text hwire]
      cases settings.limits.checkCollect path slots with
      | error error => rfl
      | ok =>
          have hzeros : (Bytes.zeros slots).length = (old.resized slots).length := by
            rw [Bytes.length_zeros, Bytes.length_resized]
          simp only
          rw [leaving_decodeItems hwire hzeros, putText_eq]
          unfold Intake.leaving Intake.within
          rw [Intake.bimap_bimap, Intake.bimap_bimap]
          rfl

variable {bytes : Bytes}

/-- A byte is decoded from a number into a byte. -/
theorem byte_of_accepts_decodeElement (hwire : wire.isCount = true) {index : Nat} {byte : UInt8}
    {item : Value} (h : (decodeElement (decodeBelow schema settings room) path
      (Plan.numbers wire slots) index (.ofByte byte)).Accepts bytes item) :
    ∃ byte', item = .ofByte byte' := by
  cases room with
  | zero => exact h.elim
  | succ room =>
      have hsingle : ¬ (Plan.count wire).isArray = true := Bool.false_ne_true
      have hnumeric : (Plan.count wire).wire.isNumeric = true := WireType.isNumeric_of_isCount hwire
      simp only [decodeElement, decodeBelow, Plan.element_numbers hwire] at h
      rw [decodeIn_eq, (count_isDirect hwire).decodeWith_eq, if_neg hsingle] at h
      simp only [decodeLeaf, Value.target, Value.ofByte, if_pos hnumeric] at h
      obtain ⟨front, scalar, back, rfl, hscalar, hdone⟩ := Intake.accepts_bind.1 h
      obtain ⟨_, hdecoded, rfl⟩ := Intake.accepts_bimap.1 hscalar
      obtain ⟨rfl, rfl⟩ := hdone
      exact Value.exists_ofByte (accepts_decodeScalar_type hdecoded).2

/-- Elements that were decoded into bytes are bytes. -/
theorem bytes_of_accepts_decodeElements (hwire : wire.isCount = true) {places data : Bytes}
    {index : Nat} {items : List Value}
    (h : (decodeElements (decodeBelow schema settings room) path (Plan.numbers wire slots) index
      (data.map Value.ofByte) (places.map Value.ofByte)).Accepts bytes items) :
    ∃ data', items = List.map Value.ofByte data' := by
  induction places generalizing index data bytes with
  | nil =>
      obtain ⟨-, rfl⟩ := h
      exact ⟨data.reverse, List.map_reverse.symm⟩
  | cons place places ih =>
      obtain ⟨front, item, back, rfl, hitem, hrest⟩ := accepts_decodeElements_cons.1 h
      obtain ⟨byte, rfl⟩ := byte_of_accepts_decodeElement hwire hitem
      rw [← List.map_cons] at hrest
      exact ih hrest

/-- Items that were decoded into bytes are bytes. -/
theorem bytes_of_accepts_decodeItems (hwire : wire.isCount = true) {places : Bytes}
    {items : List Value}
    (h : (decodeItems (decodeBelow schema settings room) path (Plan.numbers wire slots) .byte
      (places.map Value.ofByte)).Accepts bytes items) :
    ∃ data, items = List.map Value.ofByte data := by
  unfold decodeItems at h
  split at h
  next =>
    obtain ⟨data, _, rfl, -, rfl, rfl⟩ := h
    exact ⟨data, rfl⟩
  next =>
    rw [← List.map_nil (f := Value.ofByte)] at h
    exact bytes_of_accepts_decodeElements hwire h

/-- A vector of bytes stays one. -/
theorem payload_of_accepts (hwire : wire.isCount = true) {old : Bytes} {filled : Value}
    (h : (decodeAt schema settings path record (wire.numbersTag expr) (payload old)).Accepts bytes
      filled) : ∃ data, filled = payload data := by
  rw [decodeAt, resolve_numbers_payload] at h
  cases hslots : Plan.evalSize path expr record with
  | error error =>
      rw [hslots] at h
      exact h.elim
  | ok slots =>
      have hdirect := Plan.numbers_isDirect hwire slots
      have harray : (Plan.numbers wire slots).isArray = true := rfl
      rw [hslots] at h
      change (decodeIn schema settings _ path _ _).Accepts bytes filled at h
      rw [decodeIn_eq, hdirect.decodeWith_eq, if_pos harray, decodeArray_payload] at h
      split at h
      next => exact h.elim
      next =>
        obtain ⟨items, hitems, rfl⟩ := Intake.accepts_bimap.1 h
        obtain ⟨data, rfl⟩ := bytes_of_accepts_decodeItems hwire hitems
        exact ⟨data, rfl⟩

/-- A decoder takes the same for a string as for a vector of bytes. Where that fails, the string
stays as it was and the error is the same; where it succeeds, the string becomes the text of the
bytes without trailing zeros, or stays as it was if they are none. -/
theorem Decoder.decodeAt_text_numbers (hwire : wire.isCount = true) (decoder : Decoder)
    (text : String) (old : Bytes) :
    let vector := decoder.decodeAt path record (wire.numbersTag expr) (payload old)
    let string := decoder.decodeAt path record (wire.numbersTag expr) (.text text)
    string.2 = vector.2 ∧
    (∀ left error, vector.1 = ⟨left, .error error⟩ → string.1 = ⟨.text text, .error error⟩) ∧
    ∀ left count, vector.1 = ⟨left, .ok count⟩ → ∃ data, left = payload data ∧
      (∀ decoded, Text.Utf8.encode decoded = data.dropTrailingZeros →
        string.1 = ⟨.text decoded, .ok count⟩) ∧
      ((∀ decoded, Text.Utf8.encode decoded ≠ data.dropTrailingZeros) →
        ∃ fault, string.1 = ⟨.text text, .error (.located path (.invalidUtf8 fault))⟩) := by
  intro vector string
  unfold vector string decodeAt
  rw [PackedRecord.decodeAt_text_numbers hwire text old, Source.supply_bind, Intake.leaving,
    Source.supply_bimap]
  cases hrun : decoder.source.supply decoder.boundary (PackedRecord.decodeAt decoder.schema
    decoder.settings path record (wire.numbersTag expr) (payload old)) with
  | mk result after =>
      cases result with
      | error stop =>
          refine ⟨rfl, ?_, ?_⟩
          · rintro left error ⟨⟩
            rfl
          · rintro left count ⟨⟩
      | ok filled =>
          obtain ⟨bytes, -, haccepts⟩ := Source.accepts_of_supply_ok hrun
          obtain ⟨data, rfl⟩ := payload_of_accepts hwire haccepts
          simp only [Except.mapError, Except.map, id, content_payload]
          cases hdecode : Text.Utf8.decode data.dropTrailingZeros with
          | error fault =>
              have htext : textOfBytes path data = .error (.located path (.invalidUtf8 fault)) := by
                rw [textOfBytes, hdecode]
              rw [htext]
              refine ⟨rfl, ?_, ?_⟩
              · rintro left error ⟨⟩
              · rintro left count ⟨⟩
                refine ⟨data, rfl, ?_, fun _ => ⟨fault, rfl⟩⟩
                intro decoded hdecoded
                rw [← hdecoded, Text.Utf8.decode_encode] at hdecode
                cases hdecode
          | ok decoded =>
              have htext : textOfBytes path data = .ok decoded := by rw [textOfBytes, hdecode]
              rw [htext]
              refine ⟨rfl, ?_, ?_⟩
              · rintro left error ⟨⟩
              · rintro left count ⟨⟩
                refine ⟨data, rfl, ?_, fun hnone => absurd (Text.Utf8.encode_of_decode hdecode)
                  (hnone decoded)⟩
                intro decoded' hdecoded'
                rw [← hdecoded', Text.Utf8.decode_encode] at hdecode
                cases hdecode
                rfl

end decoding

section round_trip

variable {schema : Schema} {settings : Settings} {path : Path} {record : Option Record}
  {wire : WireType} {expr : SizeExpr} {room slots index : Nat} {bytes : Bytes}

/-- A byte that was encoded as a number is decoded again, and takes as many bytes as a number. -/
theorem accepts_byte_of_yields (schema : Schema) (hwire : wire.isCount = true) {byte : UInt8}
    (place : UInt8)
    (h : (encodeIn settings room path (.ofByte byte) (.count wire)).Yields bytes ()) :
    bytes.length = wire.byteSize ∧
      (decodeIn schema settings room path (.ofByte place) (.count wire)).Accepts bytes
        (.ofByte byte) := by
  obtain ⟨count, hbyte, htype, hvalue⟩ : ∃ count : HostInt, Value.ofByte byte =
      .scalar (.int count) ∧ count.type = .u8 ∧ count.value = byte.toNat := ⟨_, rfl, rfl, rfl⟩
  have hlt := byte.toNat_lt
  have hpower : (256 : Int) ^ 1 ≤ 256 ^ wire.byteSize :=
    pow_le_pow_right₀ (by decide) (WireType.byteSize_pos (WireType.isNumeric_of_isCount hwire))
  rw [hbyte] at h ⊢
  obtain ⟨image, himage, hemit⟩ := yields_encode_count hwire h
  obtain ⟨hlength, restored, htype', hvalue', haccepts⟩ :=
    accepts_decodeScalar_count (by omega) hwire himage hemit
  obtain rfl : restored = count := by
    rw [Int.emod_eq_of_lt (by omega) (by omega)] at hvalue'
    obtain ⟨_, _, _⟩ := restored
    cases htype'
    cases hvalue'
    rfl
  rw [htype] at haccepts
  exact ⟨hlength, accepts_decode_count hwire (haccepts path)⟩

/-- A number that is zero is decoded into a byte that is zero. -/
theorem accepts_byte_zero (hwire : wire.isCount = true) (place : UInt8) :
    (decodeIn schema settings room path (.ofByte place) (.count wire)).Accepts
      (Bytes.zeros wire.byteSize) (.ofByte 0) := by
  have hwidth : isScalarWidth wire.byteSize = true := by
    cases wire <;> first | rfl | cases hwire
  have hzero : (ScalarType.int .u8).ofImage wire 0 = .ok (.ofByte 0) := by
    cases wire <;> first | exact absurd hwire Bool.false_ne_true | decide
  refine accepts_decode_count hwire ((accepts_readImage_zeros hwidth).bind_done ?_)
  rw [hzero]
  exact ⟨rfl, rfl⟩

/-- The last byte that was encoded as a number was as large as numbers are. -/
theorem last_of_yields_bytes (hwire : wire.isCount = true) {data : Bytes} {last last' : Option Nat}
    (h : (encodeElements (encodeBelow settings room) path (Plan.numbers wire slots) index last
      (data.map Value.ofByte)).Yields bytes last') :
    last' = if data = [] then last else some wire.byteSize := by
  induction data generalizing bytes index last with
  | nil => exact Except.ok.inj (Emission.yields_ofExcept.1 h).2.symm
  | cons byte data ih =>
      obtain ⟨encode, itemPlan, front, back, hchild, hplan, hitem, hrest, rfl⟩ :=
        yields_encodeElements_cons.1 h
      cases room with
      | zero => cases hchild
      | succ room =>
          cases hchild
          cases (Plan.element_numbers hwire _ byte).symm.trans hplan
          have hsize := (accepts_byte_of_yields [] hwire 0 hitem).1
          rw [ih hrest, hsize, if_neg (List.cons_ne_nil byte data), ite_self]

/-- Bytes that were encoded one by one are decoded again. -/
theorem accepts_bytes_of_yields (schema : Schema) (hwire : wire.isCount = true)
    {data places : Bytes} (hlength : data.length = places.length) {last last' : Option Nat}
    (decoded : List Value)
    (h : (encodeElements (encodeBelow settings room) path (Plan.numbers wire slots) index last
      (data.map Value.ofByte)).Yields bytes last') :
    (decodeElements (decodeBelow schema settings room) path (Plan.numbers wire slots) index decoded
      (places.map Value.ofByte)).Accepts bytes (decoded.reverse ++ data.map Value.ofByte) := by
  induction data generalizing places bytes index last decoded with
  | nil =>
      obtain rfl := List.eq_nil_of_length_eq_zero hlength.symm
      obtain ⟨rfl, -⟩ := Emission.yields_ofExcept.1 h
      exact ⟨rfl, (List.append_nil _).symm⟩
  | cons byte data ih =>
      obtain ⟨place, places, rfl⟩ := List.exists_cons_of_length_eq_add_one hlength.symm
      obtain ⟨encode, itemPlan, front, back, hchild, hplan, hitem, hrest, rfl⟩ :=
        yields_encodeElements_cons.1 h
      cases room with
      | zero => cases hchild
      | succ room =>
          cases hchild
          cases (Plan.element_numbers hwire _ byte).symm.trans hplan
          have happend : decoded.reverse ++ (byte :: data).map Value.ofByte =
              (Value.ofByte byte :: decoded).reverse ++ data.map Value.ofByte := by
            rw [List.reverse_cons, List.append_assoc]
            rfl
          rw [happend]
          exact accepts_decodeElements_cons.2 ⟨front, .ofByte byte, back, rfl,
            accepts_decodeElement rfl (Plan.element_numbers hwire _ place)
              (accepts_byte_of_yields schema hwire place hitem).2,
            ih (Nat.succ.inj hlength) (.ofByte byte :: decoded) hrest⟩

/-- Zeros are decoded into bytes that are zero. -/
theorem accepts_zero_elements (hwire : wire.isCount = true) (count index : Nat)
    (decoded : List Value) :
    (decodeElements (decodeBelow schema settings (room + 1)) path (Plan.numbers wire slots) index
      decoded (List.replicate count (.ofByte 0))).Accepts (Bytes.zeros (count * wire.byteSize))
        (decoded.reverse ++ List.replicate count (.ofByte 0)) := by
  rw [← Bytes.flatten_zeros]
  refine accepts_decodeElements_replicate (fun index => ?_) count index decoded
  exact accepts_decodeElement rfl (Plan.element_numbers hwire _ 0) (accepts_byte_zero hwire 0)

/-- The slots that a vector of bytes leaves free are as large as numbers are. -/
theorem slotSize_of_yields (hwire : wire.isCount = true) {data : Bytes} {last : Option Nat}
    (h : (encodeItems (encodeBelow settings room) path (Plan.numbers wire slots)
      ⟨data.map Value.ofByte, some data, HostType.byte.natural⟩).Yields bytes last) :
    last.getD (staticSize wire HostType.byte.natural) = wire.byteSize := by
  have hstatic : staticSize wire HostType.byte.natural = wire.byteSize := by
    cases wire <;> first | exact absurd hwire Bool.false_ne_true | rfl
  unfold encodeItems at h
  simp only at h
  split at h
  next hbulk =>
    obtain ⟨_, _, _, rfl, -, hdone⟩ := Emission.yields_bind.1 h
    obtain ⟨-, hlast⟩ := Emission.yields_ofExcept.1 hdone
    cases hlast
    exact (WireType.size_of_bulk hbulk).2.symm
  next =>
    rw [last_of_yields_bytes hwire h, hstatic]
    split <;> rfl

/-- A vector of bytes and the zeros behind it are decoded again, if a slot can be reached. -/
theorem accepts_items_of_yields (hwire : wire.isCount = true) {data : Bytes} {last : Option Nat}
    (hfits : data.length ≤ slots)
    (hreach : (wire = .byte ∨ wire = .uint8) ∨ 0 < room ∨ data ≠ [] ∨ slots = 0)
    (h : (encodeItems (encodeBelow settings room) path (Plan.numbers wire slots)
      ⟨data.map Value.ofByte, some data, HostType.byte.natural⟩).Yields bytes last) :
    (decodeItems (decodeBelow schema settings room) path (Plan.numbers wire slots) .byte
        (List.replicate slots (schema.default .byte))).Accepts
      (bytes ++ Bytes.zeros ((slots - data.length) * wire.byteSize))
      ((data ++ Bytes.zeros (slots - data.length)).map Value.ofByte) := by
  unfold encodeItems at h
  unfold decodeItems
  by_cases hbulk : (Plan.numbers wire slots).wire = .byte ∨ (Plan.numbers wire slots).wire = .uint8
  · simp only [if_pos hbulk] at h
    obtain ⟨_, _, _, rfl, hwrite, hdone⟩ := Emission.yields_bind.1 h
    rw [Emission.yields_write.1 hwrite, (Emission.yields_ofExcept.1 hdone).1, List.append_nil,
      show wire.byteSize = 1 from (WireType.size_of_bulk hbulk).2, Nat.mul_one,
      if_pos ⟨rfl, hbulk⟩, List.length_replicate]
    refine ⟨_, [], (List.append_nil _).symm, ?_, rfl, rfl⟩
    show (data ++ Bytes.zeros (slots - data.length)).length = slots
    rw [List.length_append, Bytes.length_zeros]
    omega
  · simp only [if_neg hbulk] at h
    have hplaces : List.replicate slots (schema.default .byte) =
        (Bytes.zeros data.length).map Value.ofByte ++
          List.replicate (slots - data.length) (.ofByte 0) := by
      rw [Bytes.zeros, List.map_replicate, List.replicate_append_replicate,
        Nat.add_sub_cancel' hfits]
      rfl
    have hfront := accepts_bytes_of_yields schema hwire (Bytes.length_zeros data.length).symm [] h
    rw [if_neg fun hboth => hbulk hboth.2, hplaces, accepts_decodeElements_append]
    refine ⟨bytes, data.map Value.ofByte, _, rfl, hfront, ?_⟩
    have hresult : (data ++ Bytes.zeros (slots - data.length)).map Value.ofByte =
        (data.map Value.ofByte).reverse.reverse ++
          List.replicate (slots - data.length) (.ofByte 0) := by
      rw [List.map_append, List.reverse_reverse, Bytes.zeros, List.map_replicate]
    rw [hresult]
    have hroom : 0 < room ∨ slots - data.length = 0 := by
      rcases hreach with hbulk' | hroom | hdata | hnone
      · exact absurd hbulk' hbulk
      · exact .inl hroom
      · obtain ⟨byte, rest, rfl⟩ := List.exists_cons_of_ne_nil hdata
        obtain ⟨_, _, _, _, hchild, -⟩ := yields_encodeElements_cons.1 h
        cases room with
        | zero => cases hchild
        | succ room => exact .inl room.succ_pos
      · exact .inr (by omega)
    rcases hroom with hroom | hfull
    · obtain ⟨below, rfl⟩ := Nat.exists_eq_add_one_of_ne_zero hroom.ne'
      exact accepts_zero_elements hwire _ _ _
    · rw [hfull, Nat.zero_mul]
      exact ⟨rfl, (List.append_nil _).symm⟩

/-- What a vector of bytes is encoded to is decoded to these bytes and to zeros. -/
theorem accepts_payload_of_yields (hwire : wire.isCount = true) {data : Bytes}
    (hslots : Plan.evalSize path expr record = .ok slots)
    (hcollect : slots ≤ settings.limits.collect)
    (hreach : (wire = .byte ∨ wire = .uint8) ∨ path.depth < settings.limits.recursion ∨
      data ≠ [] ∨ slots = 0)
    (hsize : bytes.length < sizeMax)
    (h : (encodeAt settings path record (wire.numbersTag expr) (payload data)).Yields bytes ()) :
    data.length ≤ slots ∧
      (decodeAt schema settings path record (wire.numbersTag expr) (payload [])).Accepts bytes
        (payload (data ++ Bytes.zeros (slots - data.length))) := by
  have hdirect := Plan.numbers_isDirect hwire slots
  have harray : (Plan.numbers wire slots).isArray = true := rfl
  rw [encodeAt, resolve_numbers_payload, hslots] at h
  change (encodeIn settings _ path _ (Plan.numbers wire slots)).Yields bytes () at h
  rw [encodeIn_eq, hdirect.encodeWith_eq, if_pos harray] at h
  have hof : Elements.of path (payload data) (Plan.numbers wire slots).wire =
      .ok ⟨data.map Value.ofByte, some data, HostType.byte.natural⟩ := by
    rw [← bytes?_payload data]
    rfl
  obtain ⟨hfits, front, last, hitems, hbytes⟩ := yields_encodeArray hof h
  change (data.map Value.ofByte).length ≤ slots at hfits
  change bytes = front ++ Bytes.zeros (sizeMul (slots - (data.map Value.ofByte).length)
    (last.getD (staticSize wire HostType.byte.natural))) at hbytes
  rw [List.length_map] at hfits hbytes
  rw [slotSize_of_yields hwire hitems] at hbytes
  have hpadding : sizeMul (slots - data.length) wire.byteSize < sizeMax := by
    rw [hbytes, List.length_append, Bytes.length_zeros] at hsize
    omega
  rw [sizeMul_of_lt hpadding] at hbytes
  refine ⟨hfits, ?_⟩
  rw [decodeAt, resolve_numbers_payload, hslots, hbytes]
  refine accepts_decodeIn_vector hdirect harray rfl hcollect ?_
  exact accepts_items_of_yields hwire hfits (hreach.imp_right (.imp_left Nat.sub_pos_of_lt)) hitems

/-- The string is empty and padded with numbers that would be decoded one by one, but these lie
deeper than the limit. -/
def OutOfReach (limits : Limits) (path : Path) (wire : WireType) (slots : Nat) (text : String) :
    Prop :=
  limits.recursion ≤ path.depth ∧ text = "" ∧ slots ≠ 0 ∧ wire ≠ .byte ∧ wire ≠ .uint8

/-- A padded string beyond the recursion limit is not decoded, and its destination stays as
it was. -/
theorem decodeAt_text_out_of_reach (hwire : wire.isCount = true) {text : String}
    (hslots : Plan.evalSize path expr record = .ok slots)
    (hcollect : slots ≤ settings.limits.collect)
    (hdeep : OutOfReach settings.limits path wire slots text) (destination : String) :
    decodeAt schema settings path record (wire.numbersTag expr) (.text destination) =
      .fail (.located path .recursionLimit) (.text destination) := by
  obtain ⟨hlimit, -, hpos, hbyte, huint8⟩ := hdeep
  have hdirect := Plan.numbers_isDirect hwire slots
  have harray : (Plan.numbers wire slots).isArray = true := rfl
  have hroom : settings.limits.room path = 0 := Nat.sub_eq_zero_of_le hlimit
  have hcheck : settings.limits.checkCollect path slots = .ok () := if_pos hcollect
  have hbulk : ¬ (HostType.byte = .byte ∧ ((Plan.numbers wire slots).wire = .byte ∨
      (Plan.numbers wire slots).wire = .uint8)) := fun h => h.2.elim hbyte huint8
  rw [decodeAt, resolve_numbers_text, hslots]
  show decodeIn schema settings (settings.limits.room path) path _ (Plan.numbers wire slots) = _
  rw [hroom, decodeIn_eq, hdirect.decodeWith_eq, if_pos harray, decodeArray_text hwire, hcheck,
    decodeItems, if_neg hbulk]
  obtain ⟨others, rfl⟩ := Nat.exists_eq_add_one_of_ne_zero hpos
  rfl

/-- A string is decoded from what it is encoded to. -/
theorem accepts_text_of_yields (hwire : wire.isCount = true) {text : String}
    (hnul : ¬ EndsWithNul text) (hslots : Plan.evalSize path expr record = .ok slots)
    (hcollect : slots ≤ settings.limits.collect)
    (hreach : ¬ OutOfReach settings.limits path wire slots text) (hsize : bytes.length < sizeMax)
    (h : (encodeAt settings path record (wire.numbersTag expr) (.text text)).Yields bytes ())
    (destination : String) :
    (decodeAt schema settings path record (wire.numbersTag expr) (.text destination)).Accepts bytes
      (.text text) := by
  rw [encodeAt_text_numbers hwire] at h
  have hreach' : (wire = .byte ∨ wire = .uint8) ∨ path.depth < settings.limits.recursion ∨
      Text.Utf8.encode text ≠ [] ∨ slots = 0 := by
    by_contra hnone
    simp only [not_or, not_not, not_lt] at hnone
    obtain ⟨⟨hbyte, huint8⟩, hdepth, hempty, hpos⟩ := hnone
    have htext := Text.Utf8.decode_encode text
    rw [hempty, show Text.Utf8.decode [] = .ok "" from Text.Utf8.decode_encode ""] at htext
    exact hreach ⟨hdepth, (Except.ok.inj htext).symm, hpos, hbyte, huint8⟩
  obtain ⟨-, hpayload⟩ := accepts_payload_of_yields hwire hslots hcollect hreach' hsize h
  rw [decodeAt_text_numbers hwire destination []]
  refine (hpayload.leaving _).bind_done ?_
  rw [content_payload, textOfBytes_append_zeros hnul]
  exact ⟨rfl, rfl⟩

end round_trip

/-- A string that a tag makes an array of integers or bitmaps is the vector of its bytes. Both are
encoded alike. A decoder takes the same for both; where it succeeds with a vector, the string
becomes the text of its bytes without trailing zeros, and in all other cases it stays as it was.
So a string that does not end with a NUL comes back from its encoding, unless it is empty and
padded with numbers that lie too deep to be decoded. -/
theorem numbers_of_string {wire : WireType} (hwire : wire.isCount = true) (expr : SizeExpr)
    (path : Path) (record : Option Record) :
    (∀ (encoder : Encoder) (text : String),
      encoder.encodeAt path record (wire.numbersTag expr) (.text text) =
        encoder.encodeAt path record (wire.numbersTag expr) (payload (Text.Utf8.encode text))) ∧
    (∀ (decoder : Decoder) (text : String) (old : Bytes),
      let vector := decoder.decodeAt path record (wire.numbersTag expr) (payload old)
      let string := decoder.decodeAt path record (wire.numbersTag expr) (.text text)
      string.2 = vector.2 ∧
      (∀ left error, vector.1 = ⟨left, .error error⟩ → string.1 = ⟨.text text, .error error⟩) ∧
      ∀ left count, vector.1 = ⟨left, .ok count⟩ → ∃ data, left = payload data ∧
        (∀ decoded, Text.Utf8.encode decoded = data.dropTrailingZeros →
          string.1 = ⟨.text decoded, .ok count⟩) ∧
        ((∀ decoded, Text.Utf8.encode decoded ≠ data.dropTrailingZeros) →
          ∃ fault, string.1 = ⟨.text text, .error (.located path (.invalidUtf8 fault))⟩)) ∧
    ∀ (schema : Schema) (settings : Settings) (text : String) (slots count : Nat) (after : Encoder),
      ¬ EndsWithNul text → Plan.evalSize path expr record = .ok slots →
      slots ≤ settings.limits.collect →
      (Encoder.mk settings .unbounded).encodeAt path record (wire.numbersTag expr) (.text text) =
        (.ok count, after) → count < sizeMax →
      ∀ (destination : String) (rest : Bytes) (start boundary : Nat),
        let decoder : Decoder := ⟨schema, settings, .steady (after.output ++ rest) start, boundary⟩
        let decoded := decoder.decodeAt path record (wire.numbersTag expr) (.text destination)
        (¬ OutOfReach settings.limits path wire slots text → decoded =
          (⟨.text text, .ok count⟩, ⟨schema, settings, .steady rest (start + count), boundary⟩)) ∧
        (OutOfReach settings.limits path wire slots text →
          decoded.1 = ⟨.text destination, .error (.located path .recursionLimit)⟩) := by
  refine ⟨?_, fun decoder => decoder.decodeAt_text_numbers hwire, ?_⟩
  · intro encoder text
    rw [Encoder.encodeAt, Encoder.encodeAt, encodeAt_text_numbers hwire]
  · intro schema settings text slots count after hnul hslots hcollect hencode hsize destination rest
      start boundary decoder decoded
    obtain ⟨hyields, rfl⟩ := Encoder.yields_of_encodeAt hencode
    refine ⟨fun hreach => ?_, fun hdeep => ?_⟩
    · exact Decoder.decodeAt_of_accepts boundary start rest
        (accepts_text_of_yields hwire hnul hslots hcollect hreach hsize hyields destination)
    · unfold decoded Decoder.decodeAt
      rw [decodeAt_text_out_of_reach hwire hslots hcollect hdeep]
      rfl

/-- Three bytes in four words: the last one is zero and does not belong to the string. -/
theorem numbers_of_string_uint16 :
    let settings : Settings := ⟨.bigEndian, {}, .empty⟩
    let tag : Tag := WireType.uint16.numbersTag (.ofNat 4)
    let bytes : Bytes := [0, 104, 0, 195, 0, 169, 0, 0]
    WireType.uint16.isCount = true ∧ ¬ EndsWithNul "hé" ∧
    ((Encoder.mk settings .unbounded).encodeAt .top none tag (.text "hé")).2.output = bytes ∧
    (Decoder.mk [] settings (.steady (bytes ++ [7]) 0) 0).decodeAt .top none tag (.text "old") =
      (⟨.text "hé", .ok 8⟩, ⟨[], settings, .steady [7] 8, 0⟩) := by
  intro settings tag bytes
  have hnul : ¬ EndsWithNul "hé" := by
    unfold EndsWithNul
    decide
  have hslots : Plan.evalSize .top (.ofNat 4) none = .ok 4 := by decide
  have hencode : (Encoder.mk settings .unbounded).encodeAt .top none tag (.text "hé") =
      (.ok 8, ⟨settings, .willing bytes.toArray⟩) := by cbv
  have hreach : ¬ OutOfReach settings.limits .top .uint16 4 "hé" := by
    unfold OutOfReach
    decide
  obtain ⟨-, -, hback⟩ := @numbers_of_string .uint16 rfl (.ofNat 4) .top none
  have hdecode := (hback [] settings "hé" 4 8 _ hnul hslots (by decide) hencode (by decide) "old"
    [7] 0 0).1 hreach
  exact ⟨rfl, hnul, by rw [hencode]; rfl, hdecode⟩

/-- A record of an empty string as an array of three words. -/
def paddedLabel : Value := .record (.build "Label" [⟨"text", "[3]int16", true⟩]) [.text ""]

/-- If a record may hold no deeper values, an empty string is packed as its padding, which cannot be
unpacked. -/
theorem not_unpack_pack_padding :
    let packer : Packer := ⟨{ recursion := 1 }, .empty⟩
    ¬ EndsWithNul "" ∧ 3 ≤ packer.limits.collect ∧
    packer.pack .bigEndian paddedLabel = .ok (Bytes.zeros 6) ∧
    packer.unpack [] .bigEndian (Bytes.zeros 6) paddedLabel =
      ⟨paddedLabel, .error (.located [.field "text"] .recursionLimit)⟩ := by
  intro packer
  have hnul : ¬ EndsWithNul "" := by
    unfold EndsWithNul
    decide
  have hpack : packer.pack .bigEndian paddedLabel = .ok (Bytes.zeros 6) := by cbv
  have hunpack : packer.unpack [] .bigEndian (Bytes.zeros 6) paddedLabel =
      ⟨paddedLabel, .error (.located [.field "text"] .recursionLimit)⟩ := by cbv
  exact ⟨hnul, by decide, hpack, hunpack⟩

end PackedRecord
