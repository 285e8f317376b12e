import PackedRecord.Proofs.CountedPayloads
import PackedRecord.Proofs.ShortReads
import PackedRecord.Proofs.ShortWrites
import PackedRecord.Proofs.SingleSlots
import PackedRecord.Proofs.Wrappers

/-!
# Bytes at once and one by one

A vector of bytes is written in one piece and read in one piece, while bytes behind pointers are
elements that are coded one by one. `boxed_as_payload` says that the two ways differ in nothing but
the place of an error. Both are compared with what they are meant to do: `Emission.Yields` says so
for the encoder, and `Source.Copies` for the decoder, on any source that delivers bytes in every
call: bytes are copied as far as there are any, and the ones behind them stay.
-/

namespace PackedRecord

namespace Source

variable {α β γ δ : Type} {source middle after : Source} {count boundary : Nat} {path : Path}

/-- What becomes of an intake that copies `count` bytes, one after the other or at once. If as many
are ready, it ends well, and `full` says with what; otherwise the source ends it, and `torn` says
what it leaves of those that are ready. -/
inductive Copies (source : Source) (boundary count : Nat) (full : Bytes → α) (torn : Bytes → β) :
    Except (Error × β) α × Source → Prop where
  | whole {after : Source} (hready : count ≤ source.ready) (hgave : source.Gave count after) :
      Copies source boundary count full torn (.ok (full (source.data.take count)), after)
  | torn {path : Path} {after : Source} (hready : source.ready < count)
      (hgave : source.Gave source.ready after) :
      Copies source boundary count full torn
        (.error (after.ending boundary path, torn (source.data.take source.ready)), after)

variable {full : Bytes → α} {torn : Bytes → β} {run : Except (Error × β) α × Source}

/-- Nothing is copied without a request. -/
theorem copies_nil (h : source.pace.Progresses) (boundary : Nat) (full : Bytes → α)
    (torn : Bytes → β) : source.Copies boundary 0 full torn (.ok (full []), source) :=
  .whole (Nat.zero_le _) (.none h)

/-- Nothing is copied from a source that has no byte ready. -/
theorem copies_ended (hnone : source.ready = 0) (hcount : 0 < count) (hgave : source.Gave 0 after)
    (boundary : Nat) (path : Path) (full : Bytes → α) (torn : Bytes → β) :
    source.Copies boundary count full torn
      (.error (after.ending boundary path, torn []), after) := by
  rw [← hnone] at hcount hgave
  have hall : source.Copies boundary count full torn
      (.error (after.ending boundary path, torn (source.data.take source.ready)), after) :=
    .torn hcount hgave
  rw [hnone] at hall
  exact hall

/-- Bytes that are copied at once. -/
theorem copies_read (boundary : Nat) (path : Path) (count : Nat) (full : Bytes → α)
    (torn : Bytes → β) (h : source.pace.Progresses) :
    source.Copies boundary count full torn
      (source.supply boundary (.read path count torn fun bytes => .done (full bytes))) := by
  obtain ⟨after, hgave, hsupply⟩ :=
    exists_supply_read boundary path count torn (fun bytes => .done (full bytes)) h
  rw [hsupply]
  split
  next hready =>
    rw [Nat.min_eq_left hready] at hgave
    exact .whole hready hgave
  next hshort =>
    rw [Nat.min_eq_right (Nat.le_of_not_le hshort)] at hgave
    exact .torn (Nat.lt_of_not_le hshort) hgave

/-- Bytes that are copied before count towards all of them. -/
theorem Copies.prepend {front : Nat} (hready : front ≤ source.ready)
    (hgave : source.Gave front middle)
    (h : middle.Copies boundary count (fun bytes => full (source.data.take front ++ bytes))
      (fun bytes => torn (source.data.take front ++ bytes)) run) :
    source.Copies boundary (front + count) full torn run := by
  have hleft := hgave.ready_eq
  cases h with
  | whole hready' hafter =>
      rw [hgave.data_eq, ← List.take_add]
      exact .whole (by omega) (hgave.trans hafter)
  | torn hready' hafter =>
      have hall : front + middle.ready = source.ready := by omega
      have hboth := hgave.trans hafter
      rw [hall] at hboth
      rw [hgave.data_eq, ← List.take_add, hall]
      exact .torn (by omega) hboth

/-- A mapped intake copies the same bytes and maps what becomes of them. -/
theorem Copies.bimap {intake : Intake β α}
    (h : source.Copies boundary count full torn (source.supply boundary intake)) (f : β → γ)
    (g : α → δ) :
    source.Copies boundary count (fun bytes => g (full bytes)) (fun bytes => f (torn bytes))
      (source.supply boundary (intake.bimap f g)) := by
  rw [supply_bimap]
  generalize source.supply boundary intake = run at h
  cases h with
  | whole hready hgave => exact .whole hready hgave
  | torn hready hgave => exact .torn hready hgave

end Source

/-- The type of a byte behind so many boxes. -/
def HostType.boxedByte : (boxes : Nat) → HostType
  | 0 => .byte
  | boxes + 1 => .pointer .owned (boxedByte boxes)

/-- A byte behind so many boxes. -/
def Value.boxedByte : (boxes : Nat) → UInt8 → Value
  | 0, byte => .ofByte byte
  | boxes + 1, byte => .pointer .owned (boxedByte boxes byte)

/-- A vector of bytes, each behind so many boxes. -/
def boxedPayload (boxes : Nat) (data : Bytes) : Value :=
  .sequence .growable (.boxedByte boxes) (data.map (.boxedByte boxes))

/-- The tag gives the elements of an array the type of bytes or of 8-bit numbers, or leaves the
type to the elements. -/
def Tag.CodesBytes (tag : Tag) : Prop :=
  ∀ wire ∈ tag.wire, wire = .any ∨ wire = .byte ∨ wire = .uint8

section boxes

variable (boxes : Nat) (byte : UInt8)

/-- A boxed byte is a byte behind its boxes. -/
@[simp] theorem Value.target_boxedByte : (Value.boxedByte boxes byte).target = .ofByte byte := by
  induction boxes with
  | zero => rfl
  | succ boxes ih => exact ih

/-- Another byte put into the boxes is that byte boxed. -/
@[simp] theorem Value.withTarget_boxedByte (byte' : UInt8) :
    (Value.boxedByte boxes byte).withTarget (.ofByte byte') = .boxedByte boxes byte' := by
  induction boxes with
  | zero => rfl
  | succ boxes ih => exact congrArg (Value.pointer .owned) ih

/-- A boxed byte can be written to. -/
@[simp] theorem Value.isReadOnly_boxedByte : (Value.boxedByte boxes byte).isReadOnly = false := by
  induction boxes with
  | zero => rfl
  | succ boxes ih => exact ih

/-- A boxed byte is represented as a byte. -/
@[simp] theorem Value.natural_boxedByte :
    (Value.boxedByte boxes byte).natural = HostType.byte.natural := by
  induction boxes with
  | zero => rfl
  | succ boxes ih => exact ih

/-- The type of boxed bytes is represented as that of bytes. -/
@[simp] theorem HostType.natural_boxedByte :
    (HostType.boxedByte boxes).natural = HostType.byte.natural := by
  induction boxes with
  | zero => rfl
  | succ boxes ih => exact ih

/-- The default of boxed bytes is a boxed zero. -/
@[simp] theorem Schema.default_boxedByte (schema : Schema) :
    schema.default (.boxedByte boxes) = .boxedByte boxes 0 := by
  induction boxes with
  | zero => rfl
  | succ boxes ih => exact congrArg (Value.pointer .owned) ih

end boxes

namespace Plan

/-- The plan codes a vector of bytes, in boxes or not, as an array of bytes. -/
structure CodesBytes (plan : Plan) : Prop where
  isArray_eq : plan.isArray = true
  indirection_eq : plan.indirection = 0
  wire_eq : plan.wire = .any ∨ plan.wire = .byte ∨ plan.wire = .uint8

variable {plan : Plan}

/-- A vector of bytes stands behind no reference. -/
theorem CodesBytes.isDirect (h : plan.CodesBytes) : plan.IsDirect where
  not_pad hpad := absurd (hpad ▸ h.wire_eq) (by decide)
  not_ignore hignore := absurd (hignore ▸ h.wire_eq) (by decide)
  indirection_eq := h.indirection_eq

/-- Each byte is coded as a byte. -/
theorem CodesBytes.element (h : plan.CodesBytes) (path : Path) (boxes : Nat) (byte : UInt8) :
    plan.element path (.boxedByte boxes byte) = .ok (plan.ofElement .byte) :=
  element_eq h.isDirect.not_pad h.isDirect.not_ignore
    (congrArg Natural.unsized (Value.natural_boxedByte boxes byte)) nofun

/-- The elements of a vector of bytes are single bytes behind no reference. -/
theorem CodesBytes.ofElement (h : plan.CodesBytes) :
    (plan.ofElement .byte).IsDirect ∧ (plan.ofElement .byte).isArray = false ∧
      ((plan.ofElement .byte).wire = .byte ∨ (plan.ofElement .byte).wire = .uint8) := by
  have hwire : (plan.ofElement .byte).wire = .byte ∨ (plan.ofElement .byte).wire = .uint8 := by
    rw [Plan.ofElement]
    by_cases hany : plan.wire = .any
    · rw [hany]
      exact .inr rfl
    · simpa only [if_neg hany] using h.wire_eq.resolve_left hany
  exact ⟨⟨fun hpad => absurd (hpad ▸ hwire) (by decide),
    fun hignore => absurd (hignore ▸ hwire) (by decide), rfl⟩, rfl, hwire⟩

/-- The plan of a vector of bytes is the same for bytes in boxes. -/
theorem resolve_boxedPayload {tag : Tag} (htag : tag.CodesBytes) (path : Path)
    (record : Option Record) (data : Bytes) :
    (∃ error, ∀ boxes, resolve path (boxedPayload boxes data) tag record = .error error) ∨
      ∃ plan, plan.CodesBytes ∧
        ∀ boxes, resolve path (boxedPayload boxes data) tag record = .ok plan := by
  have hnatural (boxes : Nat) : (boxedPayload boxes data).natural =
      .sequence HostType.byte.natural (some data.length) := by
    show Natural.sequence (HostType.boxedByte boxes).natural _ = _
    rw [HostType.natural_boxedByte, List.length_map]
  have hwire (boxes : Nat) : resolveWire path (boxedPayload boxes data) tag.wire =
      .ok (tag.wire.getD .uint8) := by
    unfold resolveWire
    rw [hnatural]
    cases hwire : tag.wire with
    | none => rfl
    | some wire => rcases htag wire hwire with rfl | rfl | rfl <;> rfl
  have harray (boxes : Nat) : resolveArray path (boxedPayload boxes data) tag.brackets record =
      resolveArray path (boxedPayload 0 data) tag.brackets record := by
    unfold resolveArray
    rw [hnatural, hnatural]
  have hplan (boxes : Nat) : resolve path (boxedPayload boxes data) tag record =
      (resolveArray path (boxedPayload 0 data) tag.brackets record >>= fun array =>
        resolveBuffer path tag.bufferLength record >>= fun bufferLength =>
          pure ⟨tag.wire.getD .uint8, array.1, array.2, bufferLength, 0, tag.encoding⟩) := by
    unfold resolve
    rw [hwire, harray, hnatural]
    rfl
  cases hbrackets : resolveArray path (boxedPayload 0 data) tag.brackets record with
  | error error => exact .inl ⟨error, fun boxes => by rw [hplan, hbrackets]; rfl⟩
  | ok array =>
      obtain ⟨isArray, arrayLength⟩ := array
      obtain rfl : isArray = true := by
        unfold resolveArray at hbrackets
        split at hbrackets
        next => cases hbrackets; rfl
        next => cases hbrackets; rfl
        next expr _ =>
          cases hsize : evalSize path expr record with
          | error => rw [hsize] at hbrackets; cases hbrackets
          | ok => rw [hsize] at hbrackets; cases hbrackets; rfl
      cases hbuffer : resolveBuffer path tag.bufferLength record with
      | error error => exact .inl ⟨error, fun boxes => by rw [hplan, hbrackets, hbuffer]; rfl⟩
      | ok bufferLength =>
          refine .inr ⟨⟨tag.wire.getD .uint8, true, arrayLength, bufferLength, 0, tag.encoding⟩,
            ⟨rfl, rfl, ?_⟩, fun boxes => by rw [hplan, hbrackets, hbuffer]; rfl⟩
          show tag.wire.getD .uint8 = _ ∨ _
          cases hwire : tag.wire with
          | none => exact .inr (.inr rfl)
          | some wire => exact htag wire hwire

end Plan

section encoding

variable {settings : Settings} {path : Path} {tag : Tag} {plan : Plan} {room : Nat}

/-- A byte in boxes is encoded as a byte. -/
theorem encodeIn_boxedByte (hdirect : plan.IsDirect) (hsingle : plan.isArray = false)
    (hwire : plan.wire = .byte ∨ plan.wire = .uint8) (room boxes : Nat) (byte : UInt8) :
    encodeIn settings room path (.boxedByte boxes byte) plan = .write path (.data [byte]) := by
  rw [← encodeIn_byte hdirect hsingle hwire room byte]
  exact transparent_encodeIn settings room _ rfl path _ _ plan (Value.target_boxedByte boxes byte)

/-- Bytes that are encoded one by one are these bytes, each of the size of one. -/
theorem yields_encodeElements_boxed (settings : Settings) (path : Path) (room : Nat)
    (hplan : plan.CodesBytes) (boxes : Nat) (data : Bytes) (index : Nat) (last : Option Nat) :
    (encodeElements (encodeBelow settings (room + 1)) path plan index last
        (data.map (.boxedByte boxes))).Yields data (if data = [] then last else some 1) := by
  induction data generalizing index last with
  | nil => exact Emission.yields_ofExcept.2 ⟨rfl, rfl⟩
  | cons byte data ih =>
      obtain ⟨hdirect, hsingle, hwire⟩ := hplan.ofElement
      refine yields_encodeElements_cons.2 ⟨_, _, [byte], data, rfl,
        hplan.element _ boxes byte, ?_, ?_, rfl⟩
      · rw [encodeIn_boxedByte hdirect hsingle hwire]
        exact Emission.yields_write.2 rfl
      · have hrest := ih (index + 1) (some 1)
        rw [ite_self] at hrest
        rw [if_neg (List.cons_ne_nil byte data)]
        exact hrest

/-- Whether at once or one by one, bytes are encoded as these bytes. -/
theorem yields_encodeItems_boxed (settings : Settings) (path : Path) (room : Nat)
    (hplan : plan.CodesBytes) (boxes : Nat) (data : Bytes) :
    ∃ last, (encodeItems (encodeBelow settings (room + 1)) path plan
        ⟨data.map (.boxedByte boxes),
          Value.bytes? (.boxedByte boxes) (data.map (.boxedByte boxes)),
          HostType.byte.natural⟩).Yields data last ∧
      last.getD (staticSize plan.wire HostType.byte.natural) = 1 := by
  have hstatic : staticSize plan.wire HostType.byte.natural = 1 := by
    rcases hplan.wire_eq with hwire | hwire | hwire <;> rw [hwire] <;> rfl
  have hsingly := yields_encodeElements_boxed settings path room hplan boxes data 0 none
  have hlast : (if data = [] then none else some 1 : Option Nat).getD
      (staticSize plan.wire HostType.byte.natural) = 1 := by
    rw [hstatic]
    split <;> rfl
  unfold encodeItems
  cases boxes with
  | succ boxes => exact ⟨_, hsingly, hlast⟩
  | zero =>
      have hbytes : Value.bytes? (.boxedByte 0) (data.map (.boxedByte 0)) = some data :=
        bytes?_payload data
      simp only [hbytes]
      split
      next =>
        refine ⟨some 1, Emission.yields_bind.2 ⟨data, (), [], (List.append_nil _).symm,
          Emission.yields_write.2 rfl, Emission.yields_ofExcept.2 ⟨rfl, rfl⟩⟩, rfl⟩
      next => exact ⟨_, hsingly, hlast⟩

/-- Bytes in boxes are refused as bytes by themselves are, or yield the same: these bytes, and
zeros in the slots that they leave free. -/
theorem encodeAt_boxedPayload (record : Option Record) (htag : tag.CodesBytes)
    (hdepth : path.depth < settings.limits.recursion) (data : Bytes) :
    (∃ error, ∀ boxes,
      encodeAt settings path record tag (boxedPayload boxes data) = .fail error) ∨
    ∃ padding, ∀ boxes, (encodeAt settings path record tag (boxedPayload boxes data)).Yields
      (data ++ Bytes.zeros padding) () := by
  unfold encodeAt
  obtain ⟨error, hplan⟩ | ⟨plan, hcodes, hplan⟩ := Plan.resolve_boxedPayload htag path record data
  · exact .inl ⟨error, fun boxes => by rw [hplan, Emission.ofExcept_error_bind]⟩
  · obtain ⟨room, hroom⟩ := Limits.exists_room hdepth
    have harray (boxes : Nat) :
        (.ofExcept (Plan.resolve path (boxedPayload boxes data) tag record) >>= fun plan =>
          encodeValue settings path (boxedPayload boxes data) plan) =
        encodeArray (encodeBelow settings (room + 1)) path (boxedPayload boxes data) plan := by
      rw [hplan, Emission.ofExcept_ok_bind, encodeValue, hroom, encodeIn_eq,
        hcodes.isDirect.encodeWith_eq, if_pos hcodes.isArray_eq]
    have hof (boxes : Nat) : Elements.of path (boxedPayload boxes data) plan.wire =
        .ok ⟨data.map (.boxedByte boxes),
          Value.bytes? (.boxedByte boxes) (data.map (.boxedByte boxes)),
          HostType.byte.natural⟩ := by
      rw [← HostType.natural_boxedByte boxes]
      rfl
    simp only [harray, encodeArray_eq, hof, Emission.ofExcept_ok_bind, List.length_map]
    by_cases hlong : plan.arrayLength.getD data.length < data.length
    · exact .inl ⟨_, fun boxes => by rw [if_pos hlong]⟩
    · refine .inr ⟨sizeMul (plan.arrayLength.getD data.length - data.length)
        (plan.bufferLength.getD 1), fun boxes => ?_⟩
      obtain ⟨last, hitems, hlast⟩ :=
        yields_encodeItems_boxed settings path room hcodes boxes data
      rw [if_neg hlong]
      refine Emission.yields_bind.2 ⟨data, last, _, rfl, hitems, ?_⟩
      have hslot : (plan.bufferLength <|> last).getD
          (staticSize plan.wire HostType.byte.natural) = plan.bufferLength.getD 1 := by
        cases plan.bufferLength with
        | none => exact hlast
        | some size => rfl
      split
      next => rw [hslot]; exact Emission.yields_write_zeros.2 rfl
      next hfull =>
        rw [show plan.arrayLength.getD data.length - data.length = 0 by omega, sizeMul,
          Nat.zero_mul, Nat.min_zero]
        exact Emission.yields_ofExcept.2 ⟨rfl, rfl⟩

end encoding

namespace Intake

variable {α β γ δ : Type} {intake : Intake β α} {left : β} {full : UInt8 → α}

/-- The intake asks for one byte and ends with what `full` makes of it; without it, `left` stays. -/
def TakesByte (left : β) (full : UInt8 → α) (intake : Intake β α) : Prop :=
  ∃ path next, intake = .read path 1 (fun _ => left) next ∧ ∀ byte, next [byte] = .done (full byte)

/-- A mapped intake takes one byte as well. -/
theorem TakesByte.bimap (h : intake.TakesByte left full) (f : β → γ) (g : α → δ) :
    (intake.bimap f g).TakesByte (f left) fun byte => g (full byte) := by
  obtain ⟨path, next, rfl, hnext⟩ := h
  refine ⟨path, fun bytes => (next bytes).bimap f g, rfl, fun byte => ?_⟩
  simp only [hnext]
  rfl

/-- An intake that goes on without a request takes one byte as well. -/
theorem TakesByte.bind (h : intake.TakesByte left full) {following : α → Intake β γ}
    {full' : UInt8 → γ} (hfollowing : ∀ byte, following (full byte) = .done (full' byte)) :
    (intake >>= following).TakesByte left full' := by
  obtain ⟨path, next, rfl, hnext⟩ := h
  refine ⟨path, fun bytes => next bytes >>= following, rfl, fun byte => ?_⟩
  simp only [hnext]
  exact hfollowing byte

/-- How an intake fares that takes a byte first. -/
theorem TakesByte.exists_supply (h : intake.TakesByte left full) (following : α → Intake β γ)
    {source : Source} (hsource : source.pace.Progresses) (boundary : Nat) :
    (∃ byte after, 1 ≤ source.ready ∧ source.Gave 1 after ∧ source.data.take 1 = [byte] ∧
      source.supply boundary (intake >>= following) =
        after.supply boundary (following (full byte))) ∨
    ∃ path after, source.ready = 0 ∧ source.Gave 0 after ∧
      source.supply boundary (intake >>= following) =
        (.error (after.ending boundary path, left), after) := by
  obtain ⟨path, next, rfl, hnext⟩ := h
  obtain ⟨after, hgave, hsupply⟩ := Source.exists_supply_read boundary path 1 (fun _ => left)
    (fun bytes => next bytes >>= following) hsource
  rw [read_bind, hsupply]
  have hle := source.ready_le
  by_cases hready : 1 ≤ source.ready
  · obtain ⟨byte, hbyte⟩ : ∃ byte, source.data.take 1 = [byte] :=
      List.length_eq_one_iff.1 (by rw [List.length_take]; omega)
    rw [Nat.min_eq_left hready] at hgave
    rw [if_pos hready, hbyte, hnext, done_bind]
    exact .inl ⟨byte, after, hready, hgave, rfl, rfl⟩
  · have hnone : source.ready = 0 := by omega
    rw [hnone, Nat.min_zero] at hgave
    rw [if_neg hready]
    exact .inr ⟨path, after, hnone, hgave, rfl⟩

end Intake

section decoding

variable {settings : Settings} {path : Path} {tag : Tag} {plan : Plan} {room : Nat}
  {source : Source}

/-- Every byte is a byte, or an 8-bit number. -/
theorem takesByte_decodeScalar (settings : Settings) (path : Path) {wire : WireType}
    (hwire : wire = .byte ∨ wire = .uint8) :
    (decodeScalar settings path wire (.int .u8)).TakesByte () Scalar.ofByte := by
  have hbytes : (Intake.bytes path 1).TakesByte () fun byte => [byte] :=
    ⟨path, .done, rfl, fun _ => rfl⟩
  have himage : (readImage settings path 1).TakesByte () fun byte => UInt64.ofNat byte.toNat := by
    refine hbytes.bind fun byte => ?_
    have hget : settings.order.get [byte] = .ok (UInt64.ofNat byte.toNat) := by
      cases settings.order <;> simp [ByteOrder.get, ByteOrder.toNat, Bytes.toNat, isScalarWidth]
    rw [hget]
    rfl
  rw [decodeScalar, (WireType.size_of_bulk hwire).2]
  refine himage.bind fun byte => ?_
  have hscalar : (ScalarType.int .u8).ofImage wire (UInt64.ofNat byte.toNat) =
      .ok (.ofByte byte) := by
    obtain ⟨image, hexact, hvalue⟩ := Scalar.toImage_ofByte hwire byte
    refine ScalarType.ofImage_toImage ?_ hexact ?_
    · rcases hwire with rfl | rfl <;> rfl
    · rw [← hvalue, UInt64.ofNat_toNat]
  rw [hscalar]
  rfl

/-- A byte in boxes is decoded from a byte and stays in its boxes. -/
theorem takesByte_decodeIn_boxed (schema : Schema) (hdirect : plan.IsDirect)
    (hsingle : plan.isArray = false) (hwire : plan.wire = .byte ∨ plan.wire = .uint8)
    (room boxes : Nat) (place : UInt8) :
    (decodeIn schema settings room path (.boxedByte boxes place) plan).TakesByte
      (.boxedByte boxes place) (.boxedByte boxes) := by
  have hnumeric := (WireType.size_of_bulk hwire).1
  rw [decodeIn_eq, hdirect.decodeWith_eq, hsingle, if_neg Bool.false_ne_true]
  simp only [decodeLeaf, Value.isReadOnly_boxedByte, Bool.false_eq_true, if_false,
    Value.target_boxedByte, Value.ofByte, if_pos hnumeric]
  refine ((takesByte_decodeScalar settings path hwire).bimap _ _).bind fun byte => ?_
  exact congrArg Intake.done (Value.withTarget_boxedByte boxes place byte)

/-- Bytes that are decoded one by one are copied. -/
theorem copies_decodeElements (schema : Schema) (settings : Settings) (path : Path)
    (hplan : plan.CodesBytes) (room boxes boundary index : Nat) (places : Bytes)
    (decoded : List Value) (hsource : source.pace.Progresses) :
    source.Copies boundary places.length
      (fun bytes => decoded.reverse ++ bytes.map (.boxedByte boxes))
      (fun bytes => decoded.reverse ++ (bytes ++ places.drop bytes.length).map (.boxedByte boxes))
      (source.supply boundary (decodeElements (decodeBelow schema settings (room + 1)) path plan
        index decoded (places.map (.boxedByte boxes)))) := by
  induction places generalizing source index decoded with
  | nil =>
      have hnone := Source.copies_nil hsource boundary
        (fun bytes => decoded.reverse ++ bytes.map (.boxedByte boxes))
        (fun bytes => decoded.reverse ++ (bytes ++ []).map (.boxedByte boxes))
      simpa only [List.map_nil, List.append_nil, List.drop_nil, List.length_nil, decodeElements,
        Source.supply] using hnone
  | cons place places ih =>
      obtain ⟨hdirect, hsingle, hwire⟩ := hplan.ofElement
      have helement : (decodeElement (decodeBelow schema settings (room + 1)) path plan index
          (.boxedByte boxes place)).TakesByte (.boxedByte boxes place) (.boxedByte boxes) := by
        simp only [decodeElement, decodeBelow, hplan.element]
        exact takesByte_decodeIn_boxed schema hdirect hsingle hwire room boxes place
      rw [List.map_cons, decodeElements]
      rcases (helement.bimap _ _).exists_supply _ hsource boundary with
        ⟨byte, after, hready, hgave, hbyte, hsupply⟩ | ⟨itemPath, after, hnone, hgave, hsupply⟩
      · rw [hsupply, List.length_cons, Nat.add_comm]
        refine .prepend hready hgave ?_
        have hrest := ih (index + 1) (.boxedByte boxes byte :: decoded) hgave.progresses
        simpa only [hbyte, List.reverse_cons, List.append_assoc, List.cons_append, List.nil_append,
          List.length_cons, List.drop_succ_cons, List.map_cons, id] using hrest
      · rw [hsupply, List.reverseAux_eq]
        exact Source.copies_ended hnone (Nat.succ_pos _) hgave boundary itemPath _
          (fun bytes => decoded.reverse ++ (bytes ++ (place :: places).drop bytes.length).map
            (.boxedByte boxes))

/-- Whether at once or one by one, bytes are copied. -/
theorem copies_decodeItems (schema : Schema) (settings : Settings) (path : Path)
    (hplan : plan.CodesBytes) (room boxes boundary : Nat) (places : Bytes)
    (hsource : source.pace.Progresses) :
    source.Copies boundary places.length (fun bytes => bytes.map (.boxedByte boxes))
      (fun bytes => (bytes ++ places.drop bytes.length).map (.boxedByte boxes))
      (source.supply boundary (decodeItems (decodeBelow schema settings (room + 1)) path plan
        (.boxedByte boxes) (places.map (.boxedByte boxes)))) := by
  have hsingly :=
    copies_decodeElements schema settings path hplan room boxes boundary 0 places [] hsource
  simp only [List.reverse_nil, List.nil_append] at hsingly
  unfold decodeItems
  split
  next hbulk =>
    cases boxes with
    | succ boxes => cases hbulk.1
    | zero =>
        rw [List.length_map]
        simp only [List.map_append, List.map_drop]
        exact Source.copies_read boundary path places.length _ _ hsource
  next => exact hsingly

/-- A vector of bytes becomes as long as there are slots before bytes are copied into it. -/
theorem decodeAt_boxedPayload (schema : Schema) {record : Option Record} {boxes : Nat}
    {data : Bytes} (hcodes : plan.CodesBytes) (hroom : settings.limits.room path = room + 1)
    (hplan : Plan.resolve path (boxedPayload boxes data) tag record = .ok plan) :
    decodeAt schema settings path record tag (boxedPayload boxes data) =
      match settings.limits.checkCollect path (plan.arrayLength.getD data.length) with
      | .error error => .fail error (boxedPayload boxes data)
      | .ok () =>
          (decodeItems (decodeBelow schema settings (room + 1)) path plan (.boxedByte boxes)
            ((data.resized (plan.arrayLength.getD data.length)).map (.boxedByte boxes))).within
              (.sequence .growable (.boxedByte boxes)) := by
  have hvector := decodeArray_vector schema settings (decodeBelow schema settings (room + 1)) path
    plan (.boxedByte boxes) (data.map (.boxedByte boxes))
  rw [List.length_map, Schema.default_boxedByte, resized_map] at hvector
  rw [decodeAt, hplan]
  show decodeIn schema settings (settings.limits.room path) path _ plan = _
  rw [hroom, decodeIn_eq, hcodes.isDirect.decodeWith_eq, if_pos hcodes.isArray_eq]
  exact hvector

/-- Bytes in boxes are refused as bytes by themselves are, or copied: into as many places as there
are slots, the ones behind those that were copied keeping what they held. -/
theorem copies_decodeAt (schema : Schema) (record : Option Record) (htag : tag.CodesBytes)
    (hdepth : path.depth < settings.limits.recursion) (data : Bytes) :
    (∃ error, ∀ boxes, decodeAt schema settings path record tag (boxedPayload boxes data) =
      .fail error (boxedPayload boxes data)) ∨
    ∃ slots, ∀ (boxes boundary : Nat) (source : Source), source.pace.Progresses →
      source.Copies boundary slots (boxedPayload boxes)
        (fun bytes => boxedPayload boxes (bytes ++ (data.resized slots).drop bytes.length))
        (source.supply boundary
          (decodeAt schema settings path record tag (boxedPayload boxes data))) := by
  obtain ⟨error, hplan⟩ | ⟨plan, hcodes, hplan⟩ := Plan.resolve_boxedPayload htag path record data
  · exact .inl ⟨error, fun boxes => by rw [decodeAt, hplan]⟩
  · obtain ⟨room, hroom⟩ := Limits.exists_room hdepth
    have hdecode (boxes : Nat) := decodeAt_boxedPayload schema hcodes hroom (hplan boxes)
    simp only [hdecode]
    cases settings.limits.checkCollect path (plan.arrayLength.getD data.length) with
    | error error => exact .inl ⟨error, fun boxes => rfl⟩
    | ok =>
        refine .inr ⟨plan.arrayLength.getD data.length, fun boxes boundary source hsource => ?_⟩
        have hitems := copies_decodeItems schema settings path hcodes room boxes boundary
          (data.resized (plan.arrayLength.getD data.length)) hsource
        rw [Bytes.length_resized] at hitems
        exact hitems.bimap _ _

end decoding

/-- Emissions that yield the same bytes have the same effect on a sink that takes bytes in every
call, and end in the same way, but for the place of the write that was refused. -/
theorem Encoder.run_of_same_bytes {α : Type} {emission emission' : Emission α} {bytes : Bytes}
    {result : α} (h : emission.Yields bytes result) (h' : emission'.Yields bytes result)
    (encoder : Encoder) (hpace : encoder.sink.pace.Progresses) :
    (encoder.run emission').2.output = (encoder.run emission).2.output ∧
      (encoder.run emission').2.position = (encoder.run emission).2.position ∧
      (encoder.run emission').1.mapError Error.unplaced =
        (encoder.run emission).1.mapError Error.unplaced := by
  have hstores : encoder.sink.Stores (Sink.IsRefusal encoder.sink.refusal) bytes
      (encoder.sink.absorb emission.writes) := h.2 ▸ Sink.stores_absorb _ _ hpace
  have hstores' : encoder.sink.Stores (Sink.IsRefusal encoder.sink.refusal) bytes
      (encoder.sink.absorb emission'.writes) := h'.2 ▸ Sink.stores_absorb _ _ hpace
  unfold run output position
  rw [h.1, h'.1]
  generalize encoder.sink.absorb emission.writes = taken at hstores ⊢
  generalize encoder.sink.absorb emission'.writes = taken' at hstores' ⊢
  cases hstores with
  | whole hfits htook =>
      cases hstores' with
      | whole _ htook' =>
          exact ⟨htook'.held_eq.trans htook.held_eq.symm,
            htook'.position_eq.trans htook.position_eq.symm, rfl⟩
      | torn _ hfull => exact absurd hfits hfull
  | torn herror hfull htook =>
      cases hstores' with
      | whole hfits => exact absurd hfits hfull
      | torn herror' _ htook' =>
          obtain ⟨_, rfl⟩ := herror
          obtain ⟨_, rfl⟩ := herror'
          exact ⟨htook'.held_eq.trans htook.held_eq.symm,
            htook'.position_eq.trans htook.position_eq.symm, rfl⟩

/-- Sources that delivered the same bytes end an intake in the same way, but for the place of the
request. -/
theorem Source.Gave.unplaced_ending {source after after' : Source} {count : Nat}
    (h : source.Gave count after) (h' : source.Gave count after') (boundary : Nat)
    (path path' : Path) :
    (after'.ending boundary path').unplaced = (after.ending boundary path).unplaced := by
  unfold ending breaks shortage
  rw [h'.failure_eq, h'.position_eq, h.failure_eq, h.position_eq]
  split
  · rfl
  · split <;> rfl

/-- Calls that copy the same bytes leave the same bytes, in boxes or not, and end at the same
position and in the same way. -/
theorem Decoder.conclude_of_copies (decoder : Decoder) {boundary slots boxes boxes' : Nat}
    {torn : Bytes → Bytes} {run run' : Except (Error × Value) Value × Source}
    (h : decoder.source.Copies boundary slots (boxedPayload boxes)
      (fun bytes => boxedPayload boxes (torn bytes)) run)
    (h' : decoder.source.Copies boundary slots (boxedPayload boxes')
      (fun bytes => boxedPayload boxes' (torn bytes)) run') :
    (∃ left, (decoder.conclude boundary run).1.value = boxedPayload boxes left ∧
      (decoder.conclude boundary run').1.value = boxedPayload boxes' left) ∧
    (decoder.conclude boundary run').2.position = (decoder.conclude boundary run).2.position ∧
    (decoder.conclude boundary run').2.source.data =
      (decoder.conclude boundary run).2.source.data ∧
    (decoder.conclude boundary run').1.outcome.mapError Error.unplaced =
      (decoder.conclude boundary run).1.outcome.mapError Error.unplaced := by
  cases h with
  | whole hready hgave =>
      cases h' with
      | whole _ hgave' =>
          have hposition := hgave'.position_eq.trans hgave.position_eq.symm
          refine ⟨⟨_, rfl, rfl⟩, hposition, hgave'.data_eq.trans hgave.data_eq.symm, ?_⟩
          simp only [conclude, hposition]
      | torn hshort => omega
  | torn hshort hgave =>
      cases h' with
      | whole hready => omega
      | torn _ hgave' =>
          exact ⟨⟨_, rfl, rfl⟩, hgave'.position_eq.trans hgave.position_eq.symm,
            hgave'.data_eq.trans hgave.data_eq.symm,
            congrArg Except.error (hgave.unplaced_ending hgave' _ _ _)⟩

/-- A vector of bytes is coded at once, one of bytes in boxes byte by byte, which makes no
difference but for the place of an error, on devices that move bytes in every call. If they hold the
same bytes, they are encoded to the same bytes, with the same result or error. If they held the same
bytes, any input, also one that ends or fails in their midst, is decoded to the same bytes in both,
with the same result or error and up to the same position. -/
theorem boxed_as_payload (path : Path) (record : Option Record) {tag : Tag}
    (htag : tag.CodesBytes) (boxes : Nat) :
    (∀ (encoder : Encoder) (data : Bytes), encoder.sink.pace.Progresses →
      path.depth < encoder.settings.limits.recursion →
      let atOnce := encoder.encodeAt path record tag (payload data)
      let singly := encoder.encodeAt path record tag (boxedPayload boxes data)
      singly.2.output = atOnce.2.output ∧
      singly.2.position = atOnce.2.position ∧
      singly.1.mapError Error.unplaced = atOnce.1.mapError Error.unplaced) ∧
    ∀ (decoder : Decoder) (data : Bytes), decoder.source.pace.Progresses →
      path.depth < decoder.settings.limits.recursion →
      let atOnce := decoder.decodeAt path record tag (payload data)
      let singly := decoder.decodeAt path record tag (boxedPayload boxes data)
      (∃ left, atOnce.1.value = payload left ∧ singly.1.value = boxedPayload boxes left) ∧
      singly.2.position = atOnce.2.position ∧
      singly.2.source.data = atOnce.2.source.data ∧
      singly.1.outcome.mapError Error.unplaced = atOnce.1.outcome.mapError Error.unplaced := by
  have hplain (data : Bytes) : payload data = boxedPayload 0 data := rfl
  refine ⟨?_, ?_⟩
  · intro encoder data hpace hdepth
    rcases encodeAt_boxedPayload record htag hdepth data with ⟨error, hfail⟩ | ⟨padding, hyields⟩
    · rw [Encoder.encodeAt, Encoder.encodeAt, hfail, hplain, hfail]
      exact ⟨rfl, rfl, rfl⟩
    · exact Encoder.run_of_same_bytes (Emission.yields_sized.2 ⟨(), hyields 0, rfl⟩)
        (Emission.yields_sized.2 ⟨(), hyields boxes, rfl⟩) encoder hpace
  · intro decoder data hpace hdepth
    rcases copies_decodeAt decoder.schema record htag hdepth data with
      ⟨error, hfail⟩ | ⟨slots, hcopies⟩
    · rw [Decoder.decodeAt, Decoder.decodeAt, hfail, hplain, hfail]
      exact ⟨⟨data, rfl, rfl⟩, rfl, rfl, rfl⟩
    · exact decoder.conclude_of_copies (hcopies 0 decoder.boundary decoder.source hpace)
        (hcopies boxes decoder.boundary decoder.source hpace)

/-- Three bytes in boxes, for an array of four. A sink takes the first two of them, and a source
replaces the first two. -/
theorem boxed_as_payload_torn :
    let tag : Tag := ⟨some .byte, .length (.ofNat 4), none, none⟩
    let settings : Settings := ⟨.bigEndian, {}, .empty⟩
    let encoder : Encoder :=
      ⟨settings, ⟨Encoder.dripping, some 2, .device "full", none, #[], 0⟩⟩
    let decoder : Decoder :=
      ⟨[], settings, ⟨Decoder.halting, some (2, .device "lost"), [1, 2, 3, 4], 0⟩, 0⟩
    tag.CodesBytes ∧ Encoder.dripping.Progresses ∧ Decoder.halting.Progresses ∧
    Path.top.depth < settings.limits.recursion ∧
    (encoder.encodeAt .top none tag (boxedPayload 1 [7, 8, 9])).2.output = [7, 8] ∧
    (decoder.decodeAt .top none tag (payload [7, 8, 9])).1.value = payload [1, 2, 9, 0] ∧
    (decoder.decodeAt .top none tag (boxedPayload 1 [7, 8, 9])).1.value =
      boxedPayload 1 [1, 2, 9, 0] ∧
    (decoder.decodeAt .top none tag (boxedPayload 1 [7, 8, 9])).2.position = 2 ∧
    (decoder.decodeAt .top none tag (boxedPayload 1 [7, 8, 9])).1.outcome.mapError Error.unplaced =
      .error (.located .top (.transfer (.device "lost"))) := by
  intro tag settings encoder decoder
  have htag : tag.CodesBytes := by
    rintro wire ⟨⟩
    exact .inr (.inl rfl)
  have hdepth : Path.top.depth < settings.limits.recursion := by decide
  have hwritten : (encoder.encodeAt .top none tag (payload [7, 8, 9])).2.output = [7, 8] := by cbv
  have hvalue : (decoder.decodeAt .top none tag (payload [7, 8, 9])).1.value =
      payload [1, 2, 9, 0] := by cbv
  have hboxed : (decoder.decodeAt .top none tag (boxedPayload 1 [7, 8, 9])).1.value =
      boxedPayload 1 [1, 2, 9, 0] := by cbv
  have hposition : (decoder.decodeAt .top none tag (payload [7, 8, 9])).2.position = 2 := by cbv
  have hlost : (decoder.decodeAt .top none tag (payload [7, 8, 9])).1.outcome.mapError
      Error.unplaced = .error (.located .top (.transfer (.device "lost"))) := by cbv
  obtain ⟨hencode, hdecode⟩ := boxed_as_payload .top none htag 1
  obtain ⟨houtput, -, -⟩ := hencode encoder [7, 8, 9] Encoder.dripping_progresses hdepth
  obtain ⟨-, hsame, -, hend⟩ := hdecode decoder [7, 8, 9] Decoder.halting_progresses hdepth
  exact ⟨htag, Encoder.dripping_progresses, Decoder.halting_progresses, hdepth,
    houtput.trans hwritten, hvalue, hboxed, hsame.trans hposition, hend.trans hlost⟩

end PackedRecord
