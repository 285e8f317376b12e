import PackedRecord.Proofs.Vectors
import PackedRecord.Proofs.ScalarRoundTrip

/-!
# Payloads behind their count

A record of a count and as many bytes is framed by the count that went over the wire.
`unpack_pack_counted` says what comes back of it: everything, if the count fits into the width of
its wire type. A count can be greater only on a bitmap, which carries its low bytes; then these say
how much of the payload is read.
-/

namespace PackedRecord

/-- Whether the wire type is an integer type or a bitmap. -/
def WireType.isCount (wire : WireType) : Bool :=
  match wire.kind with
  | .signed | .unsigned | .bitmap => true
  | _ => false

/-- The wire type of a count is numeric. -/
theorem WireType.isNumeric_of_isCount {wire : WireType} (hwire : wire.isCount = true) :
    wire.isNumeric = true := by
  unfold isCount at hwire
  unfold isNumeric
  cases hkind : wire.kind <;> simp_all

/-- The wire type of a count is neither padding nor ignored. -/
theorem WireType.ne_of_isCount {wire : WireType} (hwire : wire.isCount = true) :
    wire ≠ .pad ∧ wire ≠ .ignore := by
  constructor
  all_goals
    rintro rfl
    cases hwire

section count

variable {count : HostInt} {wire : WireType} {image image' : UInt64}

/-- A count that an integer wire type takes fits into its width. -/
theorem lt_of_toImage_integer (hkind : wire.kind = .signed ∨ wire.kind = .unsigned)
    (himage : (Scalar.int count).toImage wire = .ok image) : count.value < 256 ^ wire.byteSize := by
  obtain ⟨-, least, greatest, hrange, -, hgreatest⟩ := Scalar.toImage_integer rfl hkind himage
  have hpos : (0 : Int) < 256 ^ wire.byteSize := by positivity
  rcases hkind with hkind | hkind
  · obtain ⟨_, _, hrange', -, htwice⟩ := WireType.range_of_signed hkind
    cases hrange.symm.trans hrange'
    omega
  · obtain ⟨_, hrange', hsucc⟩ := WireType.range_of_unsigned hkind
    cases hrange.symm.trans hrange'
    omega

/-- An integer that is not negative fits into the width of its type. -/
theorem HostInt.lt_width (count : HostInt) : count.value < 256 ^ count.type.width := by
  have hholds := count.holds
  have hpos : (0 : Int) < 256 ^ count.type.width := by positivity
  rw [count.type.holds_iff] at hholds
  split at hholds <;> omega

/-- A count that does not fit into the width of a wire type that takes it is on a bitmap that is
narrower than its type. -/
theorem bitmap_of_le_count (hwire : wire.isCount = true)
    (himage : (Scalar.int count).toImage wire = .ok image)
    (hlarge : 256 ^ wire.byteSize ≤ count.value) :
    wire.kind = .bitmap ∧ wire.byteSize < count.type.width := by
  have hbitmap : wire.kind = .bitmap := by
    unfold WireType.isCount at hwire
    split at hwire
    next hkind => exact absurd hlarge (lt_of_toImage_integer (.inl hkind) himage).not_ge
    next hkind => exact absurd hlarge (lt_of_toImage_integer (.inr hkind) himage).not_ge
    next hkind => exact hkind
    next => cases hwire
  refine ⟨hbitmap, ?_⟩
  by_contra hwide
  have hpower : (256 : Int) ^ count.type.width ≤ 256 ^ wire.byteSize :=
    pow_le_pow_right₀ (by decide) (not_lt.1 hwide)
  exact absurd (hpower.trans hlarge) count.lt_width.not_ge

/-- A remainder is no greater than the number that it is left of. -/
theorem emod_le_self {value modulus : Int} (hnonneg : 0 ≤ value) (hpos : 0 < modulus) :
    value % modulus ≤ value := by
  have hquotient : 0 ≤ modulus * (value / modulus) :=
    Int.mul_nonneg hpos.le (Int.ediv_nonneg hnonneg hpos.le)
  rw [Int.emod_def]
  omega

/-- The residue of an integer that is not negative is of the same type. -/
theorem HostInt.holds_emod (count : HostInt) (hnonneg : 0 ≤ count.value) {modulus : Int}
    (hpos : 0 < modulus) : count.type.Holds (count.value % modulus) :=
  ⟨count.type.holds_zero.1.trans (Int.emod_nonneg _ hpos.ne'),
    (emod_le_self hnonneg hpos).trans count.holds.2⟩

/-- A bitmap that is narrower than a count gives back its low bytes. -/
theorem ofImage_bitmap (hnonneg : 0 ≤ count.value) (hkind : wire.kind = .bitmap)
    (hnarrow : wire.byteSize < count.type.width)
    (hlow : ((image'.toNat % 256 ^ wire.byteSize : Nat) : Int) =
      count.value % 256 ^ wire.byteSize) :
    ∃ restored : HostInt, restored.type = count.type ∧
      restored.value = count.value % 256 ^ wire.byteSize ∧
      (ScalarType.int count.type).ofImage wire image' = .ok (.int restored) := by
  have hpos : (0 : Int) < 256 ^ wire.byteSize := by positivity
  let restored : HostInt :=
    ⟨count.type, count.value % 256 ^ wire.byteSize, count.holds_emod hnonneg hpos⟩
  have hnumber : (ScalarType.int count.type).numberIn wire image' = .ok (.int restored.value) := by
    have hwide : ¬ ((ScalarType.int count.type).isSigned = true ∧
        (ScalarType.int count.type).width ≤ wire.byteSize) := fun h => absurd h.2 (by
      show ¬ count.type.width ≤ wire.byteSize
      omega)
    simp only [ScalarType.numberIn, hkind, ScalarType.ofBitmap?, if_neg hwide, hlow, restored]
  refine ⟨restored, rfl, rfl, ?_⟩
  rw [ScalarType.ofImage, hnumber]
  exact @ScalarType.ofNumber_int (.int restored) _ rfl

/-- A wire type that takes a count gives back its low bytes. -/
theorem ofImage_count (hnonneg : 0 ≤ count.value) (hwire : wire.isCount = true)
    (himage : (Scalar.int count).toImage wire = .ok image)
    (hlow : image'.toNat % 256 ^ wire.byteSize = image.toNat % 256 ^ wire.byteSize) :
    ∃ restored : HostInt, restored.type = count.type ∧
      restored.value = count.value % 256 ^ wire.byteSize ∧
      (ScalarType.int count.type).ofImage wire image' = .ok (.int restored) := by
  have hexact (hfits : count.value < 256 ^ wire.byteSize)
      (hexact : (Scalar.int count).type.isExactAs wire = true) :
      ∃ restored : HostInt, restored.type = count.type ∧
        restored.value = count.value % 256 ^ wire.byteSize ∧
        (ScalarType.int count.type).ofImage wire image' = .ok (.int restored) :=
    ⟨count, rfl, (Int.emod_eq_of_lt hnonneg hfits).symm,
      ScalarType.ofImage_toImage hexact himage hlow⟩
  unfold WireType.isCount at hwire
  split at hwire
  next hkind =>
    refine hexact (lt_of_toImage_integer (.inl hkind) himage) ?_
    simp [Scalar.type, ScalarType.isExactAs, hkind]
  next hkind =>
    refine hexact (lt_of_toImage_integer (.inr hkind) himage) ?_
    simp [Scalar.type, ScalarType.isExactAs, hkind]
  next hkind =>
    obtain ⟨hwidth, rfl⟩ := Scalar.toImage_bitmap hkind himage
    rcases Nat.eq_or_lt_of_le hwidth with hsame | hnarrow
    · refine hexact (hsame ▸ count.lt_width) ?_
      simp [Scalar.type, ScalarType.isExactAs, hkind, hsame]
    · refine ofImage_bitmap hnonneg hkind hnarrow ?_
      rw [hlow, toNat_imageOfInt wire.byteSize_le,
        Int.emod_emod_of_dvd _ (Int.dvd_refl _)]
  next => cases hwire

/-- The bytes of a count stand for its low bytes. -/
theorem accepts_decodeScalar_count {settings : Settings} {path : Path} {bytes : Bytes}
    (hnonneg : 0 ≤ count.value) (hwire : wire.isCount = true)
    (himage : (Scalar.int count).toImage wire = .ok image)
    (h : (emitImage settings path wire.byteSize image).Yields bytes ()) :
    bytes.length = wire.byteSize ∧ ∃ restored : HostInt, restored.type = count.type ∧
      restored.value = count.value % 256 ^ wire.byteSize ∧ ∀ path',
        (decodeScalar settings path' wire (.int count.type)).Accepts bytes (.int restored) := by
  have hlow : (UInt64.ofNat (image.toNat % 256 ^ wire.byteSize)).toNat % 256 ^ wire.byteSize =
      image.toNat % 256 ^ wire.byteSize := by
    have hlt : image.toNat % 256 ^ wire.byteSize < 2 ^ 64 :=
      Nat.lt_of_le_of_lt (Nat.mod_le _ _) image.toNat_lt
    rw [UInt64.toNat_ofNat', Nat.mod_eq_of_lt hlt, Nat.mod_mod]
  obtain ⟨restored, htype, hvalue, hrestored⟩ := ofImage_count hnonneg hwire himage hlow
  refine ⟨(accepts_readImage path h).1, restored, htype, hvalue, ?_⟩
  intro path'
  refine (accepts_readImage path' h).2.bind_done ?_
  rw [hrestored]
  exact ⟨rfl, rfl⟩

end count

/-- The size expression that names the count. -/
def countSize : SizeExpr := ⟨"n", [⟨false, .field 0 "n"⟩]⟩

/-- The tag of the payload. -/
def payloadTag : Tag := ⟨none, .length countSize, none, none⟩

/-- The plan for a count. -/
def Plan.count (wire : WireType) : Plan := ⟨wire, false, none, none, 0, none⟩

/-- The plan for a payload of so many bytes. -/
def Plan.payload (slots : Nat) : Plan := ⟨.uint8, true, some slots, none, 0, none⟩

/-- A record type with a count on the wire type and as many bytes. -/
def countedLayout (name : String) (wire : WireType) : Layout :=
  .build name [⟨"n", wire.name, true⟩, ⟨"data", "[n]", true⟩]

/-- The record type with a count of the integer type. -/
def countedType (name : String) (wire : WireType) (type : IntType) : RecordType :=
  ⟨countedLayout name wire, [.scalar (.int type), .vector .byte]⟩

/-- A payload. -/
def payload (data : Bytes) : Value := .sequence .growable .byte (data.map Value.ofByte)

/-- The fields of a record of a count and a payload. -/
def counted (count : HostInt) (data : Bytes) : List Value :=
  [.scalar (.int count), payload data]

/-- A record of a count and a payload. -/
def countedValue (name : String) (wire : WireType) (count : HostInt) (data : Bytes) : Value :=
  .record (countedLayout name wire) (counted count data)

/-- The fields are a count on the wire type and a payload that it counts. -/
theorem fields_countedLayout {wire : WireType} (hwire : wire.isCount = true) (name : String) :
    (countedLayout name wire).fields =
      [⟨"n", true, .ok ⟨some wire, .absent, none, none⟩⟩, ⟨"data", true, .ok payloadTag⟩] := by
  cases wire with
  | any => cases hwire
  | _ => cbv

/-- The default of such a record type is zero and no bytes. -/
theorem default_counted {schema : Schema} {key name : String} {wire : WireType} {type : IntType}
    (hkey : schema.lookup key = some (countedType name wire type)) :
    schema.default (.record key) = countedValue name wire ⟨type, 0, type.holds_zero⟩ [] := by
  cases schema with
  | nil => cases hkey
  | cons entry schema =>
      show Schema.defaultRecord (entry :: schema) (schema.length + 1) key = _
      rw [Schema.defaultRecord, hkey]
      rfl

section sizes

variable {path : Path} {layout : Layout} {count : HostInt} {data : Bytes} {slots : Nat}

/-- The size expression has the value of the count, if that fits into 64 bits. -/
theorem eval_countSize :
    (int64Min ≤ count.value ∧ count.value ≤ int64Max →
      countSize.eval (some ⟨layout, counted count data⟩) = .ok count.value) ∧
    (¬ (int64Min ≤ count.value ∧ count.value ≤ int64Max) →
      ∃ error, countSize.eval (some ⟨layout, counted count data⟩) = .error error) := by
  have hfield : Record.field ⟨layout, counted count data⟩ 0 = .ok (.scalar (.int count)) := rfl
  have hsize : (Value.scalar (.int count)).size? = int64? count.value := rfl
  simp only [SizeExpr.eval, countSize, SizeExpr.sumFrom, SizeExpr.operandValue, hfield, hsize]
  constructor
  · intro hfits
    simp [int64?, hfits]
  · intro hlarge
    simp [int64?, hlarge]

/-- The count is the size of the payload, if it is one. -/
theorem evalSize_count :
    Plan.evalSize path countSize (some ⟨layout, counted count data⟩) = .ok slots ↔
      0 ≤ count.value ∧ count.value ≤ int64Max ∧ count.value = slots := by
  have hleast : int64Min ≤ 0 := by decide
  obtain ⟨hsmall, hlarge⟩ := @eval_countSize layout count data
  rw [Plan.evalSize]
  by_cases hfits : int64Min ≤ count.value ∧ count.value ≤ int64Max
  · rw [hsmall hfits]
    simp only
    by_cases hneg : count.value < 0
    · rw [if_pos hneg]
      exact iff_of_false (by simp) fun h => absurd h.1 (not_le.2 hneg)
    · rw [if_neg hneg, Except.ok.injEq]
      omega
  · obtain ⟨error, herror⟩ := hlarge hfits
    rw [herror]
    exact iff_of_false (by simp) fun h => absurd ⟨hleast.trans h.1, h.2.1⟩ hfits

/-- A count is planned as a single number of the wire type. -/
theorem resolve_count (path : Path) (count : HostInt) (wire : WireType)
    (record : Option Record) :
    Plan.resolve path (.scalar (.int count)) ⟨some wire, .absent, none, none⟩ record =
      .ok (.count wire) := by
  cases wire <;> rfl

/-- A payload is planned as many bytes as its count says. -/
theorem resolve_payload (path : Path) (data : Bytes) (record : Option Record) :
    Plan.resolve path (payload data) payloadTag record =
      (Plan.evalSize path countSize record).map .payload := by
  rw [Plan.resolve, payloadTag, Plan.resolveArray]
  cases Plan.evalSize path countSize record <;> rfl

end sizes

/-- Bytes as values are these bytes. -/
theorem bytes?_payload (data : Bytes) : Value.bytes? .byte (data.map Value.ofByte) = some data := by
  show (data.map Value.ofByte).mapM Value.byte? = some data
  induction data with
  | nil => rfl
  | cons byte data ih =>
      have hbyte : (Value.ofByte byte).byte? = some byte := Scalar.byte?_ofByte byte
      rw [List.map_cons, List.mapM_cons, hbyte, ih]
      rfl

section coding

variable {schema : Schema} {settings : Settings} {room : Nat} {path : Path} {count : HostInt}
  {wire : WireType} {data bytes : Bytes} {slots : Nat}

/-- A payload stands behind no reference. -/
theorem payload_isDirect (slots : Nat) : (Plan.payload slots).IsDirect := ⟨nofun, nofun, rfl⟩

/-- A count stands behind no reference. -/
theorem count_isDirect (hwire : wire.isCount = true) : (Plan.count wire).IsDirect :=
  ⟨(WireType.ne_of_isCount hwire).1, (WireType.ne_of_isCount hwire).2, rfl⟩

/-- A count is encoded as its image. -/
theorem yields_encode_count (hwire : wire.isCount = true)
    (h : (encodeIn settings room path (.scalar (.int count)) (.count wire)).Yields bytes ()) :
    ∃ image, (Scalar.int count).toImage wire = .ok image ∧
      (emitImage settings path wire.byteSize image).Yields bytes () := by
  have hsingle : ¬ (Plan.count wire).isArray = true := Bool.false_ne_true
  have hnumeric : (Plan.count wire).wire.isNumeric = true := WireType.isNumeric_of_isCount hwire
  rw [encodeIn_eq, (count_isDirect hwire).encodeWith_eq, if_neg hsingle] at h
  simp only [encodeLeaf, Value.target, if_pos hnumeric] at h
  split at h
  next image himage => exact ⟨image, himage, h⟩
  next => exact (Emission.not_yields_fail h).elim

/-- A payload is encoded as its bytes, with zeros up to the count. -/
theorem yields_encode_payload (hslots : (slots : Int) ≤ int64Max)
    (h : (encodeIn settings room path (payload data) (.payload slots)).Yields bytes ()) :
    data.length ≤ slots ∧ bytes = data ++ Bytes.zeros (slots - data.length) := by
  rw [encodeIn_eq, (payload_isDirect slots).encodeWith_eq] at h
  change (encodeArray _ path (payload data) (.payload slots)).Yields bytes () at h
  have hof : Elements.of path (payload data) (Plan.payload slots).wire =
      .ok ⟨data.map Value.ofByte, some data, HostType.byte.natural⟩ := by
    rw [← bytes?_payload data]
    rfl
  obtain ⟨hfits, front, last, hitems, rfl⟩ := yields_encodeArray hof h
  have hbulk : (Plan.payload slots).wire = .byte ∨ (Plan.payload slots).wire = .uint8 := .inr rfl
  simp only [encodeItems, if_pos hbulk] at hitems
  obtain ⟨written, _, rest, rfl, hwrite, hdone⟩ := Emission.yields_bind.1 hitems
  obtain ⟨rfl, hlast⟩ := Emission.yields_ofExcept.1 hdone
  cases hlast
  rw [Emission.yields_write.1 hwrite, List.append_nil]
  simp only [List.length_map, Plan.payload, Option.getD_some] at hfits ⊢
  refine ⟨hfits, ?_⟩
  have hsize : sizeMul (slots - data.length) 1 = slots - data.length := by
    have hmax : int64Max < sizeMax := by decide
    unfold sizeMul
    omega
  show data ++ Bytes.zeros (sizeMul (slots - data.length) 1) = _
  rw [hsize]

/-- A visited field is encoded by the encoder one step further down. -/
theorem yields_encodeField_below {record : Record} {index : Nat} {name : String} {tag : Tag}
    {value : Value} (hignore : tag.wire ≠ some .ignore)
    (hvalue : record.fields[index]? = some value)
    (h : (encodeField (encodeBelow settings room) path record index
      ⟨name, true, .ok tag⟩).Yields bytes ()) :
    ∃ below plan, room = below + 1 ∧
      Plan.resolve (.field name :: path) value tag (some record) = .ok plan ∧
      (encodeIn settings below (.field name :: path) value plan).Yields bytes () := by
  rcases yields_encodeField h with ⟨hprivate, -⟩ | ⟨encode, tag', hchild, -, htag, hcoded⟩
  · cases hprivate
  · cases htag
    rcases hcoded with ⟨hignored, -⟩ | ⟨-, value', plan, hvalue', hplan, hencode⟩
    · exact absurd hignored hignore
    · cases hvalue.symm.trans hvalue'
      cases room with
      | zero => cases hchild
      | succ below =>
          cases hchild
          exact ⟨below, plan, rfl, hplan, hencode⟩

/-- The bytes of a record of a count and a payload are those of its fields. -/
theorem yields_encode_counted (name : String) (hwire : wire.isCount = true)
    (h : (encodeTagged settings .empty (countedValue name wire count data)).Yields bytes ()) :
    ∃ room image front, settings.limits.room .top = room + 1 ∧
      0 ≤ count.value ∧ count.value ≤ int64Max ∧
      (Scalar.int count).toImage wire = .ok image ∧
      (emitImage settings [.field "n"] wire.byteSize image).Yields front () ∧
      data.length ≤ count.value.toNat ∧
      bytes = front ++ (data ++ Bytes.zeros (count.value.toNat - data.length)) := by
  rw [countedValue, encodeTagged_record, fields_countedLayout hwire, yields_encodeFields_cons] at h
  obtain ⟨front, rest, hcount, hrest, rfl⟩ := h
  rw [yields_encodeFields_cons] at hrest
  obtain ⟨back, none, hpayload, hnone, rfl⟩ := hrest
  obtain ⟨rfl, -⟩ := Emission.yields_ofExcept.1 hnone
  have hvisited : some wire ≠ some .ignore :=
    fun hignore => (WireType.ne_of_isCount hwire).2 (Option.some.inj hignore)
  obtain ⟨room, _, hroom, hresolved, hfront⟩ := yields_encodeField_below hvisited rfl hcount
  have hsequence : payloadTag.wire ≠ some .ignore := nofun
  obtain ⟨_, _, -, hresolved', hback⟩ := yields_encodeField_below hsequence rfl hpayload
  cases (resolve_count _ count wire _).symm.trans hresolved
  rw [resolve_payload] at hresolved'
  match hslots : Plan.evalSize (.field "data" :: Path.top) countSize
      (some ⟨countedLayout name wire, counted count data⟩) with
  | .error _ =>
      rw [hslots] at hresolved'
      cases hresolved'
  | .ok slots =>
      rw [hslots] at hresolved'
      cases hresolved'
      obtain ⟨hnonneg, hmax, hvalue⟩ := evalSize_count.1 hslots
      obtain ⟨image, himage, hemit⟩ := yields_encode_count hwire hfront
      obtain ⟨hfits, rfl⟩ := yields_encode_payload (hvalue ▸ hmax) hback
      have hcounted : count.value.toNat = slots := by omega
      rw [hcounted, List.append_nil]
      exact ⟨room, image, front, hroom, hnonneg, hmax, himage, hemit, hfits, rfl⟩

/-- A count is decoded into a count of the same type. -/
theorem accepts_decode_count {destination : HostInt} {restored : HostInt}
    (hwire : wire.isCount = true)
    (h : (decodeScalar settings path wire (.int destination.type)).Accepts bytes (.int restored)) :
    (decodeIn schema settings room path (.scalar (.int destination)) (.count wire)).Accepts bytes
      (.scalar (.int restored)) := by
  have hnumeric : (Plan.count wire).wire.isNumeric = true := WireType.isNumeric_of_isCount hwire
  rw [decodeIn_eq, (count_isDirect hwire).decodeWith_eq]
  show (decodeLeaf settings (decodeBelow schema settings room) path (.scalar (.int destination))
    (.count wire)).Accepts bytes _
  simp only [decodeLeaf, Value.target, if_pos hnumeric]
  exact (Intake.Accepts.leaving _ h).bind_done ⟨rfl, rfl⟩

/-- A payload without bytes takes as many as the plan says. -/
theorem accepts_decode_payload (hcollect : data.length ≤ settings.limits.collect) :
    (decodeIn schema settings room path (payload []) (.payload data.length)).Accepts data
      (payload data) := by
  refine accepts_decodeIn_vector (payload_isDirect _) rfl rfl hcollect ?_
  rw [decodeItems, if_pos ⟨rfl, .inr rfl⟩]
  exact ⟨data, [], (List.append_nil _).symm, List.length_replicate.symm, rfl, rfl⟩

/-- The bytes of a count and as many other bytes are decoded into a record of them. -/
theorem accepts_decode_counted {front : Bytes} {zero restored : HostInt} (name : String)
    (hwire : wire.isCount = true) (hroom : settings.limits.room .top = room + 1)
    (hmax : restored.value ≤ int64Max) (hlength : restored.value = data.length)
    (hcollect : data.length ≤ settings.limits.collect)
    (hcount : (decodeScalar settings [.field "n"] wire (.int zero.type)).Accepts front
      (.int restored)) :
    (decodeTagged schema settings .empty (countedValue name wire zero [])).Accepts (front ++ data)
      (countedValue name wire restored data) := by
  have hbelow : decodeBelow schema settings (room + 1) = some (decodeIn schema settings room) := rfl
  have hslots : Plan.evalSize [.field "data"] countSize
      (some ⟨countedLayout name wire, counted restored []⟩) = .ok data.length :=
    evalSize_count.2 ⟨by omega, hmax, hlength⟩
  have hpayload : Plan.resolve [.field "data"] (payload []) payloadTag
      (some ⟨countedLayout name wire, counted restored []⟩) = .ok (.payload data.length) := by
    rw [resolve_payload, hslots]
    rfl
  have hvisited : some wire ≠ some .ignore :=
    fun hignore => (WireType.ne_of_isCount hwire).2 (Option.some.inj hignore)
  rw [countedValue, decodeTagged_record, hroom, hbelow]
  have hcountField : (decodeField (some (decodeIn schema settings room)) .top
      ⟨countedLayout name wire, counted zero []⟩ 0
      ⟨"n", true, .ok ⟨some wire, .absent, none, none⟩⟩).Accepts front (counted restored []) :=
    accepts_decodeField rfl rfl rfl hvisited rfl (resolve_count _ _ _ _)
      (accepts_decode_count hwire hcount)
  have hpayloadField : (decodeField (some (decodeIn schema settings room)) .top
      ⟨countedLayout name wire, counted restored []⟩ 1 ⟨"data", true, .ok payloadTag⟩).Accepts data
        (counted restored data) :=
    accepts_decodeField rfl rfl rfl nofun rfl hpayload (accepts_decode_payload hcollect)
  have hfields : (decodeFields (some (decodeIn schema settings room)) .top
      (countedLayout name wire) 0 (countedLayout name wire).fields (counted zero [])).Accepts
        (front ++ (data ++ [])) (counted restored data) := by
    rw [fields_countedLayout hwire]
    exact accepts_decodeFields_cons hcountField
      (accepts_decodeFields_cons hpayloadField ⟨rfl, rfl⟩)
  rw [List.append_nil] at hfields
  exact hfields.bimap _ _

end coding

/-- A packed record of a count and a payload comes back into an empty one, with zeros up to the
count, if the count fits into its wire type. A count that does not, on a narrower bitmap, comes back
as its low bytes, and with as much of the payload. -/
theorem unpack_pack_counted {packer : Packer} {schema : Schema} {order : ByteOrder}
    {key name : String} {wire : WireType} {count : HostInt} {data bytes : Bytes}
    (hwire : wire.isCount = true)
    (hkey : schema.lookup key = some (countedType name wire count.type))
    (hcollect : count.value ≤ packer.limits.collect)
    (hpack : packer.pack order (countedValue name wire count data) = .ok bytes) :
    (count.value < 256 ^ wire.byteSize →
      packer.unpack schema order bytes (schema.default (.record key)) =
        ⟨countedValue name wire count (data ++ Bytes.zeros (count.value.toNat - data.length)),
          .ok bytes.length⟩) ∧
    (256 ^ wire.byteSize ≤ count.value →
      (wire.kind = .bitmap ∧ wire.byteSize < count.type.width) ∧
      ∃ restored : HostInt, restored.type = count.type ∧
        restored.value = count.value % 256 ^ wire.byteSize ∧
        packer.unpack schema order bytes (schema.default (.record key)) =
          ⟨countedValue name wire restored ((data ++
              Bytes.zeros (count.value.toNat - data.length)).take restored.value.toNat),
            .ok (wire.byteSize + restored.value.toNat)⟩) := by
  obtain ⟨room, image, front, hroom, hnonneg, hmax, himage, hemit, hfits, rfl⟩ :=
    yields_encode_counted name hwire (Packer.yields_of_packAs hpack)
  obtain ⟨hfront, restored, htype, hvalue, hcount⟩ :=
    accepts_decodeScalar_count hnonneg hwire himage hemit
  have hpos : (0 : Int) < 256 ^ wire.byteSize := by positivity
  have hrestored : 0 ≤ restored.value ∧ restored.value ≤ count.value := by
    rw [hvalue]
    exact ⟨Int.emod_nonneg _ hpos.ne', emod_le_self hnonneg hpos⟩
  let filled := data ++ Bytes.zeros (count.value.toNat - data.length)
  have hfilled : filled.length = count.value.toNat := by
    rw [List.length_append, Bytes.length_zeros]
    omega
  -- Whichever count is restored, it says how much of the payload is read.
  have hunpack : packer.unpack schema order (front ++ filled) (schema.default (.record key)) =
      ⟨countedValue name wire restored (filled.take restored.value.toNat),
        .ok (wire.byteSize + restored.value.toNat)⟩ := by
    have hkept : (filled.take restored.value.toNat).length = restored.value.toNat := by
      rw [List.length_take]
      omega
    have haccepts : (decodeTagged schema (packer.settings order) .empty
        (countedValue name wire ⟨count.type, 0, count.type.holds_zero⟩ [])).Accepts
          (front ++ filled.take restored.value.toNat)
          (countedValue name wire restored (filled.take restored.value.toNat)) := by
      refine accepts_decode_counted name hwire hroom (by omega) (by omega) ?_ (hcount _)
      show _ ≤ packer.limits.collect
      omega
    have hparts := Packer.unpackAs_append_of_accepts (filled.drop restored.value.toNat) haccepts
    rw [List.append_assoc, List.take_append_drop, List.length_append, hfront, hkept] at hparts
    rw [default_counted hkey]
    exact hparts
  refine ⟨?_, ?_⟩
  · intro hsmall
    obtain rfl : restored = count := by
      rw [Int.emod_eq_of_lt hnonneg hsmall] at hvalue
      obtain ⟨_, _, _⟩ := restored
      cases htype
      cases hvalue
      rfl
    have hall : filled.take restored.value.toNat = filled := List.take_of_length_le hfilled.le
    rw [hunpack, hall, List.length_append, hfront, hfilled]
  · intro hlarge
    exact ⟨bitmap_of_le_count hwire himage hlarge, restored, htype, hvalue, hunpack⟩

section batch

/-- A 16-bit count. -/
def sixteenBit (count : Int) (holds : IntType.u16.Holds count) : HostInt := ⟨.u16, count, holds⟩

/-- The schema of batches, with a 16-bit count on the wire type. -/
def batchSchema (wire : WireType) : Schema := [("Batch", countedType "Batch" wire .u16)]

/-- A batch of two bytes that counts three comes back with a zero byte. -/
theorem unpack_pack_batch :
    (Packer.mk {} .empty).pack .bigEndian
      (countedValue "Batch" .uint8 (sixteenBit 3 (by decide)) [1, 2]) = .ok [3, 1, 2, 0] ∧
    (Packer.mk {} .empty).unpack (batchSchema .uint8) .bigEndian [3, 1, 2, 0]
      ((batchSchema .uint8).default (.record "Batch")) =
        ⟨countedValue "Batch" .uint8 (sixteenBit 3 (by decide)) [1, 2, 0], .ok 4⟩ := by
  have hkey : (batchSchema .uint8).lookup "Batch" = some (countedType "Batch" .uint8 .u16) := by cbv
  have hpack : (Packer.mk {} .empty).pack .bigEndian
      (countedValue "Batch" .uint8 (sixteenBit 3 (by decide)) [1, 2]) = .ok [3, 1, 2, 0] := by cbv
  exact ⟨hpack, (unpack_pack_counted rfl hkey (by decide) hpack).1 (by decide)⟩

set_option maxRecDepth 4000 in
/-- A bitmap of one byte turns a count of 256 into 0, so that nothing of the payload comes back. -/
theorem unpack_pack_overfull_batch :
    (Packer.mk {} .empty).pack .bigEndian
      (countedValue "Batch" .byte (sixteenBit 256 (by decide)) []) = .ok (Bytes.zeros 257) ∧
    (Packer.mk {} .empty).unpack (batchSchema .byte) .bigEndian (Bytes.zeros 257)
      ((batchSchema .byte).default (.record "Batch")) =
        ⟨countedValue "Batch" .byte (sixteenBit 0 (by decide)) [], .ok 1⟩ := by
  constructor
  · cbv
  · cbv

end batch

end PackedRecord
