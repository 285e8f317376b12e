import PackedRecord.Proofs.Calls
import PackedRecord.Proofs.CountedPayloads

/-!
# Integers on integer wires and on bitmaps

What comes back of an integer of one host type in an integer of another one. `integer_wire_exact`
says that an integer wire type carries the value itself or refuses it: whoever reads it gets the
same value, or an error. `bitmap_low_bytes` says that a bitmap carries the low bytes, and what they
mean to whom.
-/

namespace PackedRecord

/-- The integer lies in the range of the wire type. -/
def WireType.Ranges (wire : WireType) (value : Int) : Prop :=
  ∃ least greatest, wire.range? = some (least, greatest) ∧ least ≤ value ∧ value ≤ greatest

/-- The tag of a single value of the wire type. -/
def WireType.tag (wire : WireType) : Tag := ⟨some wire, .absent, none, none⟩

/-- What decoding leaves of an integer that `value` is read for in `size` bytes: an integer of its
type takes the value, and any other one stays as it was. -/
def HostInt.decoded (destination : HostInt) (path : Path) (size : Nat) (value : Int) : Decoded :=
  if holds : destination.type.Holds value then
    ⟨.scalar (.int ⟨destination.type, value, holds⟩), .ok size⟩
  else
    ⟨.scalar (.int destination),
      .error (.located path (.notFit (toString value) destination.type.name))⟩

/-- What a bitmap of `size` bytes with the bits `n` means to an integer type: a signed number, if
the type is signed and no wider, and otherwise an unsigned one. -/
def IntType.reading (type : IntType) (size n : Nat) : Int :=
  if type.isSigned ∧ type.width ≤ size then Int.bmod n (256 ^ size) else n

/-- An integer as one of the type, which has to hold it. -/
def IntType.fit (type : IntType) (value : Int) : Except ConversionFault Scalar :=
  if holds : type.Holds value then .ok (.int ⟨type, value, holds⟩)
  else .error (.outsideHost (.int value) (.int type))

/-- The image means `value` to a destination, at once as well as through the bytes that it is
written in. Wherever these stand, a decoder takes all of them, and the destination becomes `value`
or stays as it was. -/
structure WireType.Conveys (wire : WireType) (order : ByteOrder) (image : UInt64)
    (destination : HostInt) (value : Int) : Prop where
  direct : (ScalarType.int destination.type).ofImage wire image = destination.type.fit value
  written : ∃ bytes image', order.put wire.byteSize image = .ok bytes ∧
    bytes.length = wire.byteSize ∧ order.get bytes = .ok image' ∧
    (ScalarType.int destination.type).ofImage wire image' = destination.type.fit value ∧
    ∀ (schema : Schema) (settings : Settings) (path : Path) (record : Option Record) (rest : Bytes)
      (start boundary : Nat), settings.order = order →
      (Decoder.mk schema settings (.steady (bytes ++ rest) start) boundary).decodeAt path record
          wire.tag (.scalar (.int destination)) =
        (destination.decoded path wire.byteSize value,
          ⟨schema, settings, .steady rest (start + wire.byteSize), boundary⟩)

/-- An image that stands for an integer becomes that integer, if the type holds it. -/
theorem ScalarType.ofImage_of_number {type : IntType} {wire : WireType} {image : UInt64}
    {value : Int} (h : (ScalarType.int type).numberIn wire image = .ok (.int value)) :
    (ScalarType.int type).ofImage wire image = type.fit value := by
  rw [ofImage, h]
  simp only [ofNumber, Number.integer?, Option.bind_some, HostInt.ofInt?, IntType.fit]
  split_ifs <;> rfl

/-- Only the low bytes of an image count. -/
theorem ScalarType.ofImage_congr (host : ScalarType) {wire : WireType} {image image' : UInt64}
    (h : image'.toNat % 256 ^ wire.byteSize = image.toNat % 256 ^ wire.byteSize) :
    host.ofImage wire image' = host.ofImage wire image := by
  simp only [ofImage, numberIn, h]

section scalar

variable {schema : Schema} {settings : Settings} {path : Path} {record : Option Record}
  {wire : WireType} {destination : HostInt} {bytes : Bytes} {image : UInt64}

/-- A scalar is decoded from the image in as many bytes as the wire type has. -/
theorem Source.supply_decodeScalar {type : ScalarType} (hlength : bytes.length = wire.byteSize)
    (hget : settings.order.get bytes = .ok image) (rest : Bytes) (start boundary : Nat) :
    (steady (bytes ++ rest) start).supply boundary (decodeScalar settings path wire type) =
      ((type.ofImage wire image).mapError fun fault => (.located path fault.toFault, ()),
        steady rest (start + wire.byteSize)) := by
  rw [decodeScalar, supply_bind, readImage, supply_bind, Intake.bytes, supply_read_steady,
    if_neg (by rw [List.length_append]; omega), ← hlength, List.take_left, List.drop_left]
  simp only [supply, hget, Intake.pure_eq]
  cases type.ofImage wire image <;> rfl

/-- An integer with the tag of a wire type is decoded as a scalar. -/
theorem decodeAt_int (hwire : wire.isCount = true) :
    decodeAt schema settings path record wire.tag (.scalar (.int destination)) =
      Intake.leaving (.scalar (.int destination))
          (decodeScalar settings path wire (.int destination.type)) >>=
        fun decoded => pure (.scalar decoded) := by
  have hsingle : ¬ (Plan.count wire).isArray = true := Bool.false_ne_true
  have hnumeric : (Plan.count wire).wire.isNumeric = true := WireType.isNumeric_of_isCount hwire
  rw [decodeAt, WireType.tag, resolve_count]
  show decodeIn schema settings (settings.limits.room path) path _ (Plan.count wire) = _
  rw [decodeIn_eq, (count_isDirect hwire).decodeWith_eq, if_neg hsingle]
  simp only [decodeLeaf, Value.target, if_pos hnumeric]
  rfl

/-- A decoder that finds the bytes of an image takes them, and leaves an integer as the image
says. -/
theorem Decoder.decodeAt_int {value : Int} (hwire : wire.isCount = true)
    (hlength : bytes.length = wire.byteSize) (hget : settings.order.get bytes = .ok image)
    (himage : (ScalarType.int destination.type).ofImage wire image = destination.type.fit value)
    (rest : Bytes) (start boundary : Nat) :
    (Decoder.mk schema settings (.steady (bytes ++ rest) start) boundary).decodeAt path record
        wire.tag (.scalar (.int destination)) =
      (destination.decoded path wire.byteSize value,
        ⟨schema, settings, .steady rest (start + wire.byteSize), boundary⟩) := by
  rw [decodeAt, PackedRecord.decodeAt_int hwire, Source.supply_bind, Intake.leaving,
    Source.supply_bimap, Source.supply_decodeScalar hlength hget, himage]
  unfold IntType.fit HostInt.decoded
  split_ifs with holds
  · show (Decoded.mk _ (.ok (start + wire.byteSize - start)), _) = _
    rw [Nat.add_sub_cancel_left]
    rfl
  · rfl

/-- An image goes into the bytes of a wire type, and its low bytes come back. -/
theorem ByteOrder.get_put (order : ByteOrder) (wire : WireType) (hwire : wire.isCount = true)
    (image : UInt64) :
    ∃ bytes image', order.put wire.byteSize image = .ok bytes ∧ bytes.length = wire.byteSize ∧
      order.get bytes = .ok image' ∧ image'.toNat = image.toNat % 256 ^ wire.byteSize := by
  have hwidth : isScalarWidth wire.byteSize = true := by
    cases wire <;> first | rfl | cases hwire
  have hlength := order.length_bytes wire.byteSize image.toNat
  have hlow : (UInt64.ofNat (image.toNat % 256 ^ wire.byteSize)).toNat =
      image.toNat % 256 ^ wire.byteSize :=
    (UInt64.toNat_ofNat' ..).trans
      (Nat.mod_eq_of_lt (Nat.lt_of_le_of_lt (Nat.mod_le _ _) image.toNat_lt))
  refine ⟨order.bytes wire.byteSize image.toNat, _, if_pos hwidth, hlength, ?_, hlow⟩
  rw [get, if_pos (by rw [hlength, hwidth]), toNat_bytes]

/-- An image conveys what every image with the same low bytes means. -/
theorem WireType.conveys {value : Int} (hwire : wire.isCount = true) (order : ByteOrder)
    (h : ∀ image' : UInt64, image'.toNat % 256 ^ wire.byteSize = image.toNat % 256 ^ wire.byteSize →
      (ScalarType.int destination.type).numberIn wire image' = .ok (.int value)) :
    wire.Conveys order image destination value := by
  obtain ⟨bytes, image', hput, hlength, hget, hlow⟩ := order.get_put wire hwire image
  have himage' := ScalarType.ofImage_of_number (h image' (by rw [hlow, Nat.mod_mod]))
  refine ⟨ScalarType.ofImage_of_number (h image rfl), bytes, image', hput, hlength, hget,
    himage', ?_⟩
  rintro schema settings path record rest start boundary rfl
  exact Decoder.decodeAt_int hwire hlength hget himage' rest start boundary

end scalar

section integer

variable {wire : WireType} {content : HostInt} {image : UInt64}

/-- An integer wire type takes the integers in its range. -/
theorem Scalar.toImage_of_integer (hkind : wire.kind = .signed ∨ wire.kind = .unsigned)
    (content : HostInt) :
    (∃ image, (Scalar.int content).toImage wire = .ok image) ↔ wire.Ranges content.value := by
  constructor
  · rintro ⟨image, himage⟩
    exact (Scalar.toImage_integer rfl hkind himage).2
  · rintro ⟨least, greatest, hrange, hinside⟩
    refine ⟨imageOfInt content.value, ?_⟩
    rcases hkind with hkind | hkind
    all_goals
      simp only [toImage, hkind, toNumber, Number.integer?, hrange]
      exact if_pos hinside

/-- A bitmap takes the integers of the types that are no narrower. -/
theorem Scalar.toImage_of_bitmap (hkind : wire.kind = .bitmap) (content : HostInt) :
    (∃ image, (Scalar.int content).toImage wire = .ok image) ↔
      wire.byteSize ≤ content.type.width := by
  constructor
  · rintro ⟨image, himage⟩
    exact (Scalar.toImage_bitmap hkind himage).1
  · intro hwidth
    refine ⟨imageOfInt (content.value % 256 ^ wire.byteSize), ?_⟩
    have hnarrow : ¬ (Scalar.int content).type.width < wire.byteSize := Nat.not_lt.2 hwidth
    simp only [toImage, hkind, toBitmap?, if_neg hnarrow, toNumber, Number.integer?,
      Option.map_some]

/-- The image of an integer on a bitmap is its low bytes and nothing above them. -/
theorem Scalar.toNat_image_of_bitmap (hkind : wire.kind = .bitmap)
    (himage : (Scalar.int content).toImage wire = .ok image) :
    (image.toNat : Int) = content.value % 256 ^ wire.byteSize := by
  obtain ⟨-, rfl⟩ := toImage_bitmap hkind himage
  have hpos : (0 : Int) < 256 ^ wire.byteSize := by positivity
  have hnonneg := Int.emod_nonneg content.value hpos.ne'
  have hlt : content.value % 256 ^ wire.byteSize < 2 ^ 64 := by
    have hpower : (256 : Int) ^ wire.byteSize ≤ 256 ^ 8 :=
      pow_le_pow_right₀ (by decide) wire.byteSize_le
    have := Int.emod_lt_of_pos content.value hpos
    omega
  have hall := toNat_imageOfInt (Nat.le_refl 8) (content.value % 256 ^ wire.byteSize)
  rw [Int.emod_eq_of_lt hnonneg (show _ < (256 : Int) ^ 8 from hlt),
    Nat.mod_eq_of_lt (show _ < 256 ^ 8 from (imageOfInt _).toNat_lt)] at hall
  exact hall

/-- Extending with the sign gives the balanced remainder. -/
theorem signExtend_eq_bmod {size n : Nat} (h : n < 256 ^ size) :
    signExtend size n = Int.bmod n (256 ^ size) := by
  have hcast : ((256 ^ size : Nat) : Int) = 256 ^ size := by norm_cast
  have hlow : (n : Int) % ((256 ^ size : Nat) : Int) = n := by
    rw [← Int.natCast_mod, Nat.mod_eq_of_lt h]
  rw [signExtend, Int.bmod, hlow, ← hcast]
  split_ifs <;> omega

/-- What an integer type finds in a bitmap. -/
theorem ScalarType.numberIn_bitmap (hkind : wire.kind = .bitmap) (type : IntType)
    (image : UInt64) :
    (ScalarType.int type).numberIn wire image =
      .ok (.int (type.reading wire.byteSize (image.toNat % 256 ^ wire.byteSize))) := by
  have hlt : image.toNat % 256 ^ wire.byteSize < 256 ^ wire.byteSize :=
    Nat.mod_lt _ (by positivity)
  simp only [numberIn, hkind, ofBitmap?, isSigned, width, IntType.reading, signExtend_eq_bmod hlt]
  split_ifs <;> rfl

/-- An integer wire type never changes a value. It takes the integers in its range. What it took
goes into as many bytes as it has, and means the same integer to every destination: one whose type
holds it becomes that integer, and any other one stays as it was, with an error that names both.
Bits of an image above the width of the wire type do not count. -/
theorem integer_wire_exact (hkind : wire.kind = .signed ∨ wire.kind = .unsigned)
    (order : ByteOrder) (content : HostInt) :
    ((∃ image, (Scalar.int content).toImage wire = .ok image) ↔ wire.Ranges content.value) ∧
    (∀ image, (Scalar.int content).toImage wire = .ok image →
      ∀ destination, wire.Conveys order image destination content.value) ∧
    ∀ (host : ScalarType) (image image' : UInt64),
      image'.toNat % 256 ^ wire.byteSize = image.toNat % 256 ^ wire.byteSize →
      host.ofImage wire image' = host.ofImage wire image := by
  have hwire : wire.isCount = true := by
    rcases hkind with hkind | hkind <;> simp only [WireType.isCount, hkind]
  refine ⟨Scalar.toImage_of_integer hkind content, ?_, fun host _ _ => host.ofImage_congr⟩
  intro image himage destination
  obtain ⟨rfl, hrange⟩ := Scalar.toImage_integer rfl hkind himage
  refine WireType.conveys hwire order fun image' hlow => ?_
  refine ScalarType.numberIn_of_integer hkind hrange ?_
  rw [hlow, toNat_imageOfInt wire.byteSize_le]

/-- On `int16`, 200 reaches an unsigned byte; a signed one stays as it was. -/
theorem integer_wire_exact_instance :
    let sent : HostInt := ⟨.i32, 200, by decide⟩
    let signed : HostInt := ⟨.i8, 5, by decide⟩
    let unsigned : HostInt := ⟨.u8, 5, by decide⟩
    WireType.int16.kind = .signed ∧ (Scalar.int sent).toImage .int16 = .ok 200 ∧
    WireType.int16.Conveys .bigEndian 200 unsigned 200 ∧
    unsigned.decoded .top 2 200 = ⟨.scalar (.int ⟨.u8, 200, by decide⟩), .ok 2⟩ ∧
    WireType.int16.Conveys .bigEndian 200 signed 200 ∧
    signed.decoded .top 2 200 =
      ⟨.scalar (.int signed), .error (.located .top (.notFit "200" "i8"))⟩ := by
  intro sent signed unsigned
  have himage : (Scalar.int sent).toImage .int16 = .ok 200 := by decide
  have hconveys := (integer_wire_exact (.inl rfl) .bigEndian sent).2.1 200 himage
  exact ⟨rfl, himage, hconveys unsigned, dif_pos (by decide), hconveys signed, dif_neg (by decide)⟩

/-- An integer that the low bytes are is held by every wider type. -/
theorem IntType.holds_of_narrow {type : IntType} {size : Nat} {value : Int}
    (hnarrow : size < type.width) (hnonneg : 0 ≤ value) (hlt : value < 256 ^ size) :
    type.Holds value := by
  have hpower : (256 : Int) ^ (size + 1) ≤ 256 ^ type.width :=
    pow_le_pow_right₀ (by decide) hnarrow
  rw [pow_succ] at hpower
  have hpos : (0 : Int) < 256 ^ size := by positivity
  rw [type.holds_iff]
  split_ifs <;> omega

/-- A bitmap carries the low bytes of the integers of every type that is no narrower. Their number
is signed to a destination of a signed type that is no wider, and unsigned to any other; a
destination whose type holds it becomes it, and any other one stays as it was. So an integer of a
type exactly as wide comes back as it is, and one of a wider type as its residue. -/
theorem bitmap_low_bytes (hkind : wire.kind = .bitmap) (order : ByteOrder) (content : HostInt) :
    ((∃ image, (Scalar.int content).toImage wire = .ok image) ↔
      wire.byteSize ≤ content.type.width) ∧
    ∀ image, (Scalar.int content).toImage wire = .ok image →
      (image.toNat : Int) = content.value % 256 ^ wire.byteSize ∧
      (∀ destination, wire.Conveys order image destination
        (destination.type.reading wire.byteSize image.toNat)) ∧
      (content.type.width = wire.byteSize →
        (ScalarType.int content.type).ofImage wire image = .ok (.int content)) ∧
      (wire.byteSize < content.type.width →
        ∃ restored : HostInt, restored.type = content.type ∧
          restored.value = content.value % 256 ^ wire.byteSize ∧
          (ScalarType.int content.type).ofImage wire image = .ok (.int restored)) := by
  have hwire : wire.isCount = true := by simp only [WireType.isCount, hkind]
  refine ⟨Scalar.toImage_of_bitmap hkind content, fun image himage => ?_⟩
  have hvalue := Scalar.toNat_image_of_bitmap hkind himage
  have hpos : (0 : Int) < 256 ^ wire.byteSize := by positivity
  have hnonneg := Int.emod_nonneg content.value hpos.ne'
  have hlt := Int.emod_lt_of_pos content.value hpos
  have hlow : image.toNat % 256 ^ wire.byteSize = image.toNat := by
    refine Nat.mod_eq_of_lt ?_
    rw [← hvalue] at hlt
    exact_mod_cast hlt
  have hconveys : ∀ destination, wire.Conveys order image destination
      (destination.type.reading wire.byteSize image.toNat) := by
    intro destination
    refine WireType.conveys hwire order fun image' himage' => ?_
    rw [ScalarType.numberIn_bitmap hkind, himage', hlow]
  refine ⟨hvalue, hconveys, ?_, ?_⟩
  · intro hsame
    refine ScalarType.ofImage_toImage ?_ himage rfl
    simp only [Scalar.type, ScalarType.isExactAs, hkind, hsame, decide_true]
  · intro hnarrow
    have holds := IntType.holds_of_narrow hnarrow hnonneg hlt
    have hreading : content.type.reading wire.byteSize image.toNat =
        content.value % 256 ^ wire.byteSize := by
      rw [IntType.reading, if_neg fun h => absurd h.2 (Nat.not_le.2 hnarrow), hvalue]
    refine ⟨⟨content.type, _, holds⟩, rfl, rfl, ?_⟩
    rw [(hconveys content).direct, hreading]
    exact dif_pos holds

/-- The low bytes of -2 in a `word` are -2 to a signed type of two bytes, and 65534 to the type of
four bytes that they come from. -/
theorem bitmap_low_bytes_instance :
    let sent : HostInt := ⟨.i32, -2, by decide⟩
    let narrow : HostInt := ⟨.i16, 7, by decide⟩
    WireType.word.kind = .bitmap ∧ (Scalar.int sent).toImage .word = .ok 65534 ∧
    WireType.word.Conveys .littleEndian 65534 narrow (-2) ∧
    narrow.decoded .top 2 (-2) = ⟨.scalar (.int ⟨.i16, -2, by decide⟩), .ok 2⟩ ∧
    ∃ restored : HostInt, restored.type = .i32 ∧ restored.value = 65534 ∧
      (ScalarType.int .i32).ofImage .word 65534 = .ok (.int restored) := by
  intro sent narrow
  have himage : (Scalar.int sent).toImage .word = .ok 65534 := by decide
  have hreading : narrow.type.reading 2 (65534 : UInt64).toNat = -2 := by cbv
  obtain ⟨-, hconveys, -, hwide⟩ := (bitmap_low_bytes rfl .littleEndian sent).2 65534 himage
  exact ⟨rfl, himage, hreading ▸ hconveys narrow, dif_pos (by decide), hwide (by decide)⟩

end integer

end PackedRecord
