import Mathlib
import PackedRecord.Decode.Value
import PackedRecord.Encode.Value
import PackedRecord.Proofs.Acceptance
import PackedRecord.Proofs.Yields

/-!
# Scalars that come back

A scalar goes over the wire as the low bytes of its image. `ScalarType.ofImage_toImage` says that
these bytes stand for the scalar if the wire type is an integer type, or a bitmap exactly as wide
as an integer.
-/

namespace PackedRecord

/-- Whether every scalar of the type that the wire type takes comes back from it. -/
def ScalarType.isExactAs (type : ScalarType) (wire : WireType) : Bool :=
  match type, wire.kind with
  | .bool, .signed | .bool, .unsigned | .int _, .signed | .int _, .unsigned => true
  | .int type, .bitmap => type.width = wire.byteSize
  | _, _ => false

/-- No wire type has more than eight bytes. -/
theorem WireType.byteSize_le (wire : WireType) : wire.byteSize ≤ 8 := by
  cases wire <;> decide

/-- The low bytes of an image of an integer are the integer modulo their width. -/
theorem toNat_imageOfInt {size : Nat} (hsize : size ≤ 8) (value : Int) :
    (((imageOfInt value).toNat % 256 ^ size : Nat) : Int) = value % 256 ^ size := by
  have hdvd : (256 ^ size : Int) ∣ 2 ^ 64 := by
    have hpow : (2 ^ 64 : Int) = 256 ^ size * 256 ^ (8 - size) := by
      rw [← pow_add, Nat.add_sub_cancel' hsize]
      norm_num
    exact ⟨_, hpow⟩
  have hnonneg : 0 ≤ value % 2 ^ 64 := Int.emod_nonneg _ (by norm_num)
  have hlt : (value % 2 ^ 64).toNat < 2 ^ 64 := by
    have := Int.emod_lt_of_pos value (show (0 : Int) < 2 ^ 64 by norm_num)
    omega
  have himage : (imageOfInt value).toNat = (value % 2 ^ 64).toNat := by
    rw [imageOfInt, UInt64.toNat_ofNat', Nat.mod_eq_of_lt hlt]
  rw [himage, Int.natCast_emod, Int.toNat_of_nonneg hnonneg]
  push_cast
  exact Int.emod_emod_of_dvd _ hdvd

/-- Extending the sign of a residue gives back an integer in the range of the width. -/
theorem signExtend_of_emod {size n : Nat} {value : Int} (hn : (n : Int) = value % 256 ^ size)
    (hleast : -256 ^ size ≤ 2 * value) (hgreatest : 2 * value < 256 ^ size) :
    signExtend size n = value := by
  have hpos : (0 : Int) < 256 ^ size := by positivity
  have hcast : 2 * n < 256 ^ size ↔ 2 * (n : Int) < 256 ^ size := by norm_cast
  simp only [signExtend, hcast]
  -- The residue of a negative integer is in the upper half of the range, that of any other below.
  rcases lt_or_ge value 0 with hneg | hnonneg
  · rw [← Int.add_emod_right, Int.emod_eq_of_lt (by omega) (by omega)] at hn
    rw [if_neg (by omega)]
    omega
  · rw [Int.emod_eq_of_lt hnonneg (by omega)] at hn
    rw [if_pos (by omega)]
    omega

/-- The integer that an integer or a truth value is, with its type. -/
theorem ScalarType.ofNumber_int {scalar : Scalar} {value : Int} (h : scalar.integer? = some value) :
    scalar.type.ofNumber (.int value) = .ok scalar := by
  cases scalar with
  | bool bit =>
      cases bit <;> cases h <;> rfl
  | int content =>
      cases h
      have hholds : HostInt.ofInt? content.type content.value = some content :=
        dif_pos content.holds
      simp [Scalar.type, ofNumber, Number.integer?, hholds]
  | f32 bits => cases h
  | f64 bits => cases h

/-- The range of a signed wire type, in terms of its size. -/
theorem WireType.range_of_signed {wire : WireType} (hkind : wire.kind = .signed) :
    ∃ least greatest : Int, wire.range? = some (least, greatest) ∧
      2 * least = -256 ^ wire.byteSize ∧ 2 * greatest + 2 = 256 ^ wire.byteSize := by
  cases wire <;> first | exact ⟨_, _, rfl, by decide, by decide⟩ | cases hkind

/-- The range of an unsigned wire type, in terms of its size. -/
theorem WireType.range_of_unsigned {wire : WireType} (hkind : wire.kind = .unsigned) :
    ∃ greatest : Int, wire.range? = some (0, greatest) ∧
      greatest + 1 = 256 ^ wire.byteSize := by
  cases wire <;> first | exact ⟨_, rfl, by decide⟩ | cases hkind

/-- The range of an integer type, in terms of its size. -/
theorem IntType.holds_iff (type : IntType) (value : Int) :
    type.Holds value ↔
      if type.isSigned then -256 ^ type.width ≤ 2 * value ∧ 2 * value < 256 ^ type.width
      else 0 ≤ value ∧ value < 256 ^ type.width := by
  cases type <;> simp [Holds, least, greatest, isSigned, width] <;> omega

/-- Integers and truth values go over an integer wire as they are. -/
theorem Scalar.toImage_integer {scalar : Scalar} {wire : WireType} {image : UInt64} {value : Int}
    (hvalue : scalar.toNumber = .int value) (hkind : wire.kind = .signed ∨ wire.kind = .unsigned)
    (himage : scalar.toImage wire = .ok image) :
    image = imageOfInt value ∧
      ∃ least greatest, wire.range? = some (least, greatest) ∧ least ≤ value ∧
        value ≤ greatest := by
  have hinteger : scalar.toNumber.integer? = some value := by rw [hvalue]; rfl
  rcases hkind with hkind | hkind
  all_goals
    simp only [toImage, hkind, hinteger] at himage
    split at himage
    next n least greatest hn hrange =>
      cases hn
      split at himage
      next hin =>
        cases himage
        exact ⟨rfl, least, greatest, hrange, hin⟩
      next => cases himage
    next => cases himage

/-- An integer goes over a bitmap that is no wider as its low bytes. -/
theorem Scalar.toImage_bitmap {content : HostInt} {wire : WireType} {image : UInt64}
    (hkind : wire.kind = .bitmap) (himage : (Scalar.int content).toImage wire = .ok image) :
    wire.byteSize ≤ content.type.width ∧
      image = imageOfInt (content.value % 256 ^ wire.byteSize) := by
  simp only [toImage, hkind, toBitmap?, toNumber, Number.integer?, Option.map_some] at himage
  by_cases hwide : (Scalar.int content).type.width < wire.byteSize
  · rw [if_pos hwide] at himage
    cases himage
  · rw [if_neg hwide] at himage
    cases himage
    exact ⟨Nat.not_lt.1 hwide, rfl⟩

/-- An integer wire gives back the integer that was written. -/
theorem ScalarType.numberIn_of_integer {type : ScalarType} {wire : WireType} {image : UInt64}
    {value : Int} (hkind : wire.kind = .signed ∨ wire.kind = .unsigned)
    (hrange : ∃ least greatest, wire.range? = some (least, greatest) ∧ least ≤ value ∧
      value ≤ greatest)
    (hlow : ((image.toNat % 256 ^ wire.byteSize : Nat) : Int) = value % 256 ^ wire.byteSize) :
    type.numberIn wire image = .ok (.int value) := by
  obtain ⟨least, greatest, hrange, hleast, hgreatest⟩ := hrange
  rcases hkind with hkind | hkind
  · obtain ⟨least, greatest, hrange', htwice, htwice'⟩ := WireType.range_of_signed hkind
    rw [hrange] at hrange'
    cases hrange'
    have hvalue := signExtend_of_emod hlow (by omega) (by omega)
    simp only [numberIn, hkind, hvalue]
  · obtain ⟨greatest, hrange', hgreatest'⟩ := WireType.range_of_unsigned hkind
    rw [hrange] at hrange'
    cases hrange'
    rw [Int.emod_eq_of_lt hleast (by omega)] at hlow
    simp only [numberIn, hkind, hlow]

/-- A bitmap as wide as an integer type gives back the integer that was written. -/
theorem ScalarType.numberIn_of_bitmap {type : IntType} {wire : WireType} {image : UInt64}
    {value : Int} (hkind : wire.kind = .bitmap) (hwidth : type.width = wire.byteSize)
    (hholds : type.Holds value)
    (hlow : ((image.toNat % 256 ^ wire.byteSize : Nat) : Int) = value % 256 ^ wire.byteSize) :
    (ScalarType.int type).numberIn wire image = .ok (.int value) := by
  rw [type.holds_iff, hwidth] at hholds
  simp only [numberIn, hkind, ofBitmap?, isSigned, width, hwidth]
  cases hsigned : type.isSigned with
  | true =>
      simp only [hsigned, if_true] at hholds
      simp [signExtend_of_emod hlow hholds.1 hholds.2]
  | false =>
      simp only [hsigned, Bool.false_eq_true, if_false] at hholds
      rw [Int.emod_eq_of_lt hholds.1 hholds.2] at hlow
      simp [hlow]

/-- An image of an exact wire type holds the integer that was written. -/
theorem ScalarType.ofImage_toImage {scalar : Scalar} {wire : WireType} {image image' : UInt64}
    (hexact : scalar.type.isExactAs wire = true) (himage : scalar.toImage wire = .ok image)
    (hlow : image'.toNat % 256 ^ wire.byteSize = image.toNat % 256 ^ wire.byteSize) :
    scalar.type.ofImage wire image' = .ok scalar := by
  have hread {value : Int} (hvalue : scalar.toNumber = .int value)
      (hkind : wire.kind = .signed ∨ wire.kind = .unsigned) :
      scalar.type.numberIn wire image' = .ok (.int value) := by
    obtain ⟨rfl, hrange⟩ := Scalar.toImage_integer hvalue hkind himage
    refine numberIn_of_integer hkind hrange ?_
    rw [hlow, toNat_imageOfInt wire.byteSize_le]
  cases scalar with
  | bool bit =>
      have hkind : wire.kind = .signed ∨ wire.kind = .unsigned := by
        cases hkind : wire.kind <;> simp [Scalar.type, isExactAs, hkind] at hexact ⊢
      rw [ofImage, hread rfl hkind]
      exact @ofNumber_int (.bool bit) _ rfl
  | int content =>
      have hnumber : (Scalar.int content).type.numberIn wire image' = .ok (.int content.value) := by
        cases hkind : wire.kind with
        | signed => exact hread rfl (.inl hkind)
        | unsigned => exact hread rfl (.inr hkind)
        | bitmap =>
            have hwidth : content.type.width = wire.byteSize := by
              simpa [Scalar.type, isExactAs, hkind] using hexact
            refine numberIn_of_bitmap hkind hwidth content.holds ?_
            rw [hlow, (Scalar.toImage_bitmap hkind himage).2,
              toNat_imageOfInt wire.byteSize_le, Int.emod_emod_of_dvd _ (Int.dvd_refl _)]
        | _ => simp [Scalar.type, isExactAs, hkind] at hexact
      rw [ofImage, hnumber]
      exact @ofNumber_int (.int content) _ rfl
  | f32 bits => cases hkind : wire.kind <;> simp [isExactAs, Scalar.type, hkind] at hexact
  | f64 bits => cases hkind : wire.kind <;> simp [isExactAs, Scalar.type, hkind] at hexact

/-- Any bytes of the width of a scalar are an image. -/
theorem accepts_readImage_bytes {settings : Settings} {path : Path} {bytes : Bytes}
    (hwidth : isScalarWidth bytes.length = true) :
    (readImage settings path bytes.length).Accepts bytes
      (UInt64.ofNat (settings.order.toNat bytes)) := by
  refine Intake.accepts_bytes.bind_done ?_
  rw [ByteOrder.get, if_pos hwidth]
  exact ⟨rfl, rfl⟩

/-- Emitting an image takes as many bytes as it is wide, which read back as its low bytes. -/
theorem accepts_readImage {settings : Settings} {path : Path} {width : Nat} {image : UInt64}
    {bytes : Bytes} (path' : Path)
    (h : (emitImage settings path width image).Yields bytes ()) :
    bytes.length = width ∧
      (readImage settings path' width).Accepts bytes
        (UInt64.ofNat (image.toNat % 256 ^ width)) := by
  unfold emitImage ByteOrder.put at h
  cases hwidth : isScalarWidth width with
  | false =>
      rw [hwidth] at h
      exact (Emission.not_yields_fail h).elim
  | true =>
      rw [hwidth] at h
      have hbytes : bytes = settings.order.bytes width image.toNat := Emission.yields_write.1 h
      have hlength : bytes.length = width := by rw [hbytes, ByteOrder.length_bytes]
      have hread : (readImage settings path' bytes.length).Accepts bytes
          (UInt64.ofNat (settings.order.toNat bytes)) :=
        accepts_readImage_bytes (by rw [hlength, hwidth])
      rw [hlength] at hread
      rw [← ByteOrder.toNat_bytes settings.order, ← hbytes]
      exact ⟨hlength, hread⟩

/-- A scalar that an exact wire type takes comes back from its bytes. -/
theorem accepts_decodeScalar {settings : Settings} {path : Path} {scalar : Scalar}
    {wire : WireType} {image : UInt64} {bytes : Bytes} (path' : Path)
    (hexact : scalar.type.isExactAs wire = true) (himage : scalar.toImage wire = .ok image)
    (h : (emitImage settings path wire.byteSize image).Yields bytes ()) :
    (decodeScalar settings path' wire scalar.type).Accepts bytes scalar := by
  obtain ⟨-, hread⟩ := accepts_readImage path' h
  have hlow : (UInt64.ofNat (image.toNat % 256 ^ wire.byteSize)).toNat % 256 ^ wire.byteSize =
      image.toNat % 256 ^ wire.byteSize := by
    have hlt : image.toNat % 256 ^ wire.byteSize < 2 ^ 64 :=
      Nat.lt_of_le_of_lt (Nat.mod_le _ _) image.toNat_lt
    rw [UInt64.toNat_ofNat', Nat.mod_eq_of_lt hlt, Nat.mod_mod]
  refine hread.bind_done ?_
  rw [ScalarType.ofImage_toImage hexact himage hlow]
  exact ⟨rfl, rfl⟩

end PackedRecord
