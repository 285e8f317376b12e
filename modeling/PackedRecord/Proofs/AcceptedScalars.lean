import PackedRecord.Proofs.BinaryRounding
import PackedRecord.Proofs.IntegerImages
import PackedRecord.Proofs.ReusedDestinations

/-!
# Scalars that come back in some form

A wire type that takes a scalar need not hold it exactly, but nearly always a scalar of the same
type can be read from it. `ScalarType.ofImage_iff_not_lost` says when not: if a floating-point
number was cut off to a bitmap that has no format of its own, or if an integer was rounded beyond
the range of its type.
-/

namespace PackedRecord

open BinaryFormat

/-- The least number that a floating-point wire type rounds up to a power of two beyond the integer
type, if there is one. For the 32-bit format it is rounded to the 64-bit one before. -/
def IntType.edge? (type : IntType) (wire : WireType) : Option Nat :=
  match type, wire with
  | .i32, .float32 => some (2 ^ 31 - 2 ^ 6)
  | .u32, .float32 => some (2 ^ 32 - 2 ^ 7)
  | .i64, .float32 | .isize, .float32 => some (2 ^ 63 - 2 ^ 38 - 2 ^ 9)
  | .u64, .float32 | .usize, .float32 => some (2 ^ 64 - 2 ^ 39 - 2 ^ 10)
  | .i64, .float64 | .isize, .float64 => some (2 ^ 63 - 2 ^ 9)
  | .u64, .float64 | .usize, .float64 => some (2 ^ 64 - 2 ^ 10)
  | _, _ => none

/-- What cannot be read as a scalar of the same type from a wire type that takes it. -/
inductive Scalar.LostOn (wire : WireType) : Scalar → Prop where
  | f32 {bits : UInt32} (hwire : wire = .byte ∨ wire = .word) : LostOn wire (.f32 bits)
  | f64 {bits : UInt64} (hwire : wire = .byte ∨ wire = .word) : LostOn wire (.f64 bits)
  | int {content : HostInt} {edge : Nat} (hedge : content.type.edge? wire = some edge)
      (hvalue : edge ≤ content.value) : LostOn wire (.int content)

/-- An integer is lost on a wire type only from the edge of its type on. -/
theorem Scalar.not_lostOn_int {wire : WireType} {content : HostInt} :
    ¬ (Scalar.int content).LostOn wire ↔
      ∀ edge, content.type.edge? wire = some edge → content.value < (edge : Int) := by
  constructor
  · intro h edge hedge
    by_contra hvalue
    exact h (.int hedge (not_lt.1 hvalue))
  · rintro h (_ | _ | ⟨hedge, hvalue⟩)
    exact absurd (h _ hedge) (not_lt.2 hvalue)

/-! ## Integers that are rounded -/

/-- The number of binary digits of the greatest value. -/
def IntType.digits (type : IntType) : Nat :=
  if type.isSigned then 8 * type.width - 1 else 8 * type.width

/-- What a floating-point wire type makes of a natural number. -/
def WireType.rounded (wire : WireType) (n : Nat) : Nat :=
  if wire = .float32 then binary32.rounded (binary64.rounded n) else binary64.rounded n

section rounding

variable {type : IntType} {wire : WireType} {value : Int} {n : Nat}

/-- An integer type holds what its binary digits and its sign have room for. -/
theorem IntType.holds_iff_digits (type : IntType) (value : Int) :
    type.Holds value ↔ (if type.isSigned then -2 ^ type.digits else 0) ≤ value ∧
      value < 2 ^ type.digits := by
  cases type <;> simp [Holds, least, greatest, isSigned, width, digits] <;> omega

/-- No integer type has more than 64 binary digits. -/
theorem IntType.digits_le (type : IntType) : type.digits ≤ 64 := by
  cases type <;> decide

/-- Rounding does not lead beyond a power of two. -/
theorem WireType.rounded_le {digits : Nat} (wire : WireType) (h : n ≤ 2 ^ digits) :
    wire.rounded n ≤ 2 ^ digits := by
  unfold rounded
  split
  · exact BinaryFormat.rounded_le _ (BinaryFormat.rounded_le _ h)
  · exact BinaryFormat.rounded_le _ h

/-- Zero is rounded to zero on every wire type. -/
@[simp] theorem WireType.rounded_zero (wire : WireType) : wire.rounded 0 = 0 := by
  simp [rounded]

/-- From the 64-bit format, a number is rounded once more to the 32-bit one. -/
theorem rounded_rounded_lt_iff {dropped : Nat} (hdropped : 0 < dropped)
    (hn : n < 2 ^ (53 + dropped)) :
    binary32.rounded (binary64.rounded n) < 2 ^ (53 + dropped) ↔
      n + 2 ^ (dropped - 1) < (2 ^ 53 - 2 ^ 28) * 2 ^ dropped := by
  have houter := BinaryFormat.rounded_lt_iff binary32 (show 0 < 29 + dropped by omega)
    (show binary64.rounded n ≤ 2 ^ (24 + (29 + dropped)) by
      rw [← Nat.add_assoc]
      exact BinaryFormat.rounded_le _ hn.le)
  have hinner := le_rounded_iff binary64 (k := 2 ^ 53 - 2 ^ 28) hdropped
    (show n < 2 ^ (52 + 1 + dropped) from hn) (by decide) (by decide)
  have hexponent : binary32.fractionBits + 1 + (29 + dropped) = 53 + dropped := by
    show 24 + (29 + dropped) = 53 + dropped
    omega
  rw [hexponent, show 29 + dropped - 1 = 28 + dropped by omega, Nat.pow_add 2 28,
    Nat.pow_add 2 53] at houter
  rw [Nat.pow_add]
  omega

/-- In the 64-bit format, a number stays below the next power of two exactly if it is more than half
a unit away from it. -/
theorem rounded64_lt_iff {dropped : Nat} (hdropped : 0 < dropped) (hn : n < 2 ^ (53 + dropped)) :
    binary64.rounded n < 2 ^ (53 + dropped) ↔ n + 2 ^ (dropped - 1) < 2 ^ (53 + dropped) :=
  BinaryFormat.rounded_lt_iff binary64 hdropped hn.le

/-- In the 32-bit format, a number stays below the next power of two exactly if it is more than half
a unit away from it. -/
theorem rounded32_lt_iff {dropped : Nat} (hdropped : 0 < dropped) (hn : n < 2 ^ (24 + dropped)) :
    binary32.rounded n < 2 ^ (24 + dropped) ↔ n + 2 ^ (dropped - 1) < 2 ^ (24 + dropped) :=
  BinaryFormat.rounded_lt_iff binary32 hdropped hn.le

/-- The integers of the type that rounding leaves below the power of two beyond it. -/
theorem WireType.rounded_lt_iff (type : IntType) (hkind : wire.kind = .float)
    (hn : n < 2 ^ type.digits) :
    wire.rounded n < 2 ^ type.digits ↔ ∀ edge, type.edge? wire = some edge → n < edge := by
  generalize hdigits : type.digits = digits at hn ⊢
  have hnone {rounded : Nat} (hexact : rounded = n) (hedge : type.edge? wire = none) :
      rounded < 2 ^ digits ↔ ∀ edge, type.edge? wire = some edge → n < edge := by
    simp [hexact, hn, hedge]
  have hsome {rounded least : Nat} (hrounded : rounded < 2 ^ digits ↔ n < least)
      (hedge : type.edge? wire = some least) :
      rounded < 2 ^ digits ↔ ∀ edge, type.edge? wire = some edge → n < edge := by
    simp [hrounded, hedge]
  have hexact64 (h : digits ≤ 53) : binary64.rounded n = n :=
    rounded_of_lt (hn.trans_le (Nat.pow_le_pow_right (by decide) h))
  have hexact32 (h : digits ≤ 24) : binary32.rounded (binary64.rounded n) = n := by
    rw [hexact64 (by omega)]
    exact rounded_of_lt (hn.trans_le (Nat.pow_le_pow_right (by decide) h))
  cases wire <;> cases hkind
  case float64 =>
    show binary64.rounded n < _ ↔ _
    cases type
    case i64 | isize =>
      obtain rfl : 53 + 10 = digits := hdigits
      refine hsome ((rounded64_lt_iff (by decide) hn).trans ?_) rfl
      omega
    case u64 | usize =>
      obtain rfl : 53 + 11 = digits := hdigits
      refine hsome ((rounded64_lt_iff (by decide) hn).trans ?_) rfl
      omega
    all_goals exact hnone (hexact64 (hdigits.symm.trans_le (by decide))) rfl
  case float32 =>
    show binary32.rounded (binary64.rounded n) < _ ↔ _
    cases type
    case i32 =>
      obtain rfl : 24 + 7 = digits := hdigits
      rw [hexact64 (by decide)]
      refine hsome ((rounded32_lt_iff (by decide) hn).trans ?_) rfl
      omega
    case u32 =>
      obtain rfl : 24 + 8 = digits := hdigits
      rw [hexact64 (by decide)]
      refine hsome ((rounded32_lt_iff (by decide) hn).trans ?_) rfl
      omega
    case i64 | isize =>
      obtain rfl : 53 + 10 = digits := hdigits
      refine hsome ((rounded_rounded_lt_iff (by decide) hn).trans ?_) rfl
      omega
    case u64 | usize =>
      obtain rfl : 53 + 11 = digits := hdigits
      refine hsome ((rounded_rounded_lt_iff (by decide) hn).trans ?_) rfl
      omega
    all_goals exact hnone (hexact32 (hdigits.symm.trans_le (by decide))) rfl

/-- The type holds a rounded integer of its own, unless it lies beyond the edge. -/
theorem IntType.holds_rounded_iff (hkind : wire.kind = .float) (holds : type.Holds value) :
    type.Holds (value.sign * wire.rounded value.natAbs) ↔
      ∀ edge, type.edge? wire = some edge → value < (edge : Int) := by
  rw [type.holds_iff_digits] at holds ⊢
  have hcast : ((2 ^ type.digits : Nat) : Int) = 2 ^ type.digits := by push_cast; rfl
  rcases lt_or_ge value 0 with hneg | hnonneg
  · have hrounded : wire.rounded value.natAbs ≤ 2 ^ type.digits := by
      refine wire.rounded_le ?_
      split at holds <;> omega
    rw [Int.sign_eq_neg_one_of_neg hneg]
    split at holds
    next hsigned =>
      rw [if_pos hsigned]
      refine ⟨fun _ edge _ => by omega, fun _ => by omega⟩
    next => omega
  · obtain ⟨n, rfl⟩ := Int.eq_ofNat_of_zero_le hnonneg
    have hsign : (n : Int).sign * wire.rounded (n : Int).natAbs = wire.rounded n := by
      rw [Int.natAbs_natCast]
      rcases Nat.eq_zero_or_pos n with rfl | hpos
      · simp
      · rw [Int.sign_eq_one_of_pos (by omega), one_mul]
    have hlt := WireType.rounded_lt_iff type hkind (show n < 2 ^ type.digits by omega)
    rw [hsign]
    simp only [Nat.cast_lt]
    rw [← hlt]
    have hpos := Nat.two_pow_pos type.digits
    split <;> omega

end rounding

/-! ## What is read -/

section images

variable {scalar : Scalar} {host : ScalarType} {wire : WireType} {image : UInt64} {value : Int}

/-- A floating-point number that truncates to a small integer is read as that. -/
theorem integer?_of_truncate {bits : UInt64} {n : Nat}
    (h : BinaryFormat.binary64.truncate? bits.toNat = some (value.sign * n)) (hn : n ≤ 2 ^ 64) :
    (Number.float bits).integer? = some (value.sign * n) := by
  have hclamp : clamp128 (value.sign * n) = value.sign * n := by
    unfold clamp128
    rcases Int.sign_trichotomy value with hsign | hsign | hsign <;> rw [hsign] <;> omega
  rw [Number.integer?, h, Option.map_some, hclamp]

/-- A natural number with the sign of an integer is the product with that sign. -/
theorem sign_mul {n : Nat} (h : value = 0 → n = 0) :
    (if decide (value < 0) = true then -(n : Int) else n) = value.sign * n := by
  rcases lt_trichotomy value 0 with hneg | hzero | hpos
  · rw [if_pos (decide_eq_true hneg), Int.sign_eq_neg_one_of_neg hneg, Int.neg_one_mul]
  · simp [hzero, h hzero]
  · rw [if_neg (by simp [hpos.le]), Int.sign_eq_one_of_pos hpos, Int.one_mul]

/-- An integer in a floating-point wire type is read as the rounded integer. -/
theorem integer?_float (wire : WireType) (hvalue : value.natAbs ≤ 2 ^ 64) :
    (Number.float (if wire = .float32 then widen (narrow (Number.int value).toFloat)
      else (Number.int value).toFloat)).integer? =
        some (value.sign * wire.rounded value.natAbs) := by
  refine integer?_of_truncate ?_ (wire.rounded_le hvalue)
  have hzero (format : BinaryFormat) : 0 < 2 ^ format.unitExponent := Nat.two_pow_pos _
  unfold WireType.rounded
  split
  · obtain ⟨magnitude, hmagnitude, hconvert, hunits⟩ := convert64_ofInt hvalue
    rw [truncate?_widen, toNat_narrow, toNat_toFloat_int, hconvert,
      truncate?_withSign _ hmagnitude, hunits, Nat.mul_div_cancel _ (hzero _), sign_mul]
    rintro rfl
    simp
  · obtain ⟨magnitude, hmagnitude, hofInt, hunits⟩ := ofInt64 hvalue
    rw [toNat_toFloat_int, hofInt, truncate?_withSign _ hmagnitude, hunits,
      Nat.mul_div_cancel _ (hzero _), sign_mul]
    rintro rfl
    simp

/-- A pattern of 32 bits is in the low bytes of its image. -/
theorem ofNat_image32 (bits : UInt32) :
    UInt32.ofNat ((UInt64.ofNat bits.toNat).toNat % 256 ^ 4) = bits := by
  have hbits := bits.toNat_lt
  rw [UInt64.toNat_ofNat', Nat.mod_eq_of_lt (by omega), Nat.mod_eq_of_lt (by omega),
    UInt32.ofNat_toNat]

/-- A 64-bit pattern is given back by its eight bytes. -/
theorem ofNat_image64 (bits : UInt64) : UInt64.ofNat (bits.toNat % 256 ^ 8) = bits := by
  have hbits := bits.toNat_lt
  rw [Nat.mod_eq_of_lt (by omega), UInt64.ofNat_toNat]

/-- What a floating-point wire type holds is the same number to every destination. -/
theorem numberIn_float (host : ScalarType) (hkind : wire.kind = .float)
    (himage : scalar.toImage wire = .ok image) :
    host.numberIn wire image = .ok (.float (if wire = .float32
      then widen (narrow scalar.toNumber.toFloat) else scalar.toNumber.toFloat)) := by
  simp only [Scalar.toImage, hkind, Except.ok.injEq] at himage
  simp only [ScalarType.numberIn, hkind]
  cases wire <;> cases hkind <;> cases himage
  · exact congrArg (Except.ok <| Number.float <| widen ·) (ofNat_image32 _)
  · exact congrArg (Except.ok <| Number.float ·) (ofNat_image64 _)

/-- A wire type that takes a scalar is numeric. -/
theorem isNumeric_of_toImage (himage : scalar.toImage wire = .ok image) :
    wire.isNumeric = true := by
  cases hkind : wire.kind with
  | signed | unsigned | bitmap | float => simp only [WireType.isNumeric, hkind]
  | _ => simp [Scalar.toImage, hkind] at himage

/-- Whether the host type finds a number in every image of a numeric wire type: the floating-point
types have no use for a bitmap that is narrower than both formats. -/
theorem ofBitmap?_eq_none_iff (hkind : wire.kind = .bitmap) (n : Nat) :
    host.ofBitmap? wire n = none ↔
      (host = .f32 ∨ host = .f64) ∧ (wire = .byte ∨ wire = .word) := by
  cases host with
  | bool => simp [ScalarType.ofBitmap?, ScalarType.isSigned]
  | int type =>
      simp only [ScalarType.ofBitmap?, reduceCtorEq, or_self, false_and, iff_false]
      split <;> exact Option.some_ne_none _
  | f32 => cases wire <;> cases hkind <;> simp [ScalarType.ofBitmap?]
  | f64 => cases wire <;> cases hkind <;> simp [ScalarType.ofBitmap?]

/-- Only a floating-point destination refuses an image, and only that of a bitmap without a format
of its own. -/
theorem numberIn_eq_error_iff (host : ScalarType) (image : UInt64)
    (hnumeric : wire.isNumeric = true) :
    (∃ fault, host.numberIn wire image = .error fault) ↔
      (host = .f32 ∨ host = .f64) ∧ (wire = .byte ∨ wire = .word) := by
  cases hkind : wire.kind with
  | bitmap =>
    rw [← ofBitmap?_eq_none_iff hkind (image.toNat % 256 ^ wire.byteSize)]
    simp only [ScalarType.numberIn, hkind]
    cases host.ofBitmap? wire (image.toNat % 256 ^ wire.byteSize) <;> simp
  | signed | unsigned | float =>
    have hother : ¬ (wire = .byte ∨ wire = .word) := by
      rintro (rfl | rfl) <;> cases hkind
    simp [ScalarType.numberIn, hkind, hother]
  | _ => simp [WireType.isNumeric, hkind] at hnumeric

/-- What was extended with its sign has a magnitude of 64 bits. -/
theorem natAbs_signExtend_le {size n : Nat} (hsize : size ≤ 8) (hn : n < 256 ^ size) :
    (signExtend size n).natAbs ≤ 2 ^ 64 := by
  have hpower : 256 ^ size ≤ 256 ^ 8 := Nat.pow_le_pow_right (by decide) hsize
  have hcast : ((256 ^ size : Nat) : Int) = 256 ^ size := by norm_cast
  unfold signExtend
  split <;> omega

/-- What is read for a 32-bit number is not beyond the greatest of them. -/
theorem exceedsBinary32_of_numberIn {bits : UInt32} {number : Number}
    (himage : (Scalar.f32 bits).toImage wire = .ok image)
    (hnumber : ScalarType.f32.numberIn wire image = .ok number) :
    exceedsBinary32 number.toFloat = false := by
  have hn : image.toNat % 256 ^ wire.byteSize < 256 ^ wire.byteSize :=
    Nat.mod_lt _ (Nat.pow_pos (by decide))
  have hlarge : 256 ^ wire.byteSize ≤ 256 ^ 8 := Nat.pow_le_pow_right (by decide) wire.byteSize_le
  cases hkind : wire.kind with
  | signed =>
    simp only [ScalarType.numberIn, hkind, Except.ok.injEq] at hnumber
    rw [← hnumber]
    exact exceedsBinary32_int (natAbs_signExtend_le wire.byteSize_le hn)
  | unsigned =>
    simp only [ScalarType.numberIn, hkind, Except.ok.injEq] at hnumber
    rw [← hnumber]
    exact exceedsBinary32_int (by omega)
  | float =>
    rw [numberIn_float _ hkind himage, Except.ok.injEq] at hnumber
    rw [← hnumber]
    show exceedsBinary32
      (if wire = .float32 then widen (narrow (widen bits)) else widen bits) = false
    split <;> exact exceedsBinary32_widen _
  | bitmap =>
    cases wire <;> cases hkind
    · cases hnumber
    · cases hnumber
    · cases hnumber
      exact exceedsBinary32_widen _
    · cases himage
      cases hnumber
      show exceedsBinary32 (UInt64.ofNat ((widen bits).toNat % 256 ^ 8)) = false
      rw [ofNat_image64, exceedsBinary32_widen]
  | _ => simp [ScalarType.numberIn, hkind] at hnumber

/-- An integer comes back from an integer wire type, and from a bitmap up to its high bytes. -/
theorem exists_ofImage_int {content : HostInt}
    (himage : (Scalar.int content).toImage wire = .ok image)
    (hkind : wire.kind ≠ .float) :
    ∃ back, (ScalarType.int content.type).ofImage wire image = .ok back := by
  have hnumeric := isNumeric_of_toImage himage
  have hexact (h : (Scalar.int content).type.isExactAs wire = true) :
      ∃ back, (ScalarType.int content.type).ofImage wire image = .ok back :=
    ⟨_, ScalarType.ofImage_toImage h himage rfl⟩
  cases hkind' : wire.kind with
  | signed | unsigned => exact hexact (by simp [Scalar.type, ScalarType.isExactAs, hkind'])
  | bitmap =>
    obtain ⟨hwidth, -⟩ := Scalar.toImage_bitmap hkind' himage
    rcases Nat.eq_or_lt_of_le hwidth with hsame | hnarrow
    · exact hexact (by simp [Scalar.type, ScalarType.isExactAs, hkind', hsame])
    · -- A wider type holds every number that is read without a sign.
      have hlow : image.toNat % 256 ^ wire.byteSize < 256 ^ wire.byteSize :=
        Nat.mod_lt _ (Nat.pow_pos (by decide))
      have holds := IntType.holds_of_narrow hnarrow
        (Int.natCast_nonneg (image.toNat % 256 ^ wire.byteSize)) (by exact_mod_cast hlow)
      have hnumber := ScalarType.numberIn_bitmap hkind' content.type image
      rw [IntType.reading, if_neg fun h => absurd h.2 (Nat.not_le.2 hnarrow)] at hnumber
      rw [ScalarType.ofImage_of_number hnumber]
      exact ⟨_, dif_pos holds⟩
  | float => exact absurd hkind' hkind
  | _ => simp [WireType.isNumeric, hkind'] at hnumeric

/-- What an integer type holds has a magnitude of 64 bits. -/
theorem natAbs_le_of_holds {type : IntType} (holds : type.Holds value) : value.natAbs ≤ 2 ^ 64 := by
  have hdigits : 2 ^ type.digits ≤ 2 ^ 64 := Nat.pow_le_pow_right (by decide) type.digits_le
  have hcast : ((2 ^ type.digits : Nat) : Int) = 2 ^ type.digits := by push_cast; rfl
  rw [type.holds_iff_digits] at holds
  split at holds <;> omega

/-- An integer comes back from a floating-point wire type as what it was rounded to. -/
theorem ofImage_int_float {content : HostInt} (hkind : wire.kind = .float)
    (himage : (Scalar.int content).toImage wire = .ok image) :
    (∃ back, (ScalarType.int content.type).ofImage wire image = .ok back) ↔
      content.type.Holds (content.value.sign * wire.rounded content.value.natAbs) := by
  have hinteger := integer?_float wire (natAbs_le_of_holds content.holds)
  rw [ScalarType.ofImage, numberIn_float _ hkind himage]
  simp only [ScalarType.ofNumber, Scalar.toNumber, hinteger, Option.bind_some, HostInt.ofInt?]
  split_ifs with holds <;> simp [holds]

/-- Only a floating-point wire type has an edge for an integer type. -/
theorem IntType.edge?_eq_none {type : IntType} (hkind : wire.kind ≠ .float) :
    type.edge? wire = none := by
  cases wire <;> first | exact absurd rfl hkind | cases type <;> rfl

/-- Every scalar that a wire type takes can be read from it as a scalar of the same type, but for
floating-point numbers that were cut off to a `byte` or a `word`, which hold no pattern of theirs,
and for the greatest integers of a type with more digits than a floating-point wire type keeps, from
the edge on at which rounding takes them out of the range of the type. -/
theorem ScalarType.ofImage_iff_not_lost (himage : scalar.toImage wire = .ok image) :
    (∃ back : Scalar, back.type = scalar.type ∧ scalar.type.ofImage wire image = .ok back) ↔
      ¬ scalar.LostOn wire := by
  have hnumeric := isNumeric_of_toImage himage
  have htype : (∃ back : Scalar, back.type = scalar.type ∧
      scalar.type.ofImage wire image = .ok back) ↔
      ∃ back, scalar.type.ofImage wire image = .ok back :=
    exists_congr fun back => and_iff_right_of_imp type_of_ofImage
  have herror := numberIn_eq_error_iff scalar.type image hnumeric
  rw [htype, ofImage]
  cases hnumber : scalar.type.numberIn wire image with
  | error fault =>
    obtain ⟨hhost, hwire⟩ := herror.1 ⟨fault, hnumber⟩
    have hlost : scalar.LostOn wire := by
      cases scalar with
      | f32 => exact .f32 hwire
      | f64 => exact .f64 hwire
      | _ => simp [Scalar.type] at hhost
    simp [hlost]
  | ok number =>
    have hother : scalar.type = .f32 ∨ scalar.type = .f64 → ¬ (wire = .byte ∨ wire = .word) := by
      intro hhost hwire
      obtain ⟨fault, hfault⟩ := herror.2 ⟨hhost, hwire⟩
      cases hnumber.symm.trans hfault
    cases scalar with
    | bool bit =>
      refine iff_of_true ?_ (by rintro ⟨⟩)
      cases number <;> exact ⟨_, rfl⟩
    | f32 bits =>
      refine iff_of_true ⟨_, if_neg ?_⟩ (by rintro (hwire | -); exact hother (.inl rfl) hwire)
      rw [exceedsBinary32_of_numberIn himage hnumber]
      exact Bool.false_ne_true
    | f64 bits =>
      exact iff_of_true ⟨_, rfl⟩ (by rintro (- | hwire); exact hother (.inr rfl) hwire)
    | int content =>
      have hresult : (∃ back, (ScalarType.int content.type).ofNumber number = .ok back) ↔
          ∃ back, (ScalarType.int content.type).ofImage wire image = .ok back := by
        rw [ofImage, show (ScalarType.int content.type).numberIn wire image = _ from hnumber]
      refine hresult.trans ?_
      rw [Scalar.not_lostOn_int]
      by_cases hkind : wire.kind = .float
      · rw [ofImage_int_float hkind himage, IntType.holds_rounded_iff hkind content.holds]
      · refine iff_of_true (exists_ofImage_int himage hkind) fun edge hedge => ?_
        rw [IntType.edge?_eq_none hkind] at hedge
        cases hedge

/-- The greatest integer below the edge of a signed type comes back from the 64-bit format, as a
number that is less. -/
theorem ofImage_iff_not_lost_below :
    let content : HostInt := ⟨.i64, 2 ^ 63 - 513, by decide⟩
    (Scalar.int content).toImage .float64 = .ok 0x43DFFFFFFFFFFFFF ∧
      ¬ (Scalar.int content).LostOn .float64 ∧
      ∃ back : Scalar, back.type = .int .i64 ∧
        (ScalarType.int .i64).ofImage .float64 0x43DFFFFFFFFFFFFF = .ok back := by
  intro content
  have himage : (Scalar.int content).toImage .float64 = .ok 0x43DFFFFFFFFFFFFF := by
    decide +kernel
  have hkept : ¬ (Scalar.int content).LostOn .float64 := by
    refine Scalar.not_lostOn_int.2 fun edge hedge => ?_
    cases hedge
    decide
  exact ⟨himage, hkept, (ScalarType.ofImage_iff_not_lost himage).2 hkept⟩

/-- A floating-point number is taken by `byte`, and the greatest integer of 64 bits by `float64`,
but neither comes back. -/
theorem not_ofImage_of_toImage :
    ((Scalar.f64 0x401C000000000000).toImage .byte = .ok 7 ∧
      ScalarType.f64.ofImage .byte 7 = .error (.mismatch .f64 .byte)) ∧
    (Scalar.int ⟨.i64, 2 ^ 63 - 1, by decide⟩).toImage .float64 = .ok 0x43E0000000000000 ∧
      (ScalarType.int .i64).ofImage .float64 0x43E0000000000000 =
        .error (.outsideHost (.float 0x43E0000000000000) (.int .i64)) := by
  decide +kernel

end images

end PackedRecord
