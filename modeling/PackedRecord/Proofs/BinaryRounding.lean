import Mathlib
import PackedRecord.Host.Image

/-!
# Rounding in binary formats

A binary format keeps as many binary digits of an integer as its fraction holds and one more.
`BinaryFormat.units_nearest` says that the pattern which is nearest to a scaled integer stands for
the integer rounded to so many digits. An integer in the 64-bit format, that number in the 32-bit
format, and a 32-bit number in the 64-bit format are cases of it. The last section says what they
are for the floating-point numbers of the host.
-/

namespace PackedRecord

namespace BinaryFormat

/-! ## Rounding of quotients -/

variable {n k divisor : Nat}

/-- A common factor does not change a rounded quotient. -/
theorem divRoundEven_mul_right (hk : 0 < k) (n divisor : Nat) :
    divRoundEven (n * k) (divisor * k) = divRoundEven n divisor := by
  have hless : divisor * k < 2 * (n % divisor * k) ↔ divisor < 2 * (n % divisor) := by
    rw [← Nat.mul_assoc, Nat.mul_lt_mul_right hk]
  have hequal : 2 * (n % divisor * k) = divisor * k ↔ 2 * (n % divisor) = divisor := by
    rw [← Nat.mul_assoc, Nat.mul_right_cancel_iff hk]
  simp only [divRoundEven, Nat.mul_div_mul_right _ _ hk, Nat.mul_mod_mul_right, gt_iff_lt, hless,
    hequal]

/-- A quotient that is no less than an integer is not rounded below that. -/
theorem le_divRoundEven (hpos : 0 < divisor) (h : k * divisor ≤ n) :
    k ≤ divRoundEven n divisor := by
  have hquotient : k ≤ n / divisor := (Nat.le_div_iff_mul_le hpos).2 h
  simp only [divRoundEven]
  split <;> omega

/-- A quotient that is no more than an integer is not rounded above that. -/
theorem divRoundEven_le (hpos : 0 < divisor) (h : n ≤ k * divisor) :
    divRoundEven n divisor ≤ k := by
  have hsplit := Nat.div_add_mod' n divisor
  have hquotient : n / divisor ≤ k := Nat.div_le_of_le_mul (by rwa [Nat.mul_comm])
  rcases Nat.lt_or_eq_of_le hquotient with hless | hequal
  · simp only [divRoundEven]
    split <;> omega
  · rw [hequal] at hsplit
    have hremainder : n % divisor = 0 := by omega
    simp only [divRoundEven, hremainder]
    split <;> omega

/-- A quotient without remainder is exact. -/
theorem divRoundEven_mul (hpos : 0 < divisor) (k : Nat) : divRoundEven (k * divisor) divisor = k :=
  Nat.le_antisymm (divRoundEven_le hpos (Nat.le_refl _)) (le_divRoundEven hpos (Nat.le_refl _))

/-- From half of the divisor below an even multiple on, the quotient is rounded up to it. -/
theorem even_le_divRoundEven_iff {half : Nat} (hpos : 0 < half) (heven : k % 2 = 0) :
    k ≤ divRoundEven n (2 * half) ↔ k * (2 * half) ≤ n + half := by
  have hsplit := Nat.div_add_mod' n (2 * half)
  have hremainder := Nat.mod_lt n (show 0 < 2 * half by omega)
  simp only [divRoundEven]
  generalize n / (2 * half) = quotient at hsplit
  generalize n % (2 * half) = remainder at hsplit hremainder
  have hmul (a b : Nat) (h : a ≤ b) : a * (2 * half) ≤ b * (2 * half) := Nat.mul_le_mul_right _ h
  rcases Nat.lt_trichotomy k (quotient + 1) with hless | rfl | hgreater
  · have := hmul k quotient (by omega)
    split <;> omega
  · -- The quotient is odd, so that a tie goes up.
    rw [Nat.add_mul]
    split <;> omega
  · have := hmul (quotient + 2) k (by omega)
    rw [Nat.add_mul] at this
    split <;> omega

/-! ## Rounding of integers -/

section integers

variable {format : BinaryFormat} {bound : Nat}

/-- `n` rounded to one binary digit more than the fraction has. -/
def rounded (format : BinaryFormat) (n : Nat) : Nat :=
  divRoundEven n (2 ^ (n.log2 - format.fractionBits)) * 2 ^ (n.log2 - format.fractionBits)

/-- Zero is rounded to zero. -/
@[simp] theorem rounded_zero (format : BinaryFormat) : format.rounded 0 = 0 := by
  simp [rounded, divRoundEven]

/-- A number that ends in enough zeros is not changed. -/
theorem rounded_of_dvd (h : 2 ^ (n.log2 - format.fractionBits) ∣ n) : format.rounded n = n := by
  rw [rounded]
  generalize n.log2 - format.fractionBits = dropped at h
  obtain ⟨k, rfl⟩ := h
  rw [Nat.mul_comm (2 ^ dropped) k, divRoundEven_mul (Nat.two_pow_pos dropped)]

/-- A number with no more digits than are kept is not changed. -/
theorem rounded_of_lt (h : n < 2 ^ (format.fractionBits + 1)) : format.rounded n = n := by
  have hdropped : n.log2 - format.fractionBits = 0 := by
    rcases Nat.eq_zero_or_pos n with rfl | hpos
    · simp
    · have := (Nat.log2_lt hpos.ne').2 h
      omega
  refine rounded_of_dvd ?_
  rw [hdropped]
  exact Nat.one_dvd n

/-- A number up to a power of two has no more binary digits than that. -/
theorem log2_le_of_le (h : n ≤ 2 ^ bound) : n.log2 ≤ bound := by
  rcases Nat.eq_zero_or_pos n with rfl | hpos
  · simp
  · have hpower : 2 ^ n.log2 ≤ 2 ^ bound := (Nat.log2_self_le hpos.ne').trans h
    exact (Nat.pow_le_pow_iff_right (by decide)).1 hpower

/-- Rounding does not go beyond a power of two. -/
theorem rounded_le (format : BinaryFormat) (h : n ≤ 2 ^ bound) : format.rounded n ≤ 2 ^ bound := by
  rcases Nat.lt_or_ge n (2 ^ (format.fractionBits + 1)) with hsmall | hlarge
  · rwa [rounded_of_lt hsmall]
  have hpos : n ≠ 0 := by
    have := Nat.two_pow_pos (format.fractionBits + 1)
    omega
  have hlog : format.fractionBits + 1 ≤ n.log2 := (Nat.le_log2 hpos).2 hlarge
  have hbound := log2_le_of_le h
  have hsplit : bound =
      bound - (n.log2 - format.fractionBits) + (n.log2 - format.fractionBits) := by
    omega
  rw [rounded, hsplit, Nat.pow_add]
  refine Nat.mul_le_mul_right _ (divRoundEven_le (Nat.two_pow_pos _) ?_)
  rwa [← Nat.pow_add, ← hsplit]

/-- Which numbers of the greatest number of digits are rounded up to a number that has an even
number of units in the last of the digits that are kept. -/
theorem le_rounded_iff (format : BinaryFormat) {dropped : Nat} (hdropped : 0 < dropped)
    (hn : n < 2 ^ (format.fractionBits + 1 + dropped)) (hk : 2 ^ format.fractionBits < k)
    (heven : k % 2 = 0) :
    k * 2 ^ dropped ≤ format.rounded n ↔ k * 2 ^ dropped ≤ n + 2 ^ (dropped - 1) := by
  have hhalf : 2 * 2 ^ (dropped - 1) = 2 ^ dropped := by
    rw [← Nat.pow_succ', Nat.succ_eq_add_one, Nat.sub_add_cancel hdropped]
  have hpos := Nat.two_pow_pos (dropped - 1)
  rcases Nat.lt_or_ge n (2 ^ (format.fractionBits + dropped)) with hsmall | hlarge
  · have hrounded := rounded_le format hsmall.le
    have hbeyond : (2 ^ format.fractionBits + 1) * 2 ^ dropped ≤ k * 2 ^ dropped :=
      Nat.mul_le_mul_right _ hk
    rw [Nat.add_mul, ← Nat.pow_add] at hbeyond
    omega
  · have hlog : n.log2 - format.fractionBits = dropped := by
      rw [(Nat.log2_eq_iff (Nat.two_pow_pos _ |>.trans_le hlarge).ne').2 ⟨hlarge, ?_⟩]
      · omega
      · rwa [Nat.add_right_comm]
    rw [rounded, hlog, Nat.mul_le_mul_right_iff (Nat.two_pow_pos _), ← hhalf,
      even_le_divRoundEven_iff hpos heven]

/-- The numbers that are not rounded up to the power of two above them. -/
theorem rounded_lt_iff (format : BinaryFormat) {dropped : Nat} (hdropped : 0 < dropped)
    (hn : n ≤ 2 ^ (format.fractionBits + 1 + dropped)) :
    format.rounded n < 2 ^ (format.fractionBits + 1 + dropped) ↔
      n + 2 ^ (dropped - 1) < 2 ^ (format.fractionBits + 1 + dropped) := by
  rcases Nat.lt_or_eq_of_le hn with hless | rfl
  · have hrounded := le_rounded_iff format (k := 2 ^ (format.fractionBits + 1)) hdropped hless
      (Nat.pow_lt_pow_right (by decide) (Nat.lt_succ_self _)) (by rw [Nat.pow_succ]; omega)
    rw [← Nat.pow_add] at hrounded
    omega
  · have hpos := Nat.two_pow_pos (dropped - 1)
    rw [rounded_of_dvd (Nat.pow_dvd_pow 2 (by rw [Nat.log2_two_pow]; omega))]
    omega

end integers

/-! ## Patterns -/

section patterns

variable {format : BinaryFormat} {bits : Nat}

/-- The sign stands in front of the exponent and the fraction. -/
theorem signBit_eq (format : BinaryFormat) :
    format.signBit = 2 ^ format.exponentBits * 2 ^ format.fractionBits := by
  rw [signBit, Nat.pow_add, Nat.mul_comm]

/-- The pattern of infinity has no sign. -/
theorem infinity_lt_signBit (format : BinaryFormat) : format.infinity < format.signBit := by
  have hexponent := Nat.two_pow_pos format.exponentBits
  rw [signBit_eq, infinity]
  exact Nat.mul_lt_mul_of_pos_right (by omega) (Nat.two_pow_pos _)

/-- A pattern without a sign is its own magnitude. -/
theorem magnitude_of_lt (h : bits < format.signBit) : format.magnitude bits = bits :=
  Nat.mod_eq_of_lt h

/-- A sign is no part of the magnitude. -/
theorem magnitude_withSign (negative : Bool) (h : bits < format.signBit) :
    format.magnitude (format.withSign negative bits) = bits := by
  cases negative with
  | false => exact magnitude_of_lt h
  | true => rw [withSign, if_pos rfl, magnitude, Nat.add_mod_left, Nat.mod_eq_of_lt h]

/-- A pattern is as negative as its sign says. -/
theorem isNegative_withSign (negative : Bool) (h : bits < format.signBit) :
    format.isNegative (format.withSign negative bits) = negative := by
  have hpos : 0 < format.signBit := by omega
  cases negative with
  | false => simp [isNegative, withSign, Nat.div_eq_of_lt h]
  | true => simp [isNegative, withSign, Nat.add_div_left _ hpos, Nat.div_eq_of_lt h]

/-- The units of a pattern are those of its magnitude. -/
theorem units_magnitude (format : BinaryFormat) (bits : Nat) :
    format.units (format.magnitude bits) = format.units bits := by
  have hmagnitude : format.magnitude (format.magnitude bits) = format.magnitude bits :=
    Nat.mod_mod bits _
  unfold units
  rw [hmagnitude]

/-- A sign does not change the units. -/
theorem units_withSign (negative : Bool) (h : bits < format.signBit) :
    format.units (format.withSign negative bits) = format.units bits := by
  simp only [units, magnitude_withSign negative h, magnitude_of_lt h]

/-- The fraction of a pattern may overflow into its exponent. -/
theorem units_add {exponent fraction : Nat} (hfraction : fraction ≤ 2 ^ (format.fractionBits + 1))
    (hnormal : exponent = 0 ∨ 2 ^ format.fractionBits ≤ fraction)
    (hsign : exponent * 2 ^ format.fractionBits + fraction < format.signBit) :
    format.units (exponent * 2 ^ format.fractionBits + fraction) = fraction * 2 ^ exponent := by
  have hpos := Nat.two_pow_pos format.fractionBits
  simp only [units, magnitude_of_lt hsign]
  rw [Nat.pow_succ] at hfraction
  rcases Nat.lt_or_ge fraction (2 ^ format.fractionBits) with hsmall | hlarge
  · obtain rfl : exponent = 0 := by omega
    simp [Nat.div_eq_of_lt hsmall, Nat.mod_eq_of_lt hsmall]
  obtain ⟨rest, rfl⟩ := Nat.exists_eq_add_of_le hlarge
  rcases Nat.lt_or_ge rest (2 ^ format.fractionBits) with hrest | hrest
  · rw [← Nat.add_assoc, ← Nat.succ_mul, Nat.mul_comm, Nat.mul_add_div hpos,
      Nat.mul_add_mod, Nat.div_eq_of_lt hrest, Nat.mod_eq_of_lt hrest]
    simp
  · obtain rfl : rest = 2 ^ format.fractionBits := by omega
    have hcarry : exponent * 2 ^ format.fractionBits +
        (2 ^ format.fractionBits + 2 ^ format.fractionBits) =
        (exponent + 2) * 2 ^ format.fractionBits := by ring
    rw [hcarry, Nat.mul_div_cancel _ hpos, Nat.mul_mod_left]
    simp [Nat.pow_succ, ← Nat.mul_two, Nat.mul_assoc, Nat.mul_comm 2]

/-- The number of digits of a scaled integer. -/
theorem log2_mul_two_pow (hn : 0 < n) (scale : Nat) : (n * 2 ^ scale).log2 = n.log2 + scale := by
  rw [Nat.log2_eq_iff (Nat.mul_pos hn (Nat.two_pow_pos _)).ne', Nat.pow_add, Nat.add_right_comm,
    Nat.pow_add]
  exact ⟨Nat.mul_le_mul_right _ (Nat.log2_self_le hn.ne'),
    Nat.mul_lt_mul_of_pos_right Nat.lt_log2_self (Nat.two_pow_pos _)⟩

/-- A scaled integer without all digits but those that are kept. -/
def kept (format : BinaryFormat) (n scale : Nat) : Nat :=
  divRoundEven (n * 2 ^ scale) (2 ^ (n.log2 + scale - format.fractionBits))

/-- The digits that are kept of a scaled integer are those of the rounded one. -/
theorem kept_mul (format : BinaryFormat) (n : Nat) {scale : Nat}
    (hscale : format.fractionBits ≤ scale) :
    format.kept n scale * 2 ^ (n.log2 + scale - format.fractionBits) =
      format.rounded n * 2 ^ scale := by
  rcases Nat.lt_or_ge n.log2 format.fractionBits with hsmall | hlarge
  · have hexact : n * 2 ^ scale =
        n * 2 ^ (format.fractionBits - n.log2) * 2 ^ (n.log2 + scale - format.fractionBits) := by
      rw [Nat.mul_assoc, ← Nat.pow_add]
      congr 2
      omega
    have hfits : n < 2 ^ (format.fractionBits + 1) :=
      Nat.lt_log2_self.trans (Nat.pow_lt_pow_right (by decide) (by omega))
    rw [kept, rounded_of_lt hfits, hexact, divRoundEven_mul (Nat.two_pow_pos _)]
  · rw [kept, Nat.sub_add_comm hlarge, Nat.pow_add, divRoundEven_mul_right (Nat.two_pow_pos _),
      rounded, Nat.mul_assoc]

/-- The digits that are kept fill the fraction, up to a carry. -/
theorem kept_bounds (format : BinaryFormat) {scale : Nat} (hn : 0 < n)
    (hscale : format.fractionBits ≤ scale) :
    2 ^ format.fractionBits ≤ format.kept n scale ∧
      format.kept n scale ≤ 2 ^ (format.fractionBits + 1) := by
  constructor
  · refine le_divRoundEven (Nat.two_pow_pos _) ?_
    rw [← Nat.pow_add, show format.fractionBits + (n.log2 + scale - format.fractionBits) =
      n.log2 + scale by omega, Nat.pow_add]
    exact Nat.mul_le_mul_right _ (Nat.log2_self_le hn.ne')
  · refine divRoundEven_le (Nat.two_pow_pos _) ?_
    rw [← Nat.pow_add, show format.fractionBits + 1 + (n.log2 + scale - format.fractionBits) =
      n.log2 + 1 + scale by omega, Nat.pow_add]
    exact Nat.mul_le_mul_right _ Nat.lt_log2_self.le

/-- Zero has the pattern without bits, whatever the scale. -/
theorem nearest_zero (format : BinaryFormat) (shift : Nat) : format.nearest 0 shift = 0 := by
  simp [nearest, divRoundEven]

/-- The pattern that is nearest to an integer, which is scaled so far that the fraction does not
reach below its point, stands for the rounded integer. -/
theorem units_nearest (format : BinaryFormat) (n scale shift : Nat)
    (hscale : shift + format.fractionBits ≤ scale)
    (hfinite : n.log2 + (scale - format.fractionBits - shift) + 2 < 2 ^ format.exponentBits - 1) :
    format.nearest (n * 2 ^ scale) shift < format.infinity ∧
      format.units (format.nearest (n * 2 ^ scale) shift) =
        format.rounded n * 2 ^ (scale - shift) := by
  have hpos := Nat.two_pow_pos format.fractionBits
  rcases Nat.eq_zero_or_pos n with rfl | hn
  · rw [Nat.zero_mul, nearest_zero, rounded_zero, Nat.zero_mul]
    exact ⟨Nat.mul_pos (by omega) hpos, by simp [units, magnitude]⟩
  obtain ⟨hlow, hhigh⟩ := kept_bounds format hn (show _ ≤ scale by omega)
  have hvalue := kept_mul format n (show _ ≤ scale by omega)
  obtain ⟨exponent, hexponent⟩ : ∃ exponent,
      n.log2 + scale - format.fractionBits = exponent + shift :=
    ⟨_, (Nat.sub_add_cancel (by omega)).symm⟩
  have hnearest : format.nearest (n * 2 ^ scale) shift =
      min format.infinity (exponent * 2 ^ format.fractionBits + format.kept n scale) := by
    have hdropped : max ((n * 2 ^ scale).log2 - format.fractionBits) shift = exponent + shift := by
      rw [log2_mul_two_pow hn]
      omega
    simp only [nearest, hdropped, Nat.add_sub_cancel, kept, hexponent]
  generalize format.kept n scale = q at hlow hhigh hvalue hnearest
  have hpattern : exponent * 2 ^ format.fractionBits + q < format.infinity := by
    have hcarry : (exponent + 2) * 2 ^ format.fractionBits < format.infinity :=
      Nat.mul_lt_mul_of_pos_right (by omega) hpos
    rw [Nat.pow_succ] at hhigh
    rw [Nat.add_mul] at hcarry
    omega
  rw [hnearest, Nat.min_eq_right hpattern.le,
    units_add hhigh (.inr hlow) (hpattern.trans format.infinity_lt_signBit)]
  refine ⟨hpattern, Nat.mul_right_cancel (Nat.two_pow_pos shift) ?_⟩
  rw [Nat.mul_assoc, ← Nat.pow_add, Nat.mul_assoc, ← Nat.pow_add, ← hexponent, hvalue,
    Nat.sub_add_cancel (by omega)]

/-- The integer part of a finite pattern. -/
theorem truncate?_withSign (negative : Bool) (h : bits < format.infinity) :
    format.truncate? (format.withSign negative bits) =
      some (if negative then -((format.units bits / 2 ^ format.unitExponent : Nat) : Int)
        else (format.units bits / 2 ^ format.unitExponent : Nat)) := by
  have hsign := h.trans format.infinity_lt_signBit
  have hfinite : format.isFinite (format.withSign negative bits) = true := by
    rw [isFinite, magnitude_withSign negative hsign, decide_eq_true_eq]
    exact h
  simp only [truncate?, hfinite, if_true, units_withSign negative hsign,
    isNegative_withSign negative hsign]
  rfl

/-- A number is less than the first one of the next exponent. -/
theorem units_lt_of_exponent (h : bits < format.signBit) :
    format.units bits < 2 ^ format.fractionBits * 2 ^ (bits / 2 ^ format.fractionBits) := by
  have hfraction := Nat.mod_lt bits (Nat.two_pow_pos format.fractionBits)
  simp only [units, magnitude_of_lt h]
  split
  next hzero => rwa [hzero, Nat.pow_zero, Nat.mul_one]
  next hnormal =>
    have hdouble : 2 ^ (bits / 2 ^ format.fractionBits) =
        2 * 2 ^ (bits / 2 ^ format.fractionBits - 1) := by
      rw [← Nat.pow_succ', Nat.succ_eq_add_one, Nat.sub_add_cancel (Nat.pos_of_ne_zero hnormal)]
    rw [hdouble, ← Nat.mul_assoc]
    exact Nat.mul_lt_mul_of_pos_right (by omega) (Nat.two_pow_pos _)

/-- A number is not less than the first one of its exponent. -/
theorem le_units_of_exponent (h : bits < format.signBit)
    (hnormal : bits / 2 ^ format.fractionBits ≠ 0) :
    2 ^ format.fractionBits * 2 ^ (bits / 2 ^ format.fractionBits - 1) ≤ format.units bits := by
  simp only [units, magnitude_of_lt h, if_neg hnormal]
  exact Nat.mul_le_mul_right _ (Nat.le_add_right _ _)

/-- Patterns without sign are ordered as the numbers that they stand for. -/
theorem units_lt {other : Nat} (hother : other < format.signBit) (h : bits < other) :
    format.units bits < format.units other := by
  have hbits := h.trans hother
  have hexponent : bits / 2 ^ format.fractionBits ≤ other / 2 ^ format.fractionBits :=
    Nat.div_le_div_right h.le
  rcases Nat.lt_or_eq_of_le hexponent with hless | hequal
  · calc
      format.units bits < 2 ^ format.fractionBits * 2 ^ (bits / 2 ^ format.fractionBits) :=
        units_lt_of_exponent hbits
      _ ≤ 2 ^ format.fractionBits * 2 ^ (other / 2 ^ format.fractionBits - 1) :=
        Nat.mul_le_mul_left _ (Nat.pow_le_pow_right (by decide) (Nat.le_sub_one_of_lt hless))
      _ ≤ format.units other := le_units_of_exponent hother (Nat.ne_zero_of_lt hless)
  · have hfraction : bits % 2 ^ format.fractionBits < other % 2 ^ format.fractionBits := by
      have hsplit := Nat.div_add_mod' bits (2 ^ format.fractionBits)
      have hsplit' := Nat.div_add_mod' other (2 ^ format.fractionBits)
      rw [hequal] at hsplit
      omega
    simp only [units, magnitude_of_lt hother, magnitude_of_lt hbits, hequal]
    split
    · exact hfraction
    · exact Nat.mul_lt_mul_of_pos_right (by omega) (Nat.two_pow_pos _)

/-- Patterns without a sign are ordered as their units. -/
theorem units_le {other : Nat} (hother : other < format.signBit) (h : bits ≤ other) :
    format.units bits ≤ format.units other := by
  rcases Nat.lt_or_eq_of_le h with hless | rfl
  · exact (units_lt hother hless).le
  · exact Nat.le_refl _

/-- The nearest pattern of a natural number has no sign. -/
theorem nearest_lt_signBit (format : BinaryFormat) (n shift : Nat) :
    format.nearest n shift < format.signBit :=
  (Nat.min_le_left _ _).trans_lt format.infinity_lt_signBit

/-- A pattern with a sign is no longer than the format. -/
theorem withSign_lt (negative : Bool) (h : bits < format.signBit) :
    format.withSign negative bits < 2 * format.signBit := by
  cases negative with
  | false => exact h.trans (by omega)
  | true =>
      show format.signBit + bits < 2 * format.signBit
      omega

end patterns

/-! ## Conversions -/

section conversions

variable {format target : BinaryFormat} {bits : Nat}

/-- A finite number is converted to the nearest one. -/
theorem convert_of_finite (h : format.isFinite bits = true) :
    format.convert target bits = target.withSign (format.isNegative bits)
      (target.nearest (format.units bits * 2 ^ target.unitExponent) format.unitExponent) := by
  have hnumber : format.isNan bits = false := by
    rw [isFinite, decide_eq_true_eq] at h
    rw [isNan, decide_eq_false_iff_not]
    omega
  simp only [convert, hnumber, h, Bool.false_eq_true, if_false, if_true]

/-- A conversion keeps the sign, and what is not finite stays so. -/
theorem exists_convert (format : BinaryFormat) (hpos : 0 < target.fractionBits) (bits : Nat) :
    ∃ magnitude < target.signBit,
      format.convert target bits = target.withSign (format.isNegative bits) magnitude ∧
      (format.isFinite bits = false → target.infinity ≤ magnitude) := by
  cases hfinite : format.isFinite bits with
  | true =>
      exact ⟨_, nearest_lt_signBit _ _ _, convert_of_finite hfinite, fun h => absurd h (by decide)⟩
  | false =>
      -- The quiet bit and the payload of a NaN lie below the exponent.
      have hquiet : 2 ^ target.fractionBits = 2 ^ (target.fractionBits - 1) * 2 := by
        rw [← Nat.pow_succ, Nat.succ_eq_add_one, Nat.sub_add_cancel hpos]
      have hsign : target.signBit = target.infinity + 2 ^ target.fractionBits := by
        have hexponent := Nat.two_pow_pos target.exponentBits
        rw [signBit_eq, infinity, ← Nat.succ_mul, Nat.succ_eq_add_one,
          Nat.sub_add_cancel hexponent]
      have hpayload : format.magnitude bits % 2 ^ format.fractionBits * 2 ^ target.fractionBits /
          2 ^ format.fractionBits < 2 ^ target.fractionBits := by
        rw [Nat.div_lt_iff_lt_mul (Nat.two_pow_pos _), Nat.mul_comm (2 ^ target.fractionBits)]
        exact Nat.mul_lt_mul_of_pos_right (Nat.mod_lt _ (Nat.two_pow_pos _)) (Nat.two_pow_pos _)
      simp only [convert, hfinite, Bool.false_eq_true, if_false]
      split
      · refine ⟨_, ?_, rfl, fun _ => Nat.le_add_right _ _⟩
        split <;> omega
      · exact ⟨_, target.infinity_lt_signBit, rfl, fun _ => Nat.le_refl _⟩

/-- What is not finite stays so in another format. -/
theorem isFinite_convert (hpos : 0 < target.fractionBits) (h : format.isFinite bits = false) :
    target.isFinite (format.convert target bits) = false := by
  obtain ⟨magnitude, hsign, hconvert, hinfinite⟩ := exists_convert format hpos bits
  rw [hconvert, isFinite, magnitude_withSign _ hsign, decide_eq_false_iff_not]
  exact Nat.not_lt.2 (hinfinite h)

/-- A converted pattern is no longer than its format. -/
theorem convert_lt (hpos : 0 < target.fractionBits) (bits : Nat) :
    format.convert target bits < 2 * target.signBit := by
  obtain ⟨magnitude, hsign, hconvert, -⟩ := exists_convert format hpos bits
  rw [hconvert]
  exact withSign_lt _ hsign

/-- A 32-bit number has no more digits than a 64-bit one keeps. -/
theorem rounded_units32 (bits : Nat) :
    binary64.rounded (binary32.units bits) = binary32.units bits := by
  obtain ⟨digits, exponent, hdigits, hunits⟩ : ∃ digits exponent, digits < 2 ^ 24 ∧
      binary32.units bits = digits * 2 ^ exponent := by
    have hfraction := Nat.mod_lt (binary32.magnitude bits) (Nat.two_pow_pos 23)
    simp only [units]
    split
    · exact ⟨_, 0, hfraction.trans (by decide), (Nat.mul_one _).symm⟩
    · exact ⟨_, _, Nat.add_lt_add_left hfraction _, rfl⟩
  rw [hunits]
  rcases Nat.eq_zero_or_pos digits with rfl | hpos
  · rw [Nat.zero_mul, rounded_zero]
  refine rounded_of_dvd (Nat.dvd_trans (Nat.pow_dvd_pow 2 ?_) (Nat.dvd_mul_left _ digits))
  have hlog := (Nat.log2_lt hpos.ne').2 hdigits
  rw [log2_mul_two_pow hpos]
  show digits.log2 + exponent - 52 ≤ exponent
  omega

/-- The units of a finite 32-bit number have no more digits than its exponent allows. -/
theorem log2_units32_lt (h : binary32.isFinite bits = true) :
    (binary32.units bits).log2 < 23 + 254 := by
  rw [isFinite, decide_eq_true_eq] at h
  have hsign := h.trans binary32.infinity_lt_signBit
  have hexponent : binary32.magnitude bits / 2 ^ 23 ≤ 254 := by
    have hlarge : binary32.magnitude bits < 255 * 2 ^ 23 := h
    omega
  have hunits : binary32.units (binary32.magnitude bits) < 2 ^ 23 * 2 ^ 254 :=
    (units_lt_of_exponent hsign).trans_le
      (Nat.mul_le_mul_left _ (Nat.pow_le_pow_right (by decide) hexponent))
  rw [units_magnitude, ← Nat.pow_add] at hunits
  rcases Nat.eq_zero_or_pos (binary32.units bits) with hzero | hpos
  · rw [hzero, Nat.log2_zero]
    decide
  · exact (Nat.log2_lt hpos.ne').2 hunits

/-- A finite 32-bit number is exactly the 64-bit number that it is converted to. -/
theorem convert32 (h : binary32.isFinite bits = true) :
    ∃ magnitude < binary64.infinity,
      binary32.convert binary64 bits = binary64.withSign (binary32.isNegative bits) magnitude ∧
      binary64.units magnitude =
        binary32.units bits * 2 ^ (binary64.unitExponent - binary32.unitExponent) := by
  have hlog := log2_units32_lt h
  obtain ⟨hfinite, hunits⟩ := units_nearest binary64 (binary32.units bits)
    binary64.unitExponent binary32.unitExponent (by decide) (by
      show (binary32.units bits).log2 + 873 + 2 < 2047
      omega)
  refine ⟨_, hfinite, convert_of_finite h, ?_⟩
  rw [hunits, rounded_units32]

/-- The integer part of a 32-bit number is that of the 64-bit one. -/
theorem truncate?_convert32 (bits : Nat) :
    binary64.truncate? (binary32.convert binary64 bits) = binary32.truncate? bits := by
  cases hfinite : binary32.isFinite bits with
  | false =>
      rw [truncate?, isFinite_convert (by decide) hfinite, truncate?, hfinite]
      rfl
  | true =>
      obtain ⟨magnitude, hmagnitude, hconvert, hunits⟩ := convert32 hfinite
      have hsplit : 2 ^ binary64.unitExponent = 2 ^ binary32.unitExponent *
          2 ^ (binary64.unitExponent - binary32.unitExponent) := by
        rw [← Nat.pow_add, Nat.add_sub_cancel' (by decide)]
      rw [hconvert, truncate?_withSign _ hmagnitude, hunits, hsplit,
        Nat.mul_div_mul_right _ _ (Nat.two_pow_pos _), truncate?, hfinite]
      rfl

/-- An integer of no more than 65 digits as a 64-bit number. -/
theorem ofInt64 {value : Int} (h : value.natAbs ≤ 2 ^ 64) :
    ∃ magnitude < binary64.infinity,
      binary64.ofInt value = binary64.withSign (decide (value < 0)) magnitude ∧
      binary64.units magnitude = binary64.rounded value.natAbs * 2 ^ binary64.unitExponent := by
  have hlog := log2_le_of_le h
  obtain ⟨hfinite, hunits⟩ := units_nearest binary64 value.natAbs
    binary64.unitExponent 0 (by decide) (by
      show value.natAbs.log2 + 1022 + 2 < 2047
      omega)
  rw [Nat.sub_zero] at hunits
  exact ⟨_, hfinite, rfl, hunits⟩

/-- An integer of no more than 65 digits as a 32-bit number, by way of the 64-bit format. -/
theorem convert64_ofInt {value : Int} (h : value.natAbs ≤ 2 ^ 64) :
    ∃ magnitude < binary32.infinity,
      binary64.convert binary32 (binary64.ofInt value) =
        binary32.withSign (decide (value < 0)) magnitude ∧
      binary32.units magnitude =
        binary32.rounded (binary64.rounded value.natAbs) * 2 ^ binary32.unitExponent := by
  obtain ⟨magnitude, hmagnitude, hofInt, hunits⟩ := ofInt64 h
  have hsign := hmagnitude.trans binary64.infinity_lt_signBit
  have hfinite : binary64.isFinite (binary64.ofInt value) = true := by
    rw [hofInt, isFinite, magnitude_withSign _ hsign, decide_eq_true_eq]
    exact hmagnitude
  have hlog := log2_le_of_le (rounded_le binary64 h)
  obtain ⟨hnearest, hnumber⟩ := units_nearest binary32
    (binary64.rounded value.natAbs) (binary64.unitExponent + binary32.unitExponent)
    binary64.unitExponent (by decide) (by
      show (binary64.rounded value.natAbs).log2 + 126 + 2 < 255
      omega)
  refine ⟨_, hnearest, ?_, ?_⟩
  · rw [convert_of_finite hfinite, hofInt, isNegative_withSign _ hsign, units_withSign _ hsign,
      hunits, Nat.mul_assoc, ← Nat.pow_add]
  · rw [hnumber, Nat.add_sub_cancel_left]

end conversions

end BinaryFormat

open BinaryFormat

/-! ## Floating-point numbers of the host -/

section scalars

variable {value : Int}

/-- Widening a number is the conversion of its pattern to the 64-bit format. -/
theorem toNat_widen (bits : UInt32) :
    (widen bits).toNat = binary32.convert .binary64 bits.toNat := by
  rw [widen, UInt64.toNat_ofNat', Nat.mod_eq_of_lt]
  exact (convert_lt (by decide) _).trans_eq (by decide)

/-- Narrowing a number is the conversion of its pattern to the 32-bit format. -/
theorem toNat_narrow (bits : UInt64) :
    (narrow bits).toNat = binary64.convert .binary32 bits.toNat := by
  rw [narrow, UInt32.toNat_ofNat', Nat.mod_eq_of_lt]
  exact (convert_lt (by decide) _).trans_eq (by decide)

/-- As a floating-point number an integer is the nearest pattern of the 64-bit format. -/
theorem toNat_toFloat_int (value : Int) :
    (Number.int value).toFloat.toNat = binary64.ofInt value := by
  rw [Number.toFloat, UInt64.toNat_ofNat', Nat.mod_eq_of_lt]
  exact (withSign_lt _ (nearest_lt_signBit _ _ _)).trans_eq (by decide)

/-- The integer part of a 32-bit number, which is read as a 64-bit one. -/
theorem truncate?_widen (bits : UInt32) :
    binary64.truncate? (widen bits).toNat = binary32.truncate? bits.toNat := by
  rw [toNat_widen, truncate?_convert32]

/-- The greatest 32-bit number, and the magnitude that it has as a 64-bit one. -/
theorem exists_greatest32 : ∃ magnitude < binary64.infinity,
    binary64.magnitude (widen 0x7F7FFFFF).toNat = magnitude ∧
      binary64.units magnitude =
        binary32.units 0x7F7FFFFF * 2 ^ (binary64.unitExponent - binary32.unitExponent) := by
  obtain ⟨magnitude, hmagnitude, hconvert, hunits⟩ :=
    convert32 (show binary32.isFinite 0x7F7FFFFF = true by decide)
  refine ⟨magnitude, hmagnitude, ?_, hunits⟩
  rw [toNat_widen]
  show binary64.magnitude (binary32.convert binary64 0x7F7FFFFF) = magnitude
  rw [hconvert, magnitude_withSign _ (hmagnitude.trans (infinity_lt_signBit _))]

/-- A finite number is beyond the 32-bit ones only if it has more units than the greatest of
them. -/
theorem exceedsBinary32_eq_false {bits : UInt64} {negative : Bool} {magnitude : Nat}
    (hbits : bits.toNat = binary64.withSign negative magnitude)
    (hmagnitude : magnitude < binary64.infinity)
    (hunits : binary64.units magnitude ≤
      binary32.units 0x7F7FFFFF * 2 ^ (binary64.unitExponent - binary32.unitExponent)) :
    exceedsBinary32 bits = false := by
  obtain ⟨greatest, hgreatest, hwiden, hunits'⟩ := exists_greatest32
  have hsign := hmagnitude.trans (infinity_lt_signBit _)
  have hle : ¬ greatest < magnitude := by
    intro hless
    have := units_lt hsign hless
    omega
  rw [exceedsBinary32, hbits, magnitude_withSign _ hsign, hwiden, decide_eq_false hle,
    Bool.and_false]

/-- A 32-bit number that was widened does not exceed the 32-bit format. -/
theorem exceedsBinary32_widen (bits : UInt32) : exceedsBinary32 (widen bits) = false := by
  cases hfinite : binary32.isFinite bits.toNat with
  | false =>
      rw [exceedsBinary32, toNat_widen, isFinite_convert (by decide) hfinite, Bool.false_and]
  | true =>
      obtain ⟨magnitude, hmagnitude, hconvert, hunits⟩ := convert32 hfinite
      refine exceedsBinary32_eq_false ((toNat_widen bits).trans hconvert) hmagnitude ?_
      rw [isFinite, decide_eq_true_eq] at hfinite
      rw [hunits, ← units_magnitude]
      refine Nat.mul_le_mul_right _ (units_le (by decide) ?_)
      have hlarge : binary32.magnitude bits.toNat < 0x7F800000 := hfinite
      omega

/-- No integer of 64 bits exceeds the 32-bit format. -/
theorem exceedsBinary32_int (h : value.natAbs ≤ 2 ^ 64) :
    exceedsBinary32 (Number.int value).toFloat = false := by
  obtain ⟨magnitude, hmagnitude, hofInt, hunits⟩ := ofInt64 h
  refine exceedsBinary32_eq_false ((toNat_toFloat_int value).trans hofInt) hmagnitude ?_
  have hsplit : 2 ^ binary64.unitExponent = 2 ^ binary32.unitExponent *
      2 ^ (binary64.unitExponent - binary32.unitExponent) := by
    rw [← Nat.pow_add, Nat.add_sub_cancel' (by decide)]
  rw [hunits, hsplit, ← Nat.mul_assoc]
  refine Nat.mul_le_mul_right _ ?_
  exact (Nat.mul_le_mul_right _ (rounded_le _ h)).trans (by decide)

end scalars

end PackedRecord
