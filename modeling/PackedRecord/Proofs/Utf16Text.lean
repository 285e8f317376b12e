import PackedRecord.Proofs.DecodedText
import PackedRecord.Text.Utf16

/-!
# UTF-16 text

Well-formed UTF-16 is a sequence of units that are no surrogates and of pairs of a high and a low
surrogate. `Text.Utf16.lossless_and_strict` says that a codec gives back every text, that it takes
exactly the well-formed byte strings behind a mark that it may look for, and that a codec which
looks for none reads each of them from the bytes that it would write.
-/

namespace PackedRecord

namespace ByteOrder

/-- Bytes stand for a number below the power of their count, in either order. -/
theorem toNat_lt (order : ByteOrder) (data : Bytes) : order.toNat data < 256 ^ data.length := by
  cases order with
  | littleEndian => exact Bytes.toNat_lt data
  | bigEndian =>
      rw [← List.length_reverse]
      exact Bytes.toNat_lt data.reverse

end ByteOrder

namespace Text.Utf16

/-- The code units of well-formed UTF-16. -/
inductive WellFormed : List Nat → Prop where
  | nil : WellFormed []
  | single {unit : Nat} {rest : List Nat}
      (hunit : unit < 0xD800 ∨ 0xE000 ≤ unit ∧ unit < 0x10000) (hrest : WellFormed rest) :
      WellFormed (unit :: rest)
  | pair {high low : Nat} {rest : List Nat} (hhigh : 0xD800 ≤ high ∧ high < 0xDC00)
      (hlow : 0xDC00 ≤ low ∧ low < 0xE000) (hrest : WellFormed rest) :
      WellFormed (high :: low :: rest)

variable {order : ByteOrder} {us : List Nat} {cs : List Char} {data : Bytes}

/-- A unit that is no surrogate is a character. -/
theorem unitsOfChar_of_single {unit : Nat} (hunit : unit < 0xD800 ∨ 0xE000 ≤ unit)
    (hsize : unit < 0x10000) : unitsOfChar (Char.ofNat unit) = [unit] := by
  have hvalid : unit.isValidChar := by
    unfold Nat.isValidChar
    omega
  simp only [unitsOfChar, Utf8.toNat_ofNat_of_valid hvalid, if_pos hsize]

/-- A high and a low surrogate are a character. -/
theorem unitsOfChar_of_pair {high low : Nat} (hhigh : 0xD800 ≤ high ∧ high < 0xDC00)
    (hlow : 0xDC00 ≤ low ∧ low < 0xE000) :
    unitsOfChar (Char.ofNat (0x10000 + 1024 * (high - 0xD800) + (low - 0xDC00))) = [high, low] := by
  have hvalid : (0x10000 + 1024 * (high - 0xD800) + (low - 0xDC00)).isValidChar := by
    unfold Nat.isValidChar
    omega
  have hlarge : ¬ 0x10000 + 1024 * (high - 0xD800) + (low - 0xDC00) < 0x10000 := by omega
  simp only [unitsOfChar, Utf8.toNat_ofNat_of_valid hvalid, if_neg hlarge, List.cons.injEq,
    and_true]
  omega

/-- The units of a text are well formed. -/
theorem wellFormed_units (cs : List Char) : WellFormed (units cs) := by
  induction cs with
  | nil => exact .nil
  | cons c cs ih =>
      have hvalid : c.toNat < 0xD800 ∨ 0xDFFF < c.toNat ∧ c.toNat < 0x110000 := c.valid
      rw [units, List.flatMap_cons, unitsOfChar]
      change WellFormed (_ ++ units cs)
      generalize c.toNat = n at hvalid
      by_cases hplane : n < 0x10000
      · rw [if_pos hplane]
        exact .single (by omega) ih
      · rw [if_neg hplane]
        exact .pair (by omega) (by omega) ih

/-- Units that are read are those of the text. -/
theorem units_ofUnits (hsize : ∀ unit ∈ us, unit < 0x10000) (h : ofUnits us = some cs) :
    units cs = us := by
  fun_induction ofUnits us generalizing cs with
  | case1 =>
      cases h
      rfl
  | case2 unit rest hunit ih =>
      obtain ⟨hhead, hrest⟩ := List.forall_mem_cons.1 hsize
      obtain ⟨others, hothers, rfl⟩ := Option.map_eq_some_iff.1 h
      rw [units, List.flatMap_cons, unitsOfChar_of_single hunit hhead]
      exact congrArg (unit :: ·) (ih hrest hothers)
  | case3 high hhigh hbelow low rest hlow ih =>
      obtain ⟨-, hrest⟩ := List.forall_mem_cons.1 hsize
      obtain ⟨-, hrest⟩ := List.forall_mem_cons.1 hrest
      obtain ⟨others, hothers, rfl⟩ := Option.map_eq_some_iff.1 h
      rw [units, List.flatMap_cons, unitsOfChar_of_pair (by omega) hlow]
      exact congrArg ([high, low] ++ ·) (ih hrest hothers)
  | case4 => cases h
  | case5 => cases h
  | case6 => cases h

/-- Well-formed units are those of some text. -/
theorem WellFormed.exists_units (h : WellFormed us) : ∃ cs, units cs = us := by
  induction h with
  | nil => exact ⟨[], rfl⟩
  | @single unit rest hunit hrest ih =>
      obtain ⟨cs, rfl⟩ := ih
      refine ⟨Char.ofNat unit :: cs, ?_⟩
      rw [units, List.flatMap_cons, unitsOfChar_of_single (by omega) (by omega)]
      rfl
  | @pair high low rest hhigh hlow hrest ih =>
      obtain ⟨cs, rfl⟩ := ih
      refine ⟨Char.ofNat (0x10000 + 1024 * (high - 0xD800) + (low - 0xDC00)) :: cs, ?_⟩
      rw [units, List.flatMap_cons, unitsOfChar_of_pair hhigh hlow]
      rfl

/-- The units of well-formed text have sixteen bits. -/
theorem WellFormed.lt (h : WellFormed us) : ∀ unit ∈ us, unit < 0x10000 := by
  induction h with
  | nil => exact List.forall_mem_nil _
  | single hunit _ ih => exact List.forall_mem_cons.2 ⟨by omega, ih⟩
  | pair hhigh hlow _ ih =>
      exact List.forall_mem_cons.2 ⟨by omega, List.forall_mem_cons.2 ⟨by omega, ih⟩⟩

/-- Units of two bytes come back from their bytes. -/
theorem ofUnitBytes_unitBytes (order : ByteOrder) (hsize : ∀ unit ∈ us, unit < 0x10000) :
    ofUnitBytes order (unitBytes order us) = some us := by
  induction us with
  | nil => rfl
  | cons unit us ih =>
      obtain ⟨hunit, hrest⟩ := List.forall_mem_cons.1 hsize
      obtain ⟨first, second, hbytes⟩ := List.length_eq_two.1 (order.length_bytes 2 unit)
      have hback : order.toNat [first, second] = unit := by
        rw [← hbytes, ByteOrder.toNat_bytes, Nat.mod_eq_of_lt hunit]
      rw [unitBytes, List.flatMap_cons, hbytes]
      show (ofUnitBytes order (unitBytes order us)).map (order.toNat [first, second] :: ·) = _
      rw [ih hrest, hback]
      rfl

/-- Bytes that are cut into units are those of the units, each of which has two of them. -/
theorem unitBytes_ofUnitBytes (h : ofUnitBytes order data = some us) :
    unitBytes order us = data ∧ ∀ unit ∈ us, unit < 0x10000 := by
  fun_induction ofUnitBytes order data generalizing us with
  | case1 =>
      cases h
      exact ⟨rfl, List.forall_mem_nil _⟩
  | case2 => cases h
  | case3 first second rest ih =>
      obtain ⟨others, hothers, rfl⟩ := Option.map_eq_some_iff.1 h
      obtain ⟨hrest, hsize⟩ := ih hothers
      have hbytes := order.bytes_toNat [first, second]
      have hunit : order.toNat [first, second] < 0x10000 :=
        (order.toNat_lt [first, second]).trans_eq (by norm_num)
      refine ⟨?_, List.forall_mem_cons.2 ⟨hunit, hsize⟩⟩
      rw [unitBytes, List.flatMap_cons]
      exact congrArg₂ (· ++ ·) hbytes hrest

/-- Every unit takes two bytes. -/
theorem length_unitBytes (order : ByteOrder) (us : List Nat) :
    (unitBytes order us).length = 2 * us.length := by
  induction us with
  | nil => rfl
  | cons unit us ih =>
      rw [unitBytes, List.flatMap_cons, List.length_append, order.length_bytes, List.length_cons]
      change 2 + (unitBytes order us).length = _
      omega

/-- The byte order of the text in `data`, and the bytes of its units. A codec with a mark removes
one that stands in front, and reads on in the order of that mark. -/
inductive Body (codec : Utf16) : Bytes → ByteOrder → Bytes → Prop where
  | marked (order : ByteOrder) {rest : Bytes} (hmark : codec.mark = true) :
      Body codec (order.bytes 2 markUnit ++ rest) order rest
  | whole {data : Bytes}
      (hplain : codec.mark = true → ∀ order : ByteOrder, ¬ order.bytes 2 markUnit <+: data) :
      Body codec data codec.order data

variable {codec : Utf16} {body : Bytes}

/-- The body of a text is what is left of it when a mark is split off. -/
theorem body_iff_splitMark : Body codec data order body ↔ codec.splitMark data = (order, body) := by
  constructor
  · rintro (⟨_, hmark⟩ | hplain)
    · cases order <;> simp only [splitMark, hmark] <;> rfl
    · unfold splitMark
      split
      next hmark => exact absurd ⟨_, rfl⟩ (hplain hmark .littleEndian)
      next hmark => exact absurd ⟨_, rfl⟩ (hplain hmark .bigEndian)
      next => rfl
  · intro h
    unfold splitMark at h
    split at h
    next hmark =>
      cases h
      exact .marked .littleEndian hmark
    next hmark =>
      cases h
      exact .marked .bigEndian hmark
    next hlittle hbig =>
      cases h
      refine .whole fun hmark order => ?_
      rintro ⟨rest, rfl⟩
      cases order with
      | littleEndian => exact hlittle rest hmark rfl
      | bigEndian => exact hbig rest hmark rfl

/-- What a codec wrote is behind the mark that it wrote. -/
theorem body_encodeChars (codec : Utf16) (cs : List Char) :
    Body codec (codec.encodeChars cs) codec.order (unitBytes codec.order (units cs)) := by
  cases hmark : codec.mark with
  | true =>
      simp only [encodeChars, hmark, if_true]
      exact .marked _ hmark
  | false =>
      simp only [encodeChars, hmark, Bool.false_eq_true, if_false, List.nil_append]
      exact .whole fun hmark' => absurd (hmark.symm.trans hmark') Bool.false_ne_true

/-- Characters are read from the bytes of their units, and from no other ones. -/
theorem decodeChars_eq_ok_iff :
    codec.decodeChars data = .ok cs ↔
      ∃ order, Body codec data order (unitBytes order (units cs)) := by
  unfold decodeChars
  constructor
  · intro h
    cases hsplit : codec.splitMark data with
    | mk order body =>
      rw [hsplit] at h
      simp only at h
      split at h
      next => cases h
      next us hus =>
        split at h
        next => cases h
        next cs' hcs =>
          cases h
          obtain ⟨rfl, hsize⟩ := unitBytes_ofUnitBytes hus
          rw [units_ofUnits hsize hcs]
          exact ⟨order, body_iff_splitMark.2 hsplit⟩
  · rintro ⟨order, hbody⟩
    rw [body_iff_splitMark.1 hbody]
    simp only [ofUnitBytes_unitBytes order (wellFormed_units cs).lt, ofUnits_units]

/-- Bytes decode to a text exactly if they decode to its characters. -/
theorem decode_eq_ok_iff {text : Bytes} :
    codec.decode data = .ok text ↔
      ∃ cs, codec.decodeChars data = .ok cs ∧ Utf8.encodeChars cs = text := by
  unfold decode
  cases codec.decodeChars data with
  | error fault => simp [Except.map]
  | ok cs => simp [Except.map]

/-- A codec encodes the characters of a text. -/
theorem encode_encodeChars (codec : Utf16) (cs : List Char) :
    codec.encode (Utf8.encodeChars cs) = .ok (codec.encodeChars cs) := by
  rw [encode, Utf8.decodeChars, Utf8.decodeFrom_encodeChars]

/-- A codec without a mark reads the bytes that it would write. -/
theorem Body.eq_encodeChars (hmark : codec.mark = false)
    (h : Body codec data order (unitBytes order (units cs))) : codec.encodeChars cs = data := by
  generalize hbody : unitBytes order (units cs) = body at h
  cases h with
  | marked _ hmark' => cases hmark.symm.trans hmark'
  | whole => simp only [encodeChars, hmark, Bool.false_eq_true, if_false, List.nil_append, hbody]

/-- A body of well-formed units has an even number of bytes, and the mark in front has two. -/
theorem Body.length_mod (h : Body codec data order (unitBytes order us)) : data.length % 2 = 0 := by
  generalize hbody : unitBytes order us = body at h
  have hlength := congrArg List.length hbody
  rw [length_unitBytes] at hlength
  cases h with
  | marked => rw [List.length_append, ByteOrder.length_bytes]; omega
  | whole => omega

/-- A codec gives back every text, one that begins with a byte order mark of its own included. It
takes exactly the byte strings of even length that are well-formed UTF-16 behind the mark, which it
looks for if it writes one, and in the byte order of that mark. If it looks for none, it reads each
text from the bytes that it writes, and from no other ones. -/
theorem lossless_and_strict (codec : Utf16) :
    (∀ text : String, ∃ data, codec.encode (Utf8.encode text) = .ok data ∧
      codec.decode data = .ok (Utf8.encode text)) ∧
    (∀ data, (∃ text, codec.decode data = .ok text) ↔
      data.length % 2 = 0 ∧
        ∃ order us, Body codec data order (unitBytes order us) ∧ WellFormed us) ∧
    (codec.mark = false →
      ∀ data text, codec.decode data = .ok text → codec.encode text = .ok data) := by
  refine ⟨fun text => ?_, fun data => ⟨?_, ?_⟩, fun hmark data text h => ?_⟩
  · have hchars : codec.decodeChars (codec.encodeChars text.toList) = .ok text.toList :=
      decodeChars_eq_ok_iff.2 ⟨_, body_encodeChars codec text.toList⟩
    exact ⟨_, encode_encodeChars codec text.toList, decode_eq_ok_iff.2 ⟨_, hchars, rfl⟩⟩
  · rintro ⟨text, h⟩
    obtain ⟨cs, hchars, -⟩ := decode_eq_ok_iff.1 h
    obtain ⟨order, hbody⟩ := decodeChars_eq_ok_iff.1 hchars
    exact ⟨hbody.length_mod, order, _, hbody, wellFormed_units cs⟩
  · rintro ⟨-, order, us, hbody, hus⟩
    obtain ⟨cs, rfl⟩ := hus.exists_units
    exact ⟨_, decode_eq_ok_iff.2 ⟨cs, decodeChars_eq_ok_iff.2 ⟨order, hbody⟩, rfl⟩⟩
  · obtain ⟨cs, hchars, rfl⟩ := decode_eq_ok_iff.1 h
    obtain ⟨order, hbody⟩ := decodeChars_eq_ok_iff.1 hchars
    rw [encode_encodeChars, hbody.eq_encodeChars hmark]

/-- Without a mark, the bytes of a mark are text, and so they are written again. -/
theorem lossless_and_strict_mark :
    let codec : Utf16 := ⟨.littleEndian, false⟩
    codec.mark = false ∧
      codec.decode [0xFF, 0xFE, 0x34, 0xD8, 0x1E, 0xDD] = .ok (Utf8.encode "\uFEFF𝄞") ∧
      codec.encode (Utf8.encode "\uFEFF𝄞") = .ok [0xFF, 0xFE, 0x34, 0xD8, 0x1E, 0xDD] := by
  intro codec
  have hdecode : codec.decode [0xFF, 0xFE, 0x34, 0xD8, 0x1E, 0xDD] =
      .ok (Utf8.encode "\uFEFF𝄞") := by cbv
  exact ⟨rfl, hdecode, (lossless_and_strict codec).2.2 rfl _ _ hdecode⟩

end Text.Utf16

end PackedRecord
