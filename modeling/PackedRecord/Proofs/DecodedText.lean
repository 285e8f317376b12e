import Mathlib
import PackedRecord.Text.Utf8

/-!
# Decoded text

A byte sequence stands for one text only, and a text for one byte sequence: the decoder of UTF-8
admits the shortest sequence of each character and no other one. `Text.Utf8.encode_of_decode` says
that bytes which are decoded are the encoding of what they are decoded to.
-/

namespace PackedRecord

namespace Text.Utf8

/-- What the first byte of a sequence says of it: the bits in front, and the range of the byte
behind it, which is all but a whole one where a shorter sequence, a surrogate or no character at
all would come out. -/
inductive Leads (byte code : Nat) : List ByteRange → Prop where
  | one (hbyte : byte = code) (hcode : code < 0x80) : Leads byte code []
  | two (hbyte : byte = 0xC0 + code) (hcode : 2 ≤ code ∧ code < 0x20) :
      Leads byte code [continuation]
  | three {low high : Nat} (hbyte : byte = 0xE0 + code) (hcode : code < 0x10)
      (hrange : 0x80 ≤ low ∧ high ≤ 0xBF) (hlow : code = 0 → 0xA0 ≤ low)
      (hhigh : code = 0xD → high ≤ 0x9F) : Leads byte code [⟨low, high⟩, continuation]
  | four {low high : Nat} (hbyte : byte = 0xF0 + code) (hcode : code ≤ 4)
      (hrange : 0x80 ≤ low ∧ high ≤ 0xBF) (hlow : code = 0 → 0x90 ≤ low)
      (hhigh : code = 4 → high ≤ 0x8F) :
      Leads byte code [⟨low, high⟩, continuation, continuation]

/-- What is taken for the first byte of a character is one by the table of lead bytes. -/
theorem leads_of_lead? {byte code : Nat} {ranges : List ByteRange}
    (h : lead? byte = some (code, ranges)) : Leads byte code ranges := by
  unfold lead? at h
  split_ifs at h
  all_goals obtain ⟨rfl, rfl⟩ := Prod.mk.inj (Option.some.inj h)
  · exact .one rfl (by omega)
  · exact .two (by omega) (by omega)
  · exact .three (by omega) (by omega) (by omega) (by omega) (by omega)
  · exact .three (by omega) (by omega) (by omega) (by omega) (by omega)
  · exact .three (by omega) (by omega) (by omega) (by omega) (by omega)
  · exact .four (by omega) (by omega) (by omega) (by omega) (by omega)
  · exact .four (by omega) (by omega) (by omega) (by omega) (by omega)
  · exact .four (by omega) (by omega) (by omega) (by omega) (by omega)

/-- The bytes behind the first one lie in their ranges and add six bits each. -/
theorem tail_of_readTail {index seen code : Nat} {ranges : List ByteRange} {data : Bytes}
    {result : Nat × Bytes} (h : readTail index seen code ranges data = .ok result) :
    ∃ tail : Bytes, data = tail ++ result.2 ∧
      List.Forall₂ (fun range byte => range.least ≤ byte.toNat ∧ byte.toNat ≤ range.greatest)
        ranges tail ∧
      result.1 = tail.foldl (fun code byte => 64 * code + byte.toNat % 64) code := by
  fun_induction readTail index seen code ranges data with
  | case1 => cases h; exact ⟨[], rfl, .nil, rfl⟩
  | case2 => cases h
  | case3 _ _ range ranges byte data hrange ih =>
      obtain ⟨tail, hdata, hranges, hcode⟩ := ih h
      exact ⟨byte :: tail, by rw [hdata, List.cons_append], .cons hrange hranges, hcode⟩
  | case4 => cases h

/-- A valid number is that of its character. -/
theorem toNat_ofNat_of_valid {n : Nat} (h : n.isValidChar) : (Char.ofNat n).toNat = n := by
  rw [Char.ofNat, dif_pos h]
  exact rfl

/-- A byte is given back by its number. -/
theorem ofNat_eq (byte : UInt8) {n : Nat} (h : n = byte.toNat) : UInt8.ofNat n = byte := by
  rw [h, UInt8.ofNat_toNat]

/-- A character that was read is encoded to the bytes that it was read from. -/
theorem encodeChar_of_readChar {index : Nat} {first : UInt8} {rest after : Bytes} {c : Char}
    (h : readChar index first rest = .ok (c, after)) : first :: rest = encodeChar c ++ after := by
  unfold readChar at h
  split at h
  next => cases h
  next code ranges hlead =>
    split at h
    next => cases h
    next last after' htail =>
      obtain ⟨tail, rfl, hranges, hlast⟩ := tail_of_readTail htail
      cases h
      suffices hchar : encodeChar (Char.ofNat last) = first :: tail by
        rw [hchar, List.cons_append]
      simp only at hlast
      cases leads_of_lead? hlead with
      | one hbyte hcode =>
          cases hranges
          obtain rfl : last = code := hlast
          have hvalid : last.isValidChar := .inl (by omega)
          simp only [encodeChar, toNat_ofNat_of_valid hvalid]
          rw [if_pos hcode, ofNat_eq first hbyte.symm]
      | two hbyte hcode =>
          obtain _ | ⟨hsecond, ⟨⟩⟩ := hranges
          rename_i second
          obtain rfl : last = 64 * code + second.toNat % 64 := hlast
          simp only [continuation] at hsecond
          have hvalid : (64 * code + second.toNat % 64).isValidChar := .inl (by omega)
          simp only [encodeChar, toNat_ofNat_of_valid hvalid]
          rw [if_neg (by omega), if_pos (by omega), ofNat_eq first (by omega),
            ofNat_eq second (by omega)]
      | three hbyte hcode hrange hlow hhigh =>
          obtain _ | ⟨hsecond, _ | ⟨hthird, ⟨⟩⟩⟩ := hranges
          rename_i second third
          obtain rfl : last = 64 * (64 * code + second.toNat % 64) + third.toNat % 64 := hlast
          simp only [continuation] at hsecond hthird
          have hvalid : (64 * (64 * code + second.toNat % 64) + third.toNat % 64).isValidChar := by
            unfold Nat.isValidChar
            omega
          simp only [encodeChar, toNat_ofNat_of_valid hvalid]
          rw [if_neg (by omega), if_neg (by omega), if_pos (by omega), ofNat_eq first (by omega),
            ofNat_eq second (by omega), ofNat_eq third (by omega)]
      | four hbyte hcode hrange hlow hhigh =>
          obtain _ | ⟨hsecond, _ | ⟨hthird, _ | ⟨hfourth, ⟨⟩⟩⟩⟩ := hranges
          rename_i second third fourth
          obtain rfl : last = 64 * (64 * (64 * code + second.toNat % 64) + third.toNat % 64) +
              fourth.toNat % 64 := hlast
          simp only [continuation] at hsecond hthird hfourth
          have hvalid : (64 * (64 * (64 * code + second.toNat % 64) + third.toNat % 64) +
              fourth.toNat % 64).isValidChar := by
            unfold Nat.isValidChar
            omega
          simp only [encodeChar, toNat_ofNat_of_valid hvalid]
          rw [if_neg (by omega), if_neg (by omega), if_neg (by omega), ofNat_eq first (by omega),
            ofNat_eq second (by omega), ofNat_eq third (by omega), ofNat_eq fourth (by omega)]

/-- Decoded characters encode to the bytes they were decoded from, wherever the count of the bytes
starts. -/
theorem encodeChars_of_decodeFrom {index : Nat} {data : Bytes} {cs : List Char}
    (h : decodeFrom index data = .ok cs) : encodeChars cs = data := by
  fun_induction decodeFrom index data generalizing cs with
  | case1 => cases h; rfl
  | case2 => cases h
  | case3 index first rest c after hread _ ih =>
      cases hrest : decodeFrom (index + c.utf8Size) after with
      | error fault =>
          rw [hrest] at h
          cases h
      | ok others =>
          rw [hrest] at h
          cases h
          rw [encodeChar_of_readChar hread, ← ih hrest]
          rfl

/-- Bytes that are decoded are those of the text. -/
theorem encode_of_decode {data : Bytes} {text : String} (h : decode data = .ok text) :
    encode text = data := by
  unfold decode at h
  cases hchars : decodeChars data with
  | error fault =>
      rw [hchars] at h
      cases h
  | ok cs =>
      rw [hchars] at h
      cases h
      rw [encode, String.toList_ofList]
      exact encodeChars_of_decodeFrom hchars

end Text.Utf8

end PackedRecord
