import PackedRecord.ByteOrder
import PackedRecord.TransferFault
import PackedRecord.Text.Utf8

/-!
# UTF-16

The code units of a text, and a codec between UTF-8 and UTF-16 bytes in a byte order, with or
without a byte order mark. `ofUnits_units` says that the units of a text give the text back.
-/

namespace PackedRecord.Text.Utf16

/-- The code units of one character: one unit, or a high and a low surrogate. -/
def unitsOfChar (c : Char) : List Nat :=
  let n := c.toNat
  if n < 0x10000 then [n] else [0xD800 + (n - 0x10000) / 1024, 0xDC00 + (n - 0x10000) % 1024]

/-- The code units of a sequence of characters. -/
def units (cs : List Char) : List Nat :=
  cs.flatMap unitsOfChar

/-- The characters of a sequence of code units, if every surrogate has its partner. -/
def ofUnits : List Nat → Option (List Char)
  | [] => some []
  | unit :: rest =>
      if unit < 0xD800 ∨ 0xE000 ≤ unit then (ofUnits rest).map (Char.ofNat unit :: ·)
      else if unit < 0xDC00 then
        match rest with
        | low :: rest =>
            if 0xDC00 ≤ low ∧ low < 0xE000 then
              (ofUnits rest).map
                (Char.ofNat (0x10000 + 1024 * (unit - 0xD800) + (low - 0xDC00)) :: ·)
            else none
        | [] => none
      else none

/-- The units of characters decode to those characters. -/
theorem ofUnits_units (cs : List Char) : ofUnits (units cs) = some cs := by
  induction cs with
  | nil => rfl
  | cons c cs ih =>
      have hvalid : c.toNat < 0xD800 ∨ 0xDFFF < c.toNat ∧ c.toNat < 0x110000 := c.valid
      have hback : Char.ofNat c.toNat = c := Char.ofNat_toNat c
      rw [units, List.flatMap_cons, unitsOfChar]
      change ofUnits (_ ++ units cs) = _
      generalize c.toNat = n at hvalid hback
      by_cases hplane : n < 0x10000
      · rw [if_pos hplane, List.singleton_append, ofUnits.eq_def]
        simp only []
        rw [if_pos (by omega), ih, hback]
        rfl
      · rw [if_neg hplane, List.cons_append, List.singleton_append, ofUnits.eq_def]
        simp only []
        rw [if_neg (by omega), if_pos (by omega), if_pos (by omega), ih]
        have hcode : 0x10000 + 1024 * (0xD800 + (n - 0x10000) / 1024 - 0xD800) +
            (0xDC00 + (n - 0x10000) % 1024 - 0xDC00) = n := by omega
        rw [hcode, hback]
        rfl

/-- The bytes of a sequence of code units. -/
def unitBytes (order : ByteOrder) (us : List Nat) : Bytes :=
  us.flatMap (order.bytes 2)

/-- The code units of a byte string, unless it ends within one. -/
def ofUnitBytes (order : ByteOrder) : Bytes → Option (List Nat)
  | [] => some []
  | [_] => none
  | first :: second :: rest =>
      (ofUnitBytes order rest).map (order.toNat [first, second] :: ·)

/-- The code unit of a byte order mark. -/
def markUnit : Nat := 0xFEFF

end PackedRecord.Text.Utf16

namespace PackedRecord.Text

/-- A UTF-16 codec. With `mark` a byte order mark is written in front of the text, and a leading
mark on reading selects the byte order and is dropped; without it a mark is text. -/
structure Utf16 where
  order : ByteOrder
  mark : Bool
  deriving DecidableEq, Repr

namespace Utf16

/-- The UTF-16 bytes of a sequence of characters. -/
def encodeChars (codec : Utf16) (cs : List Char) : Bytes :=
  unitBytes codec.order ((if codec.mark then [markUnit] else []) ++ units cs)

/-- The UTF-16 bytes of UTF-8 text. -/
def encode (codec : Utf16) (text : Bytes) : Except TransferFault Bytes :=
  match Utf8.decodeChars text with
  | .ok cs => .ok (codec.encodeChars cs)
  | .error _ => .error .notUtf8

/-- The byte order that the leading mark of `data` selects, and `data` without the mark. -/
def splitMark (codec : Utf16) (data : Bytes) : ByteOrder × Bytes :=
  match codec.mark, data with
  | true, 0xFF :: 0xFE :: rest => (.littleEndian, rest)
  | true, 0xFE :: 0xFF :: rest => (.bigEndian, rest)
  | _, _ => (codec.order, data)

/-- The characters of UTF-16 bytes. -/
def decodeChars (codec : Utf16) (data : Bytes) : Except TransferFault (List Char) :=
  let (order, body) := codec.splitMark data
  match ofUnitBytes order body with
  | none => .error .oddLength
  | some us =>
      match ofUnits us with
      | none => .error .unpairedSurrogate
      | some cs => .ok cs

/-- The UTF-8 text of UTF-16 bytes. -/
def decode (codec : Utf16) (data : Bytes) : Except TransferFault Bytes :=
  (codec.decodeChars data).map Utf8.encodeChars

end PackedRecord.Text.Utf16
