import PackedRecord.Bytes

/-!
# UTF-8

The bytes of a text and the text of bytes. A byte string that is not well formed is refused with
the place and the length of the longest start of a sequence that could still have become a
character. `decode_encode` says that what was encoded decodes again.
-/

namespace PackedRecord.Text.Utf8

/-- The bytes of one character. -/
def encodeChar (c : Char) : Bytes :=
  let n := c.toNat
  if n < 0x80 then [UInt8.ofNat n]
  else if n < 0x800 then [UInt8.ofNat (0xC0 + n / 64), UInt8.ofNat (0x80 + n % 64)]
  else if n < 0x10000 then
    [UInt8.ofNat (0xE0 + n / 4096), UInt8.ofNat (0x80 + n / 64 % 64), UInt8.ofNat (0x80 + n % 64)]
  else
    [UInt8.ofNat (0xF0 + n / 262144), UInt8.ofNat (0x80 + n / 4096 % 64),
      UInt8.ofNat (0x80 + n / 64 % 64), UInt8.ofNat (0x80 + n % 64)]

/-- The bytes of a sequence of characters. -/
def encodeChars (cs : List Char) : Bytes :=
  cs.flatMap encodeChar

/-- The bytes of a text. -/
def encode (text : String) : Bytes :=
  encodeChars text.toList

/-- Why a byte string is not UTF-8. -/
inductive Fault where
  /-- At `index` stand `length` bytes that start no character, whatever follows. -/
  | illFormed (length index : Nat)
  /-- The data ends within the sequence that starts at `index`. -/
  | incomplete (index : Nat)
  deriving DecidableEq, Repr

/-- The text that describes the fault. -/
def Fault.message : Fault → String
  | .illFormed length index =>
      s!"invalid utf-8 sequence of {length} bytes from index {index}"
  | .incomplete index => s!"incomplete utf-8 byte sequence from index {index}"

/-- An inclusive range of byte values. -/
structure ByteRange where
  least : Nat
  greatest : Nat

/-- The values of a byte that continues a sequence. -/
def continuation : ByteRange := ⟨0x80, 0xBF⟩

/-- What the first byte of a sequence says: the bits that it contributes, and the range of each
byte that has to follow. The second byte is restricted where the sequence would otherwise be
overlong, a surrogate or beyond the last code point. -/
def lead? (byte : Nat) : Option (Nat × List ByteRange) :=
  if byte < 0x80 then some (byte, [])
  else if byte < 0xC2 then none
  else if byte < 0xE0 then some (byte - 0xC0, [continuation])
  else if byte = 0xE0 then some (0, [⟨0xA0, 0xBF⟩, continuation])
  else if byte = 0xED then some (0xD, [⟨0x80, 0x9F⟩, continuation])
  else if byte < 0xF0 then some (byte - 0xE0, [continuation, continuation])
  else if byte = 0xF0 then some (0, [⟨0x90, 0xBF⟩, continuation, continuation])
  else if byte < 0xF4 then some (byte - 0xF0, [continuation, continuation, continuation])
  else if byte = 0xF4 then some (4, [⟨0x80, 0x8F⟩, continuation, continuation])
  else none

/-- Reads the bytes after the first of the sequence at `index`, of which `seen` bytes are read and
`code` is the code point so far. -/
def readTail (index : Nat) : (seen code : Nat) → List ByteRange → Bytes → Except Fault (Nat × Bytes)
  | _, code, [], data => .ok (code, data)
  | _, _, _ :: _, [] => .error (.incomplete index)
  | seen, code, range :: ranges, byte :: data =>
      if range.least ≤ byte.toNat ∧ byte.toNat ≤ range.greatest then
        readTail index (seen + 1) (64 * code + byte.toNat % 64) ranges data
      else .error (.illFormed seen index)

/-- The tail of a sequence takes one byte for every range that its lead byte asks for. -/
theorem length_of_readTail {index seen code : Nat} {ranges : List ByteRange} {data : Bytes}
    {result : Nat × Bytes} (h : readTail index seen code ranges data = .ok result) :
    result.2.length + ranges.length = data.length := by
  fun_induction readTail index seen code ranges data with
  | case1 => cases h; simp
  | case2 => cases h
  | case3 _ _ _ _ _ _ _ ih => simp [← ih h]; omega
  | case4 => cases h

/-- The character whose sequence starts at `index` with the byte `first`, and the bytes after it. -/
def readChar (index : Nat) (first : UInt8) (rest : Bytes) : Except Fault (Char × Bytes) :=
  match lead? first.toNat with
  | none => .error (.illFormed 1 index)
  | some (code, ranges) =>
      match readTail index 1 code ranges rest with
      | .error fault => .error fault
      | .ok (code, after) => .ok (Char.ofNat code, after)

/-- Reading a character leaves no more bytes than there were. -/
theorem length_of_readChar {index : Nat} {first : UInt8} {rest after : Bytes} {c : Char}
    (h : readChar index first rest = .ok (c, after)) : after.length ≤ rest.length := by
  unfold readChar at h
  split at h
  · cases h
  · split at h
    · cases h
    · next hread =>
        have hlength := length_of_readTail hread
        cases h
        simp only at hlength
        omega

/-- The characters of `data`, which starts at offset `index` of the whole. -/
def decodeFrom (index : Nat) (data : Bytes) : Except Fault (List Char) :=
  match data with
  | [] => .ok []
  | first :: rest =>
      match h : readChar index first rest with
      | .error fault => .error fault
      | .ok (c, after) =>
          have := length_of_readChar h
          (decodeFrom (index + c.utf8Size) after).map (c :: ·)
termination_by data.length

/-- The characters of a byte string. -/
def decodeChars (data : Bytes) : Except Fault (List Char) :=
  decodeFrom 0 data

/-- The text of a byte string. -/
def decode (data : Bytes) : Except Fault String :=
  (decodeChars data).map String.ofList

/-- An encoded character is read back, in front of anything. -/
theorem readChar_encodeChar (index : Nat) (c : Char) (rest : Bytes) :
    ∃ first tail, encodeChar c = first :: tail ∧
      readChar index first (tail ++ rest) = .ok (c, rest) := by
  have hvalid : c.toNat < 0xD800 ∨ 0xDFFF < c.toNat ∧ c.toNat < 0x110000 := c.valid
  have hback : Char.ofNat c.toNat = c := Char.ofNat_toNat c
  have hbyte : ∀ m, m < 256 → (UInt8.ofNat m).toNat = m := fun m hm => by
    simp [Nat.mod_eq_of_lt hm]
  simp only [encodeChar]
  generalize c.toNat = n at hvalid hback
  split
  · refine ⟨_, _, rfl, ?_⟩
    rw [readChar, hbyte _ (by omega)]
    simp [lead?, readTail, *]
  split
  · refine ⟨_, _, rfl, ?_⟩
    have hlead : lead? (0xC0 + n / 64) = some (n / 64, [continuation]) := by grind [lead?]
    have hcode : 64 * (n / 64) + (0x80 + n % 64) % 64 = n := by omega
    rw [readChar, hbyte _ (by omega), hlead]
    simp only [readTail, List.cons_append, List.nil_append, continuation,
      hbyte (0x80 + n % 64) (by omega)]
    rw [if_pos (by omega), hcode]
    simp only [hback]
  split
  · refine ⟨_, _, rfl, ?_⟩
    have hlead : ∃ low high, lead? (0xE0 + n / 4096) =
        some (n / 4096, [⟨low, high⟩, continuation]) ∧
        low ≤ 0x80 + n / 64 % 64 ∧ 0x80 + n / 64 % 64 ≤ high := by
      by_cases h0 : n / 4096 = 0
      · exact ⟨0xA0, 0xBF, by grind [lead?], by omega, by omega⟩
      by_cases hd : n / 4096 = 0xD
      · exact ⟨0x80, 0x9F, by grind [lead?], by omega, by omega⟩
      · exact ⟨0x80, 0xBF, by grind [lead?, continuation], by omega, by omega⟩
    obtain ⟨low, high, hlead, hlow, hhigh⟩ := hlead
    have hcode : 64 * (64 * (n / 4096) + (0x80 + n / 64 % 64) % 64) + (0x80 + n % 64) % 64 = n := by
      omega
    rw [readChar, hbyte _ (by omega), hlead]
    simp only [readTail, List.cons_append, List.nil_append, continuation,
      hbyte (0x80 + n % 64) (by omega), hbyte (0x80 + n / 64 % 64) (by omega)]
    rw [if_pos ⟨hlow, hhigh⟩, if_pos (by omega), hcode]
    simp only [hback]
  · refine ⟨_, _, rfl, ?_⟩
    have hlead : ∃ low high, lead? (0xF0 + n / 262144) =
        some (n / 262144, [⟨low, high⟩, continuation, continuation]) ∧
        low ≤ 0x80 + n / 4096 % 64 ∧ 0x80 + n / 4096 % 64 ≤ high := by
      by_cases h0 : n / 262144 = 0
      · exact ⟨0x90, 0xBF, by grind [lead?], by omega, by omega⟩
      by_cases h4 : n / 262144 = 4
      · exact ⟨0x80, 0x8F, by grind [lead?], by omega, by omega⟩
      · exact ⟨0x80, 0xBF, by grind [lead?, continuation], by omega, by omega⟩
    obtain ⟨low, high, hlead, hlow, hhigh⟩ := hlead
    have hcode : 64 * (64 * (64 * (n / 262144) + (0x80 + n / 4096 % 64) % 64) +
        (0x80 + n / 64 % 64) % 64) + (0x80 + n % 64) % 64 = n := by omega
    rw [readChar, hbyte _ (by omega), hlead]
    simp only [readTail, List.cons_append, List.nil_append, continuation,
      hbyte (0x80 + n % 64) (by omega), hbyte (0x80 + n / 64 % 64) (by omega),
      hbyte (0x80 + n / 4096 % 64) (by omega)]
    rw [if_pos ⟨hlow, hhigh⟩, if_pos (by omega), if_pos (by omega), hcode]
    simp only [hback]

/-- Encoded characters decode to those characters, wherever the count of the bytes starts. -/
theorem decodeFrom_encodeChars (index : Nat) (cs : List Char) :
    decodeFrom index (encodeChars cs) = .ok cs := by
  induction cs generalizing index with
  | nil => rw [encodeChars, List.flatMap_nil, decodeFrom]
  | cons c cs ih =>
      obtain ⟨first, tail, henc, hread⟩ := readChar_encodeChar index c (encodeChars cs)
      rw [encodeChars, List.flatMap_cons, henc, List.cons_append, decodeFrom]
      change readChar index first (tail ++ List.flatMap encodeChar cs) = _ at hread
      split
      · next h => rw [hread] at h; cases h
      · next h =>
          rw [hread] at h
          cases h
          change Except.map (c :: ·) (decodeFrom (index + c.utf8Size) (encodeChars cs)) = _
          rw [ih]
          rfl

/-- What was encoded decodes again. -/
theorem decode_encode (text : String) : decode (encode text) = .ok text := by
  simp [decode, decodeChars, encode, decodeFrom_encodeChars, Except.map]

end PackedRecord.Text.Utf8
