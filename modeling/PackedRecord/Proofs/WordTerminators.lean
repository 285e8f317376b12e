import Mathlib
import PackedRecord.Packer
import PackedRecord.Proofs.TextFrames
import PackedRecord.Proofs.Vectors

/-!
# Strings that end in a zero word

A string of the wire type `z16string` is filled up to whole words, and a zero word ends it. It comes
back without the NULs at its end, whatever follows it, as `Packer.unpackAs_z16string` says. All its
bytes are consumed unless it is of odd length and ends with a NUL: the byte that fills up its last
word makes that a zero word, at which reading stops, one word too early.
-/

namespace PackedRecord

instance (text : String) : Decidable (EndsWithNul text) :=
  inferInstanceAs (Decidable (_ = _))

/-- `text` without the NULs at its end. -/
def withoutTrailingNuls (text : String) : String :=
  String.ofList (text.toList.rdropWhile (· = Char.ofNat 0))

/-- Zeros at the end of data do not matter to what is left of it without them. -/
theorem Bytes.dropTrailingZeros_zeros (data : Bytes) (count : Nat) :
    dropTrailingZeros (data ++ zeros count) = dropTrailingZeros data := by
  have hzeros : ∀ byte ∈ zeros count, (byte == 0) = true := by
    intro byte hbyte
    rw [List.eq_of_mem_replicate hbyte]
    rfl
  have hreverse : (zeros count).reverse = zeros count := List.reverse_replicate
  rw [dropTrailingZeros, List.reverse_append, hreverse, List.dropWhile_append_of_pos hzeros,
    dropTrailingZeros]

namespace Text.Utf8

/-- Joined characters encode to joined bytes. -/
theorem encodeChars_append (front back : List Char) :
    encodeChars (front ++ back) = encodeChars front ++ encodeChars back :=
  List.flatMap_append

/-- A NUL is encoded as a zero byte. -/
theorem encodeChars_replicate (count : Nat) :
    encodeChars (List.replicate count (Char.ofNat 0)) = Bytes.zeros count := by
  induction count with
  | zero => rfl
  | succ count ih =>
      rw [List.replicate_succ, encodeChars, List.flatMap_cons]
      show encodeChar (Char.ofNat 0) ++ encodeChars _ = _
      rw [ih]
      rfl

end Text.Utf8

/-- Without the NULs at its end, no text ends with a NUL. -/
theorem not_endsWithNul_withoutTrailingNuls (text : String) :
    ¬ EndsWithNul (withoutTrailingNuls text) := by
  intro h
  unfold EndsWithNul withoutTrailingNuls at h
  rw [String.toList_ofList] at h
  have hne : text.toList.rdropWhile (· = Char.ofNat 0) ≠ [] := by
    intro hnil
    rw [hnil] at h
    cases h
  rw [List.getLast?_eq_getLast_of_ne_nil hne] at h
  exact List.rdropWhile_last_not _ _ hne (decide_eq_true (Option.some.inj h))

/-- The NULs at the end of a text are the zeros at the end of its bytes. -/
theorem exists_trailing_zeros (text : String) :
    ∃ count, Text.Utf8.encode text =
        Text.Utf8.encode (withoutTrailingNuls text) ++ Bytes.zeros count ∧
      (EndsWithNul text ↔ 0 < count) := by
  have hsplit := List.rdropWhile_append_rtakeWhile (l := text.toList) (p := (· = Char.ofNat 0))
  have hnuls : ∀ c ∈ text.toList.rtakeWhile (· = Char.ofNat 0), c = Char.ofNat 0 :=
    fun c hc => by simpa using List.mem_rtakeWhile_imp hc
  have hrun := List.eq_replicate_of_mem hnuls
  generalize (text.toList.rtakeWhile (· = Char.ofNat 0)).length = count at hrun
  rw [hrun] at hsplit
  refine ⟨count, ?_, ?_⟩
  · rw [← Text.Utf8.encodeChars_replicate, Text.Utf8.encode, Text.Utf8.encode,
      withoutTrailingNuls, String.toList_ofList, ← Text.Utf8.encodeChars_append, hsplit]
  · cases count with
    | zero =>
        have hsame : withoutTrailingNuls text = text := by
          rw [withoutTrailingNuls, ← List.append_nil (List.rdropWhile _ _)]
          exact (congrArg String.ofList hsplit).trans String.ofList_toList
        have hclean := not_endsWithNul_withoutTrailingNuls text
        rw [hsame] at hclean
        exact iff_of_false hclean (Nat.lt_irrefl 0)
    | succ count =>
        refine iff_of_true ?_ (Nat.succ_pos count)
        rw [EndsWithNul, ← hsplit, List.replicate_succ', ← List.append_assoc, List.getLast?_concat]

/-- What is left of the bytes of a text without their trailing zeros, padded or not. -/
theorem dropTrailingZeros_encode (text : String) :
    Bytes.dropTrailingZeros (Text.Utf8.encode text) =
      Text.Utf8.encode (withoutTrailingNuls text) := by
  obtain ⟨count, hbytes, -⟩ := exists_trailing_zeros text
  rw [hbytes, Bytes.dropTrailingZeros_append_zeros
    (Text.Utf8.endsClean_encode (not_endsWithNul_withoutTrailingNuls text))]

/-- Bytes that are those of a text but for zeros at the end stand for the text without its trailing
NULs. -/
theorem textOfBytes_of_dropTrailingZeros {path : Path} {data : Bytes} {text : String}
    (h : Bytes.dropTrailingZeros data = Bytes.dropTrailingZeros (Text.Utf8.encode text)) :
    textOfBytes path data = .ok (withoutTrailingNuls text) := by
  rw [textOfBytes, h, dropTrailingZeros_encode, Text.Utf8.decode_encode]

section read

variable {settings : Settings} {path : Path}

/-- A string without a zero word is read, but for padding, up to the terminator that is written
behind it. If its length is odd and its last byte is zero, the word that the padding completes is
taken for the terminator. -/
theorem accepts_readTerminated_text (path : Path) {text : String} {room : Nat}
    (h : WireType.zeroWordIn (Text.Utf8.encode text) = none)
    (hroom : text.utf8ByteSize + text.utf8ByteSize % 2 ≤ room) :
    ∃ left data, Text.Utf8.encode text ++ Bytes.zeros (text.utf8ByteSize % 2 + 2) =
        left ++ Bytes.zeros (if text.utf8ByteSize % 2 = 1 ∧ EndsWithNul text then 2 else 0) ∧
      (readTerminated .z16string path room []).Accepts left data ∧
      Bytes.dropTrailingZeros data = Bytes.dropTrailingZeros (Text.Utf8.encode text) := by
  rw [← Text.Utf8.length_encode] at hroom ⊢
  obtain ⟨count, hbytes, hnul⟩ := exists_trailing_zeros text
  by_cases heven : (Text.Utf8.encode text).length % 2 = 0
  · refine ⟨_, Text.Utf8.encode text, ?_, accepts_readTerminated_zeros (.inr rfl)
      (Nat.dvd_of_mod_eq_zero heven) h (by omega) [], rfl⟩
    rw [if_neg (by omega), heven, Bytes.zeros_zero, List.append_nil]
    rfl
  have hodd : (Text.Utf8.encode text).length % 2 = 1 := by omega
  by_cases hends : EndsWithNul text
  · obtain ⟨count, rfl⟩ := Nat.exists_eq_add_one.2 (hnul.1 hends)
    rw [Bytes.zeros_add, ← List.append_assoc] at hbytes
    generalize Text.Utf8.encode (withoutTrailingNuls text) ++ Bytes.zeros count = front at hbytes
    rw [hbytes] at h hodd hroom ⊢
    rw [List.length_append, Bytes.length_zeros] at hodd hroom
    have hfront : WireType.z16string.terminatorIn front = none :=
      WireType.terminatorIn_eq_none_of_append (.inr rfl) h
    refine ⟨front ++ Bytes.zeros 2, front, ?_, accepts_readTerminated_zeros (.inr rfl)
      (Nat.dvd_of_mod_eq_zero (show front.length % 2 = 0 by omega)) hfront (by omega) [],
      (Bytes.dropTrailingZeros_zeros front 1).symm⟩
    rw [if_pos ⟨by rw [List.length_append, Bytes.length_zeros, hodd], hends⟩, List.length_append,
      Bytes.length_zeros, hodd, List.append_assoc, List.append_assoc, ← Bytes.zeros_add,
      ← Bytes.zeros_add]
  · have hfill := WireType.terminatorIn_fill (.inr rfl) h (Text.Utf8.endsClean_encode hends)
    refine ⟨_, _, ?_, accepts_readTerminated_zeros (.inr rfl)
      (WireType.terminatorSize_dvd_fill .z16string _) hfill
      (by rwa [List.length_append, Bytes.length_zeros]) [], Bytes.dropTrailingZeros_zeros _ _⟩
    rw [if_neg (fun hboth => hends hboth.2), Bytes.zeros_zero, List.append_nil, Bytes.zeros_add,
      List.append_assoc]
    rfl

end read

/-- The tag `z16string`. -/
def wordTag : Tag := ⟨some .z16string, .absent, none, none⟩

/-- The plan of a string by the tag `z16string`. -/
def wordPlan : Plan := ⟨.z16string, false, none, none, 0, none⟩

/-- A string by the tag stands behind no reference. -/
theorem wordPlan_isDirect : wordPlan.IsDirect := ⟨nofun, nofun, rfl⟩

/-- A string that was packed as a `z16string` has no zero word, and its bytes are followed by a zero
word, behind a zero byte if their number is odd. -/
theorem bytes_of_packAs_z16string {packer : Packer} {order : ByteOrder} {text : String}
    {bytes : Bytes} (h : packer.packAs order wordTag (.text text) = .ok bytes) :
    WireType.zeroWordIn (Text.Utf8.encode text) = none ∧
      bytes = Text.Utf8.encode text ++ Bytes.zeros (text.utf8ByteSize % 2 + 2) := by
  have hplan : Plan.resolve .top (.text text) wordTag none = .ok wordPlan := rfl
  have hyields := Packer.yields_of_packAs h
  rw [encodeTagged, hplan, Emission.ofExcept_ok_bind, encodeValue, encodeIn_eq,
    wordPlan_isDirect.encodeWith_eq, if_neg (by decide)] at hyields
  have htext : (encodeText (packer.settings order) .top wordPlan text).Yields bytes () := hyields
  obtain ⟨frame, hframe, hbytes⟩ := frame_of_yields rfl htext
  obtain ⟨hnone, -, rfl⟩ := TextFrame.of_terminated (.inr rfl) hframe
  rw [TextFrame.yields_emit_plain] at hbytes
  refine ⟨hnone, hbytes.trans ?_⟩
  rw [← Text.Utf8.length_encode]
  congr 2
  show (Text.Utf8.encode text).length + (Text.Utf8.encode text).length % 2 + 2 -
    (Text.Utf8.encode text).length = _
  omega

/-- A `z16string` is decoded from what is read up to its terminator. -/
theorem accepts_decodeTagged_z16string (schema : Schema) (settings : Settings) (current : String)
    {text : String} {bytes data : Bytes}
    (hread : (readTerminated .z16string .top settings.limits.blob []).Accepts bytes data)
    (htext : textOfBytes .top data = .ok text) :
    (decodeTagged schema settings wordTag (.text current)).Accepts bytes (.text text) := by
  have hplan : Plan.resolve .top (.text current) wordTag none = .ok wordPlan := rfl
  have hdecode : (decodeText settings .top wordPlan current.utf8ByteSize).Accepts bytes text := by
    refine hread.bind_done ?_
    refine Intake.Accepts.bind_done ⟨rfl, rfl⟩ ?_
    rw [htext]
    exact ⟨rfl, rfl⟩
  rw [decodeTagged, hplan]
  show (decodeIn schema settings _ .top (.text current) wordPlan).Accepts bytes (.text text)
  rw [decodeIn_eq, wordPlan_isDirect.decodeWith_eq, if_neg (by decide)]
  exact (hdecode.leaving _).bind_done ⟨rfl, rfl⟩

/-- A string that was packed as a `z16string` is unpacked without the NULs at its end, whatever
follows it. All its bytes are consumed, unless it is of odd length and ends with a NUL: then its
last zero word is left. -/
theorem Packer.unpackAs_z16string {packer : Packer} {order : ByteOrder} {text : String}
    {bytes : Bytes} (hpack : packer.packAs order wordTag (.text text) = .ok bytes)
    (hblob : text.utf8ByteSize + text.utf8ByteSize % 2 ≤ packer.limits.blob) (schema : Schema)
    (current : String) (rest : Bytes) :
    packer.unpackAs schema order wordTag (bytes ++ rest) (.text current) =
      ⟨.text (withoutTrailingNuls text),
        .ok (if text.utf8ByteSize % 2 = 1 ∧ EndsWithNul text then bytes.length - 2
          else bytes.length)⟩ := by
  obtain ⟨hnone, hbytes⟩ := bytes_of_packAs_z16string hpack
  obtain ⟨left, data, hleft, hread, hdata⟩ := accepts_readTerminated_text .top hnone hblob
  have haccepts := accepts_decodeTagged_z16string schema (packer.settings order) current hread
    (textOfBytes_of_dropTrailingZeros hdata)
  rw [hbytes, hleft, List.append_assoc, unpackAs_append_of_accepts _ haccepts, List.length_append,
    Bytes.length_zeros]
  split <;> rfl

/-- A string of odd length is filled up to whole words and consumed with its terminator. -/
theorem unpackAs_z16string_odd :
    (({} : Packer).packAs .bigEndian wordTag (.text "abc") = .ok [97, 98, 99, 0, 0, 0] ∧
      "abc".utf8ByteSize + "abc".utf8ByteSize % 2 ≤ ({} : Packer).limits.blob) ∧
    ({} : Packer).unpackAs [] .bigEndian wordTag ([97, 98, 99, 0, 0, 0] ++ [7]) (.text "") =
      ⟨.text "abc", .ok 6⟩ := by
  have hpack : ({} : Packer).packAs .bigEndian wordTag (.text "abc") =
      .ok [97, 98, 99, 0, 0, 0] := by cbv
  have hblob : "abc".utf8ByteSize + "abc".utf8ByteSize % 2 ≤ ({} : Packer).limits.blob := by decide
  exact ⟨⟨hpack, hblob⟩, Packer.unpackAs_z16string hpack hblob [] "" [7]⟩

/-- With a NUL in place of its last character, the string has the same length, but its last word is
left. -/
theorem unpackAs_z16string_nul :
    ({} : Packer).packAs .bigEndian wordTag (.text "ab\x00") = .ok [97, 98, 0, 0, 0, 0] ∧
    ({} : Packer).unpackAs [] .bigEndian wordTag [97, 98, 0, 0, 0, 0] (.text "") =
      ⟨.text "ab", .ok 4⟩ := by
  constructor <;> cbv

end PackedRecord
