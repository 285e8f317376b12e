import PackedRecord.Text.Quoted
import PackedRecord.Text.Utf16

/-!
# Text encodings by name

A codec turns UTF-8 text into other bytes and back. A registry holds codecs by name; names are
case sensitive, and registering a name again replaces its codec.
-/

namespace PackedRecord.Text

/-- A pair of conversions between UTF-8 text and another representation of it. -/
structure Codec where
  encode : Bytes → Except TransferFault Bytes
  decode : Bytes → Except TransferFault Bytes

/-- UTF-16 as a codec. -/
def Utf16.toCodec (codec : Utf16) : Codec :=
  ⟨codec.encode, codec.decode⟩

/-- A registry of codecs. -/
structure Encodings where
  entries : List (String × Codec)

namespace Encodings

/-- The registry without codecs. -/
def empty : Encodings := ⟨[]⟩

/-- The codec registered under `name`. -/
def find? (encodings : Encodings) (name : String) : Option Codec :=
  (encodings.entries.find? fun entry => entry.1 == name).map (·.2)

/-- The registry without the codec under `name`. -/
def unregister (encodings : Encodings) (name : String) : Encodings :=
  ⟨encodings.entries.filter fun entry => entry.1 != name⟩

/-- The registry with `codec` under `name`. -/
def register (encodings : Encodings) (name : String) (codec : Codec) : Encodings :=
  ⟨(name, codec) :: (encodings.unregister name).entries⟩

/-- The registered names in ascending order. -/
def names (encodings : Encodings) : List String :=
  (encodings.entries.map (·.1)).mergeSort

/-- The registered names, quoted, in braces. -/
def describe (encodings : Encodings) : String :=
  "\x7b" ++ ", ".intercalate (encodings.names.map quoted) ++ "\x7d"

/-- Nothing is registered at first. -/
@[simp] theorem find?_empty (name : String) : empty.find? name = none := rfl

/-- A registered codec is found under its name. -/
@[simp] theorem find?_register_self (encodings : Encodings) (name : String) (codec : Codec) :
    (encodings.register name codec).find? name = some codec := by
  simp [find?, register]

/-- A removed name is not found any more. -/
theorem find?_unregister_self (encodings : Encodings) (name : String) :
    (encodings.unregister name).find? name = none := by
  simp [find?, unregister, List.find?_filter]

/-- Removing a name leaves the other names as they were. -/
theorem find?_unregister_of_ne (encodings : Encodings) {name other : String} (h : other ≠ name) :
    (encodings.unregister name).find? other = encodings.find? other := by
  have hsame : (fun entry : String × Codec =>
      decide ((entry.1 != name) = true ∧ (entry.1 == other) = true)) =
        fun entry => entry.1 == other := by
    funext entry
    by_cases hother : entry.1 = other
    · simp [hother, h]
    · simp [hother]
  simp only [find?, unregister, List.find?_filter, hsame]

/-- Registering a name leaves the other names as they were. -/
theorem find?_register_of_ne (encodings : Encodings) {name other : String} (codec : Codec)
    (h : other ≠ name) : (encodings.register name codec).find? other = encodings.find? other := by
  rw [← find?_unregister_of_ne encodings h]
  simp [find?, register, Ne.symm h]

end Encodings

end PackedRecord.Text
