import PackedRecord.WireType

/-!
# Natural representations

How a value is coded if no tag says otherwise: its wire type, whether it is a sequence and of what
length, and how many references stand in front of it.
-/

namespace PackedRecord

/-- The representation of a value without a tag. -/
structure Natural where
  /-- The wire type, of the elements if this is an array; nothing for a value without one. -/
  wire : Option WireType
  /-- Whether the value is a sequence. -/
  isArray : Bool
  /-- The number of elements, if it is known. -/
  length : Option Nat
  /-- The number of optional or dynamic references in front of the value. -/
  indirection : Nat
  deriving DecidableEq, Repr

namespace Natural

/-- One value of the wire type. -/
def single (wire : WireType) : Natural := ⟨some wire, false, none, 0⟩

/-- A value that cannot be encoded. -/
def unencodable : Natural := ⟨none, false, none, 0⟩

/-- A dynamic reference to nothing. -/
def dynamic : Natural := ⟨some .any, false, none, 1⟩

/-- A sequence of elements. Elements that are themselves sequences or references are resolved one
by one, so that the sequence leaves their wire type open. -/
def sequence (element : Natural) (length : Option Nat) : Natural :=
  ⟨if element.isArray ∨ 0 < element.indirection then some .any else element.wire, true, length, 0⟩

/-- The same value behind one more reference. -/
def through (natural : Natural) : Natural :=
  { natural with indirection := natural.indirection + 1 }

end Natural

end PackedRecord
