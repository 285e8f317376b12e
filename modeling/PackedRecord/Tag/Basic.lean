import PackedRecord.SizeExpr.Basic
import PackedRecord.WireType

/-!
# Tags

What a field says about its representation: the wire type, whether it is an array and of what
length, the buffer length of strings and padding, and the text encoding of strings. Each part is
optional.
-/

namespace PackedRecord

/-- The brackets of a tag. -/
inductive Brackets where
  /-- The tag has none. -/
  | absent
  /-- The brackets are blank: an array of the length that the field has. -/
  | blank
  /-- The brackets give the length of the array. -/
  | length (expr : SizeExpr)
  deriving DecidableEq, Repr

/-- A tag. -/
structure Tag where
  /-- The wire type, unless the tag leaves it to the field. -/
  wire : Option WireType
  /-- The array length. -/
  brackets : Brackets
  /-- The buffer length. -/
  bufferLength : Option SizeExpr
  /-- The name of the text encoding. -/
  encoding : Option String
  deriving DecidableEq, Repr

/-- The tag without any part. -/
def Tag.empty : Tag := ⟨none, .absent, none, none⟩

end PackedRecord
