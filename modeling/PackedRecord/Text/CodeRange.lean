/-!
# Ranges of code points

Classes of characters as tables of inclusive ranges.
-/

namespace PackedRecord.Text

/-- An inclusive range of code points. -/
abbrev CodeRange := Nat × Nat

/-- Whether one of the ranges holds `c`. -/
def inRanges (ranges : List CodeRange) (c : Char) : Bool :=
  ranges.any fun range => range.1 ≤ c.toNat && c.toNat ≤ range.2

end PackedRecord.Text
