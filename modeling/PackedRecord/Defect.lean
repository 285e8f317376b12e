/-!
# Defects

What a caller does wrong when it breaks the contract of an operation. No value whose records are
well formed reaches one of these; an operation that meets one stops at once.
-/

namespace PackedRecord

/-- A broken contract. -/
inductive Defect where
  /-- A scalar was written to or read from a number of bytes other than 1, 2, 4 or 8. -/
  | scalarWidth (width : Nat)
  /-- A record was asked for a field that it does not have. -/
  | noSuchField (record : String) (index : Nat)
  deriving DecidableEq, Repr

/-- The text that describes the defect. -/
def Defect.message : Defect → String
  | .scalarWidth width => s!"invalid scalar width {width}"
  | .noSuchField record index => s!"{record} has no field {index}"

end PackedRecord
