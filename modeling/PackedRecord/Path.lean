/-!
# Paths

The way from the top value to a value inside it: names of record fields and indices of array
elements. The number of steps is the depth of the value.
-/

namespace PackedRecord

/-- One step from a value into it. -/
inductive Step where
  | field (name : String)
  | index (position : Nat)
  deriving DecidableEq, Repr

/-- The text of a step. -/
def Step.toText : Step → String
  | .field name => s!"field \"{name}\": "
  | .index position => s!"array index [{position}]: "

/-- The steps to a value, the last one first. -/
abbrev Path := List Step

namespace Path

/-- The path of the top value. -/
def top : Path := []

/-- The number of steps. -/
def depth (path : Path) : Nat := path.length

/-- The text of the path, in front of the text of a fault at it. -/
def toText (path : Path) : String :=
  String.join (path.reverse.map Step.toText)

/-- The top of a value lies at depth zero. -/
@[simp] theorem depth_top : top.depth = 0 := rfl

/-- A step down adds one to the depth. -/
@[simp] theorem depth_cons (step : Step) (path : Path) : depth (step :: path) = path.depth + 1 :=
  rfl

end Path

end PackedRecord
