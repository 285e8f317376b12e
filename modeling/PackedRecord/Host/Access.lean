import PackedRecord.Host.Schema

/-!
# Access to host values

What a value shows of itself, and the changes to it that do not decode anything: resizing a
sequence, filling an optional and replacing what a dynamic reference holds.
-/

namespace PackedRecord

/-- The form of a value behind its pointers. -/
inductive Form where
  | scalar | text | sequence | record | optional | dynamic | foreign
  deriving DecidableEq, Repr

/-- The items cut off at `length`, or filled up to it with `default`. -/
def resized (default : Value) (length : Nat) (items : List Value) : List Value :=
  items.take length ++ List.replicate (length - items.length) default

/-- Resized items are as many as asked for. -/
@[simp] theorem length_resized (default : Value) (length : Nat) (items : List Value) :
    (resized default length items).length = length := by
  simp [resized]
  omega

namespace Value

/-- The form of a value. -/
def form (value : Value) : Form :=
  match value.target with
  | scalar _ => .scalar
  | text _ | borrowedText _ => .text
  | sequence _ _ _ => .sequence
  | record _ _ => .record
  | optional _ _ => .optional
  | dynamic _ => .dynamic
  | pointer _ _ | foreign _ => .foreign

/-- The form of a value that can be written to. -/
def writableForm? (value : Value) : Option Form :=
  if value.isReadOnly then none else some value.form

/-- The value with its sequence resized, if it is one whose length can change. -/
def resize? (schema : Schema) (length : Nat) (value : Value) : Option Value :=
  match value.writableForm?, value.target with
  | some _, sequence .growable element items =>
      some (value.withTarget
        (sequence .growable element (resized (schema.default element) length items)))
  | _, _ => none

/-- A new element for a sequence that can be written to. -/
def newElement? (schema : Schema) (value : Value) : Option Value :=
  match value.writableForm?, value.target with
  | some _, sequence _ element _ => some (schema.default element)
  | _, _ => none

/-- The content of an optional that can be written to, and the value with that content. An empty
one is filled with the default of its type. -/
def fill? (schema : Schema) (value : Value) : Option (Value × Value) :=
  match value.writableForm?, value.target with
  | some _, optional type content =>
      let filled := content.getD (schema.default type)
      some (filled, value.withTarget (optional type (some filled)))
  | _, _ => none

/-- The scalar that a dynamic reference holds, if it is of the type. -/
def held? (type : ScalarType) : Value → Option Scalar
  | dynamic (some (scalar value)) => if value.type = type then some value else none
  | _ => none

/-- The dynamic reference with its scalar replaced by another one of the same type. -/
def hold? (replacement : Scalar) (value : Value) : Option Value :=
  (value.held? replacement.type).map fun _ => dynamic (some (scalar replacement))

/-- The text that describes a dynamic reference. -/
def describeDynamic (content : Option Value) : String :=
  match content with
  | some value => s!"Dyn({value.typeName})"
  | none => "Dyn(empty)"

end Value

end PackedRecord
