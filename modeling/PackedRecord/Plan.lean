import PackedRecord.Limits

/-!
# Plans

A plan is what the encoder and the decoder do with one value: the natural representation of the
value, overridden by its tag, with all sizes evaluated against the record that the value belongs
to.
-/

namespace PackedRecord

-- Powers are those of the core library, whichever others are in scope.
attribute [local instance (high)] instPowNat

/-- What to do with a value. -/
structure Plan where
  /-- The wire type, of the elements if this is an array. -/
  wire : WireType
  /-- Whether the value is coded as an array. -/
  isArray : Bool
  /-- The length of the array, if the tag gives one. -/
  arrayLength : Option Nat
  /-- The buffer length of strings and padding, if the tag gives one. -/
  bufferLength : Option Nat
  /-- The number of references in front of the value. -/
  indirection : Nat
  /-- The name of the text encoding of strings. -/
  encoding : Option String
  deriving DecidableEq, Repr

/-- Sizes beyond this number are cut down to it. -/
def sizeMax : Nat := 2 ^ (64 : Nat) - 1

/-- A product of sizes. -/
def sizeMul (m n : Nat) : Nat := min sizeMax (m * n)

namespace Plan

/-- The value of a size expression, which has to be a size. -/
def evalSize (path : Path) (expr : SizeExpr) (record : Option Record) : Except Error Nat :=
  match expr.eval record with
  | .error error => .error (error.toError path)
  | .ok value =>
      if value < 0 then .error (.located path (.negativeSize value)) else .ok value.toNat

/-- The wire type that a tag and the natural one agree on. Padding and ignored values need no
representation. -/
def resolveWire (path : Path) (value : Value) (tagged : Option WireType) :
    Except Error WireType :=
  match tagged, value.natural.wire with
  | some .pad, _ => .ok .pad
  | some .ignore, _ => .ok .ignore
  | _, none => .error (.located path (.notEncodable (.type value.typeName)))
  | some wire, some _ => .ok wire
  | none, some wire => .ok wire

/-- Whether the value is an array, and its length if the tag gives one. -/
def resolveArray (path : Path) (value : Value) (brackets : Brackets) (record : Option Record) :
    Except Error (Bool × Option Nat) :=
  match brackets with
  | .absent => .ok (value.natural.isArray, none)
  | .blank => .ok (true, none)
  | .length expr => (evalSize path expr record).map fun length => (true, some length)

/-- The buffer length that the tag gives, which must not be zero. -/
def resolveBuffer (path : Path) (expr : Option SizeExpr) (record : Option Record) :
    Except Error (Option Nat) :=
  match expr with
  | none => .ok none
  | some expr =>
      match evalSize path expr record with
      | .error error => .error error
      | .ok 0 => .error (.located path .zeroBufferLength)
      | .ok size => .ok (some size)

/-- The plan for a value with a tag, whose sizes refer to `record`. -/
def resolve (path : Path) (value : Value) (tag : Tag) (record : Option Record) :
    Except Error Plan := do
  let wire ← resolveWire path value tag.wire
  let (isArray, arrayLength) ← resolveArray path value tag.brackets record
  let bufferLength ← resolveBuffer path tag.bufferLength record
  pure ⟨wire, isArray, arrayLength, bufferLength, value.natural.indirection, tag.encoding⟩

/-- The wire type of an element of an array of the given wire type. -/
def elementWire (path : Path) (wire : WireType) (element : Value) : Except Error WireType :=
  match wire, element.natural.wire with
  | .any, some wire => .ok wire
  | .pad, _ => .ok .pad
  | .ignore, _ => .ok .ignore
  | _, none => .error (.located path (.notEncodable (.type element.typeName)))
  | wire, some _ => .ok wire

/-- The plan for an element of the array. It has the wire type of the array unless that is open,
and its buffer length and encoding. -/
def element (plan : Plan) (path : Path) (element : Value) : Except Error Plan :=
  (elementWire path plan.wire element).map fun wire =>
    ⟨wire, element.natural.isArray, none, plan.bufferLength, element.natural.indirection,
      plan.encoding⟩

/-- The number of elements of an array that the plan does not give. -/
def currentLength (value : Value) : Nat :=
  match value.target with
  | .sequence _ _ items => items.length
  | _ => 1

/-- The number of bytes that padding covers. -/
def padLength (plan : Plan) (value : Value) : Nat :=
  let count := if plan.isArray then plan.arrayLength.getD (currentLength value) else 1
  sizeMul (plan.bufferLength.getD 1) count

end Plan

end PackedRecord
