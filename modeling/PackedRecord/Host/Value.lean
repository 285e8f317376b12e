import PackedRecord.Defect
import PackedRecord.Host.Type
import PackedRecord.Layout
import PackedRecord.Text.Utf8

/-!
# Host values

The values that are encoded and decoded into. A record carries its layout, a sequence the type of
its elements and an optional the type of its content, so that a value says by itself how it is
coded. Pointers are transparent: what a value is, its target is.
-/

namespace PackedRecord

/-- How a sequence can change: in its length and elements, in its elements only, or not at all. -/
inductive SequenceKind where
  | growable | fixed | borrowed
  deriving DecidableEq, Repr

/-- A host value. -/
inductive Value where
  | scalar (value : Scalar)
  | text (value : String)
  | borrowedText (value : String)
  | sequence (kind : SequenceKind) (element : HostType) (items : List Value)
  | optional (content : HostType) (value : Option Value)
  | dynamic (value : Option Value)
  | pointer (kind : PointerKind) (target : Value)
  | record (layout : Layout) (fields : List Value)
  | foreign (name : String)
  deriving Inhabited

/-- A record value: its layout and the values of its fields in the same order. -/
structure Record where
  layout : Layout
  fields : List Value

/-- The field at `index`. -/
def Record.field (record : Record) (index : Nat) : Except Defect Value :=
  match record.fields[index]? with
  | some value => .ok value
  | none => .error (.noSuchField record.layout.name index)

namespace Value

/-- The value behind all pointers. -/
def target : Value → Value
  | pointer _ value => value.target
  | value => value

/-- The value with `replacement` behind all its pointers. -/
def withTarget : (value replacement : Value) → Value
  | pointer kind value, replacement => pointer kind (value.withTarget replacement)
  | _, replacement => replacement

/-- Whether the value cannot be written to. -/
def isReadOnly : Value → Bool
  | pointer .shared _ => true
  | pointer _ value => value.isReadOnly
  | borrowedText _ => true
  | sequence .borrowed _ _ => true
  | _ => false

/-- A value cannot be written to if what is behind its pointers cannot be. -/
theorem isReadOnly_of_target {value : Value} (h : value.target.isReadOnly = true) :
    value.isReadOnly = true := by
  fun_induction target value
  case case1 kind value ih =>
    cases kind with
    | shared => rfl
    | owned | exclusive => exact ih h
  case case2 => exact h

/-- The type of a sequence with elements of the type `element`. -/
def sequenceType (kind : SequenceKind) (element : HostType) (length : Nat) : HostType :=
  match kind with
  | .growable => .vector element
  | .fixed => .array length element
  | .borrowed => .slice element

/-- The name of the type of the value, behind its pointers. -/
def typeName : Value → String
  | scalar value => value.type.name
  | text _ => HostType.text.name
  | borrowedText _ => "str"
  | sequence kind element items => (sequenceType kind element items.length).name
  | optional content _ => (HostType.optional content).name
  | dynamic _ => HostType.dynamic.name
  | pointer _ value => value.typeName
  | record layout _ => layout.name
  | foreign name => name

/-- How the value is coded without a tag. -/
def natural : Value → Natural
  | scalar value => .single value.type.natural
  | text _ | borrowedText _ => .single .string
  | sequence _ element items => .sequence element.natural (some items.length)
  | optional _ (some value) => value.natural.through
  | optional content none => { content.natural.through with length := none }
  | dynamic (some value) => value.natural.through
  | dynamic none => .dynamic
  | pointer _ value => value.natural
  | record _ _ => .single .struct
  | foreign _ => .unencodable

/-- The text that the value is. -/
def text? (value : Value) : Option String :=
  match value.target with
  | text content | borrowedText content => some content
  | _ => none

/-- The byte that the value is. -/
def byte? : Value → Option UInt8
  | scalar value => value.byte?
  | _ => none

/-- A byte as a value. -/
def ofByte (byte : UInt8) : Value :=
  scalar (.ofByte byte)

/-- The bytes of a sequence whose elements are of the type of bytes. -/
def bytes? (element : HostType) (items : List Value) : Option Bytes :=
  if element = .byte then items.mapM byte? else none

end Value

end PackedRecord
