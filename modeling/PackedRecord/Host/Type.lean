import PackedRecord.Host.Scalar
import PackedRecord.Natural

/-!
# Host types

The types of the values that a program holds. A type says how its values are coded without any
tag, which is what is known about a value that does not exist yet.
-/

namespace PackedRecord

/-- What a pointer allows. A shared pointer is read only. -/
inductive PointerKind where
  | owned | exclusive | shared
  deriving DecidableEq, Repr

/-- The type of a host value. -/
inductive HostType where
  | scalar (type : ScalarType)
  /-- Text that can be replaced. -/
  | text
  /-- Text that is read only. -/
  | borrowedText
  /-- A sequence of any length. -/
  | vector (element : HostType)
  /-- A sequence of a fixed length. -/
  | array (length : Nat) (element : HostType)
  /-- A sequence that is read only. -/
  | slice (element : HostType)
  /-- A value that may be absent. -/
  | optional (content : HostType)
  /-- A value of any type, or none. -/
  | dynamic
  | pointer (kind : PointerKind) (target : HostType)
  /-- The record type registered under `key`. -/
  | record (key : String)
  /-- A type whose values have no binary representation. -/
  | foreign (name : String)
  deriving DecidableEq, Inhabited, Repr

namespace HostType

/-- The type of bytes. -/
def byte : HostType := scalar (.int .u8)

/-- The full name of the type. -/
def name : HostType → String
  | scalar type => type.name
  | text => "alloc::string::String"
  | borrowedText => "&str"
  | vector element => s!"alloc::vec::Vec<{element.name}>"
  | array length element => s!"[{element.name}; {length}]"
  | slice element => s!"&[{element.name}]"
  | optional content => s!"core::option::Option<{content.name}>"
  | dynamic => "binstruct::reflect::Dyn"
  | pointer .owned target => s!"alloc::boxed::Box<{target.name}>"
  | pointer .exclusive target => s!"&mut {target.name}"
  | pointer .shared target => s!"&{target.name}"
  | record key => key
  | foreign name => name

/-- How values of the type are coded without a tag. -/
def natural : HostType → Natural
  | scalar type => .single type.natural
  | text | borrowedText => .single .string
  | vector element => .sequence element.natural none
  | array length element => .sequence element.natural (some length)
  | slice element => .sequence element.natural none
  | optional content => { content.natural.through with length := none }
  | dynamic => .dynamic
  | pointer _ target => target.natural
  | record _ => .single .struct
  | foreign _ => .unencodable

end HostType

end PackedRecord
