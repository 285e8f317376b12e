import PackedRecord.Host.Value

/-!
# Schemas

A schema holds the record types that host types name. It gives every type its default value, with
which decoding fills what it has to create.
-/

namespace PackedRecord

/-- A record type: its layout and the types of its fields. -/
structure RecordType where
  layout : Layout
  types : List HostType

/-- Record types by key. -/
abbrev Schema := List (String × RecordType)

namespace HostType

/-- The default value of a type, given the default values of record types. -/
def defaultWith (recordDefault : String → Value) : HostType → Value
  | scalar type => .scalar (.zero type)
  | text => .text ""
  | borrowedText => .borrowedText ""
  | vector element => .sequence .growable element []
  | array length element =>
      .sequence .fixed element (List.replicate length (element.defaultWith recordDefault))
  | slice element => .sequence .borrowed element []
  | optional content => .optional content none
  | dynamic => .dynamic none
  | pointer kind target => .pointer kind (target.defaultWith recordDefault)
  | record key => recordDefault key
  | foreign name => .foreign name

end HostType

namespace Schema

/-- The default value of the record type under `key`, whose records nest at most `depth` deep. -/
def defaultRecord (schema : Schema) : (depth : Nat) → (key : String) → Value
  | 0, key => .foreign key
  | depth + 1, key =>
      match schema.lookup key with
      | none => .foreign key
      | some type =>
          .record type.layout (type.types.map (·.defaultWith (schema.defaultRecord depth)))

/-- The default value of a type. A record type that holds records directly holds other ones, so
that they nest no deeper than there are record types. -/
def default (schema : Schema) (type : HostType) : Value :=
  type.defaultWith (schema.defaultRecord schema.length)

end Schema

end PackedRecord
