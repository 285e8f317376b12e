import PackedRecord.Tag.Parse

/-!
# Record layouts

A layout lists the fields of a record type with their parsed tags. Building it checks which fields
a size expression names: a private field is never coded, so its value is always there, while
between two exported fields only the earlier one has a value when the later one is reached. A tag
that is at fault is kept as its error and does not affect the other fields.
-/

namespace PackedRecord

/-- A field as it is declared. Only exported fields are encoded and decoded. -/
structure FieldDescriptor where
  name : String
  tag : String
  exported : Bool
  deriving DecidableEq, Repr

/-- A field with its parsed tag. -/
structure FieldLayout where
  name : String
  exported : Bool
  tag : Except TagError Tag

/-- A record type: its name and its fields in the order of declaration. -/
structure Layout where
  name : String
  fields : List FieldLayout

namespace Layout

/-- The fields that the tag of the field at `index`, declared as `own`, may name. Of several fields
of one name the first counts. -/
def resolver (declared : List FieldDescriptor) (index : Nat) (own : FieldDescriptor) : Resolver :=
  fun name =>
    match declared.findIdx? fun field => field.name == name with
    | none => .error (.unknown name)
    | some target =>
        if target = index then .error (.itself name)
        else if own.exported ∧ (declared[target]?.any (·.exported)) ∧ index < target then
          .error (.notYetAvailable name)
        else .ok target

/-- The layout of a record type with the given fields. -/
def build (name : String) (declared : List FieldDescriptor) : Layout :=
  ⟨name, declared.mapIdx fun index own =>
    ⟨own.name, own.exported, Tag.parse (resolver declared index own) own.tag⟩⟩

/-- The position of the first field called `name`. -/
def indexOf? (layout : Layout) (name : String) : Option Nat :=
  layout.fields.findIdx? fun field => field.name == name

end Layout

end PackedRecord
