import Protoscribe.Draft.Comment

/-!
# `Protoscribe.Draft.Field`: a field that is being written

A field has no number yet. It gets one from the message that takes it, which keeps the two together.
-/

set_option autoImplicit false

namespace Protoscribe

/-- A field. `typeName` is the name of a declared type, relative to where the field stands or,
with a dot in front, absolute. -/
structure FieldDraft where
  name : String
  type : FieldType
  typeName : Option String := none
  repeated : Bool := false
  optional : Bool := false
  oneof : Option Int32 := none
  comment : Option String := none
  deriving Repr, DecidableEq

namespace FieldDraft

/-- A field of a message type. -/
def message (name typeName : String) : FieldDraft :=
  { name, type := .message, typeName := some typeName }

/-- A field of an enum type. -/
def enum (name typeName : String) : FieldDraft :=
  { name, type := .enum, typeName := some typeName }

/-- The same field under another name and outside any oneof group. -/
def rename (field : FieldDraft) (name : String) : FieldDraft :=
  { field with name, oneof := none }

/-- Is the type of the field a built-in one? -/
def isScalar (field : FieldDraft) : Bool :=
  !field.type.isNamed

/-- Does the finished field get a oneof group of its own? -/
def isSynthetic (field : FieldDraft) : Bool :=
  field.optional && field.oneof.isNone && !field.repeated

/-- The finished field with its number and, where it has a oneof group of its own, the index of
that group. -/
def build (field : FieldDraft) (number : Int32) (synthetic : Option Int32) : FieldDescriptor where
  name := some field.name
  number := some number
  label := some (if field.repeated then FieldLabel.repeated.code else FieldLabel.optional.code)
  type := some field.type.code
  typeName := field.typeName
  oneofIndex := field.oneof <|> synthetic
  proto3Optional := synthetic.map fun _ => true

end FieldDraft

end Protoscribe
