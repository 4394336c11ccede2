import Protoscribe.Compile.Inline
import Protoscribe.Compile.Scalar

/-!
# `Protoscribe.Compile.Member`: named members of a message

A property, a parameter or a body becomes a field of a message. A reference becomes a field of
the component's type; an inline schema is compiled and taken in. `markPresence` marks a scalar
that need not be there, in one of two ways.
-/

set_option autoImplicit false

namespace Protoscribe.Compile

open OpenApi (Schema SchemaNode)

/-- The field that refers to a component; nothing for an empty one. -/
def fieldTo (fieldName : Option String) : ComponentType → Option FieldDraft
  | .message type => some (.message (fieldName.getD (Identifier.fieldName type)) type)
  | .enum type => some (.enum (fieldName.getD (Identifier.fieldName type)) type)
  | .nothing => none

/-- What the schema component that a reference names became. -/
def referencedType (self : Engine) (job : Job) (reference : String) : M ComponentType := do
  let (key, node) ← findSchema job reference
  self.component key node

/-- Marks that a scalar need not be there: by the message that holds it, or by the label for
that when the schema allows null. -/
def markPresence (job : Job) (field : FieldDraft) (schema : Schema) (required : Bool) :
    M FieldDraft := do
  -- lists and messages can be absent as they are
  if required || field.repeated || !field.isScalar then return field
  let wrapper? := if job.config.wrapPrimitives then holder? field.type else none
  match wrapper? with
  | some wrapper =>
    updateFile (·.addDependency wrappersFile)
    pure { field with type := .message, typeName := some wrapper }
  | none => pure (if schema.nullable then { field with optional := true } else field)

/-- Adds a field to a message, or warns that its name is taken. -/
def addFieldOrWarn (parent : MessageDraft) (field : FieldDraft)
    (warning : String → String → Warning) : M MessageDraft := do
  if parent.hasField field.name then warn (warning (← place) field.name)
  -- `addField` leaves the message as it is when the name is taken
  pure (parent.addField field)

/-- Adds a named member to a message: a property, a parameter or a body. A comment that is given
goes before the description of the schema. -/
def addMember (self : Engine) (job : Job) (parent : MessageDraft) (name : String)
    (property : SchemaNode) (required : Bool) (comment : Option String) : M MessageDraft := do
  let fieldName := Identifier.fieldName name
  match property with
  | .ref reference =>
    match fieldTo (some fieldName) (← referencedType self job reference) with
    | none => pure parent
    | some field => addFieldOrWarn parent { field with comment } .repeatedField
  | .inline schema =>
    match (← self.schema (job.messageName name) schema).filter (!·.isEmpty) with
    | none => pure parent
    | some child =>
      let (parent, field) ← takeIn self job parent fieldName child true
      let field ← markPresence job field schema required
      addFieldOrWarn parent { field with comment := comment <|> schema.description } .repeatedField

/-- Adds the properties of a schema to a message. -/
def addMembers (self : Engine) (job : Job) (parent : MessageDraft)
    (properties : List (String × SchemaNode)) (required : List String) : M MessageDraft :=
  properties.foldlM
    (fun parent entry =>
      within ("properties." ++ entry.1)
        (addMember self job parent entry.1 entry.2 (required.contains entry.1) none))
    parent

end Protoscribe.Compile
