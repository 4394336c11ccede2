import Protoscribe.OpenApi.Document
import Protoscribe.Reading.Part

/-!
# `Protoscribe.OpenApi.Node`: nodes that may be references

Schemas, parameters, request bodies and responses may be references, so each of them is read to
its end before it is known what it is. A map with one text under `$ref` is a reference, whatever
else it holds. Everything else is read as the definition itself.

A schema is first read into its `Keywords`. `Keywords.shape` then settles which of them count.
-/

set_option autoImplicit false

namespace Protoscribe.OpenApi

/-- What a schema says about members that it does not name. -/
inductive AdditionalProperties where
  | allowed (value : Bool)
  | schema (node : SchemaNode)

/-- The keywords of a schema as they are written. -/
structure Keywords where
  title : Option String := none
  description : Option String := none
  type : Option Value := none
  format : Option String := none
  enum : Option (List Value) := none
  oneOf : Option (List SchemaNode) := none
  anyOf : Option (List SchemaNode) := none
  allOf : Option (List SchemaNode) := none
  items : Option SchemaNode := none
  properties : List (String × SchemaNode) := []
  required : List String := []
  additionalProperties : Option AdditionalProperties := none
  deprecated : Bool := false
  nullable : Bool := false
  propertyOrder : Option Value := none

namespace Keywords

/-- The names of the keywords, in the order in which a list gives their values. -/
def names : List String :=
  ["title", "description", "type", "format", "enum", "oneOf", "anyOf", "allOf", "items",
   "properties", "required", "additionalProperties", "deprecated", "nullable", "x-propertyOrder"]

/-- The type names that a schema gives: one, or the texts of a list. -/
def typeNames (keywords : Keywords) : List String :=
  match keywords.type with
  | some (.list items) => items.filterMap Value.text?
  | _ => []

/-- The type that counts: the only one, or the first of a list that is not `null`. -/
def mainType? (keywords : Keywords) : Option String :=
  match keywords.type with
  | some (.text name) => some name
  | _ => keywords.typeNames.find? (· ≠ "null")

/-- Is `null` in the list of types? -/
def allowsNull (keywords : Keywords) : Bool :=
  keywords.typeNames.contains "null"

/-- The shape by type alone. An object is also one that has properties and no type. -/
def typedShape (keywords : Keywords) : Shape SchemaNode :=
  match keywords.mainType? with
  | some "boolean" => .boolean
  | some "integer" => .integer keywords.format
  | some "number" => .number keywords.format
  | some "string" => .string keywords.format
  | some "array" => .array keywords.items
  | some "object" => .object keywords.properties keywords.required
  | some _ => .any
  | none =>
    if keywords.properties.isEmpty then .any else .object keywords.properties keywords.required

/-- The shape of a schema. The first of these that is there decides: a schema for other members,
literals, `oneOf`, `anyOf`, `allOf`, the type. -/
def shape (keywords : Keywords) : Shape SchemaNode :=
  match keywords.additionalProperties with
  | some (.schema value) => .map value
  | _ =>
    match keywords.enum, keywords.oneOf, keywords.anyOf, keywords.allOf with
    | some literals, _, _, _ => .enum literals
    | none, some variants, _, _ => .oneOf variants
    | none, none, some variants, _ => .anyOf variants
    | none, none, none, some variants => .allOf variants keywords.properties keywords.required
    | none, none, none, none => keywords.typedShape

/-- The schema that the keywords make. -/
def schema (keywords : Keywords) : Schema where
  title := keywords.title
  description := keywords.description
  deprecated := keywords.deprecated
  nullable := keywords.nullable || keywords.allowsNull
  propertyOrder := keywords.propertyOrder
  shape := keywords.shape

end Keywords

/-- A reference or what `item?` reads. -/
def Referable.ofValue? {α : Type} (item? : Value → Option α) (value : Value) :
    Option (Referable α) :=
  match value.reference? with
  | some reference => some (.ref reference)
  | none => (item? value).map .inline

/-- A schema or a reference to one. -/
def SchemaNode.ofValue? (whole : Value) : Option SchemaNode :=
  match whole.reference? with
  | some reference => some (.ref reference)
  | none => do
    let set ← whole.record? Keywords.names
    let nodes (part : whole.Part) : Option (List SchemaNode) := do
      (← part.1.elements?).mapM fun item => SchemaNode.ofValue? item.1
    let keywords : Keywords :=
      { title := ← set.text? "title"
        description := ← set.text? "description"
        type := ← set.get? "type" Value.Members.free?
        format := ← set.text? "format"
        enum := ← set.get? "enum" fun part => do
          (← part.1.elements?).mapM Value.Members.free?
        oneOf := ← set.get? "oneOf" nodes
        anyOf := ← set.get? "anyOf" nodes
        allOf := ← set.get? "allOf" nodes
        items := ← set.get? "items" fun part => SchemaNode.ofValue? part.1
        properties := ← set.getD "properties" (fun part => do
          (← part.1.entries? Value.keyText?).mapM fun entry => do
            pure (entry.1, ← SchemaNode.ofValue? entry.2.1)) []
        required := ← set.texts "required"
        additionalProperties := ← set.get? "additionalProperties" fun part =>
          match part.1.bool? with
          | some value => some (.allowed value)
          | none => (SchemaNode.ofValue? part.1).map .schema
        deprecated := ← set.flag "deprecated"
        nullable := ← set.flag "nullable"
        propertyOrder := ← set.get? "x-propertyOrder" Value.Members.free? }
    some (.inline keywords.schema)
termination_by sizeOf whole
decreasing_by
  all_goals first
    | exact part.2
    | exact Nat.lt_trans item.2 part.2
    | exact Nat.lt_trans entry.2.2 part.2

/-- A parameter. -/
def Parameter.ofValue? (whole : Value) : Option Parameter := do
  let set ← whole.record? ["name", "in", "description", "required", "deprecated", "schema"]
  pure
    { name := ← set.text "name"
      location := ← set.text "in"
      description := ← set.text? "description"
      required := ← set.flag "required"
      deprecated := ← set.flag "deprecated"
      schema := ← set.get? "schema" fun part => SchemaNode.ofValue? part.1 }

/-- A media type. -/
def MediaType.ofValue? (whole : Value) : Option MediaType := do
  let set ← whole.record? ["schema"]
  pure { schema := ← set.get? "schema" fun part => SchemaNode.ofValue? part.1 }

/-- Payloads by media type. Their keys are texts. -/
def Content.ofValue? (whole : Value) : Option Content := do
  let entries ← (← whole.entries? Value.text?).mapM fun entry => do
    pure (entry.1, ← MediaType.ofValue? entry.2.1)
  pure (Table.ofList entries)

/-- A request body. -/
def RequestBody.ofValue? (whole : Value) : Option RequestBody := do
  let set ← whole.record? ["description", "content", "required"]
  pure
    { description := ← set.text? "description"
      content := ← set.getD "content" (fun part => Content.ofValue? part.1) {}
      required := ← set.flag "required" }

/-- A response. -/
def Response.ofValue? (whole : Value) : Option Response := do
  let set ← whole.record? ["description", "content"]
  pure
    { description := ← set.text? "description"
      content := ← set.getD "content" (fun part => Content.ofValue? part.1) {} }

end Protoscribe.OpenApi
