import Protoscribe.Compile.Literal
import Protoscribe.Compile.Member

/-!
# `Protoscribe.Compile.Schema`: from schemas to messages

A schema compiles to a message that its surroundings take in. A scalar or a list becomes a
wrapper, an enum the carrier of an enum, and a schema that describes nothing becomes no message.
A component is compiled once and declared in the file; later references find what it became.
-/

set_option autoImplicit false

namespace Protoscribe.Compile

open OpenApi (Referable RequestBody Schema SchemaNode)

/-- The field for a node that has no name of its own: a variant or the item of a list. The field
of a reference is named after its component unless a name is given. -/
def unnamedMember (self : Engine) (job : Job) (parent : MessageDraft) (fieldName : Option String)
    (fallback : String) (node : SchemaNode) : M (MessageDraft × Option FieldDraft) := do
  match node with
  | .ref reference =>
    pure (parent, fieldTo fieldName (← referencedType self job reference))
  | .inline schema =>
    match (← self.schema (schema.title.getD fallback) schema).filter (!·.isEmpty) with
    | none => pure (parent, none)
    | some child =>
      -- the name of the child comes from its title when it has one, and so does the field's
      let name := fieldName.getD (Identifier.fieldName child.name)
      let (parent, field) ← takeIn self job parent name child false
      pure (parent, some field)

/-- One variant of a union: a field in the oneof group `group`. -/
def addVariant (self : Engine) (job : Job) (name label : String) (group : Int32)
    (parent : MessageDraft) (variant : Nat × SchemaNode) : M MessageDraft := do
  let (parent, field?) ←
    within (label ++ "[" ++ toString variant.1 ++ "]")
      (unnamedMember self job parent none (name ++ "_" ++ toString (variant.1 + 1)) variant.2)
  match field? with
  | none => pure parent
  | some field => addFieldOrWarn parent { field with oneof := some group } .repeatedVariant

/-- A message with one oneof group that has a field for each variant. -/
def unionMessage (self : Engine) (job : Job) (name : String) (schema : Schema) (label : String)
    (variants : List SchemaNode) : M MessageDraft := do
  let start : MessageDraft := { name, comment := schema.description }
  -- the group is there even when no variant gets a field
  let group := start.nextOneof
  (variants.zipIdx.map fun variant => (variant.2, variant.1)).foldlM
    (addVariant self job name label group) (start.addOneof (Identifier.fieldName name))

/-- A message with the members of all variants and then the own properties. -/
def combinedMessage (self : Engine) (job : Job) (name : String) (schema : Schema)
    (variants : List SchemaNode) (properties : List (String × SchemaNode))
    (required : List String) : M MessageDraft := do
  let start : MessageDraft := { name, comment := schema.description }
  let merged ← variants.zipIdx.foldlM
    (fun draft variant =>
      within ("allOf[" ++ toString variant.2 ++ "]") (self.absorb draft variant.1))
    start
  addMembers self job merged properties required

/-- A wrapper of a scalar. -/
def scalarWrapper (name : String) (schema : Schema) (type : FieldType) : MessageDraft :=
  ({ name, comment := schema.description, wrapper := true } : MessageDraft).addField
    { name := Identifier.fieldName name, type }

/-- The message of a schema that describes a scalar. -/
def scalarMessage (name : String) (schema : Schema) : M MessageDraft := do
  match scalarType? schema.shape with
  | some type => pure (scalarWrapper name schema type)
  | none => throw (.missingFieldType (← place))

/-- A wrapper of a list. -/
def listWrapper (self : Engine) (job : Job) (name : String) (schema : Schema)
    (items : Option SchemaNode) : M (Option MessageDraft) := do
  match items with
  | none => pure none
  | some node =>
    let start : MessageDraft := { name, comment := schema.description, wrapper := true }
    let (draft, field?) ←
      within "items"
        (unnamedMember self job start (some (Identifier.fieldName name)) (name ++ "Item") node)
    match field? with
    | none => pure (some draft)
    | some field => pure (some (draft.addField { field with repeated := true }))

/-- A message with a field for each property. -/
def objectMessage (self : Engine) (job : Job) (name : String) (schema : Schema)
    (properties : List (String × SchemaNode)) (required : List String) : M MessageDraft :=
  addMembers self job { name, comment := schema.description } properties required

/-- Moves the fields that the schema lists to the front. -/
def reorder (draft : MessageDraft) (order : Value) : M MessageDraft := do
  match order with
  | .list items =>
    match items.mapM fun item => match item.untagged with
      | .text name => some (Identifier.fieldName name)
      | _ => none with
    -- the order lists properties, and fields are named after them
    | some names => pure (draft.moveToFront names)
    | none => throw (.invalidPropertyOrder (← place))
  | _ => throw (.invalidPropertyOrder (← place))

/-- The message of a schema by its shape alone. -/
def messageOfShape (self : Engine) (job : Job) (name : String) (schema : Schema) :
    M (Option MessageDraft) := do
  match schema.shape with
  | .map value => within "additionalProperties" (self.node name value)
  | .enum literals => some <$> enumCarrier job name schema literals
  | .oneOf variants => some <$> unionMessage self job name schema "oneOf" variants
  | .anyOf variants => some <$> unionMessage self job name schema "anyOf" variants
  | .allOf variants properties required =>
    some <$> combinedMessage self job name schema variants properties required
  | .boolean | .integer _ | .number _ | .string _ => some <$> scalarMessage name schema
  | .array items => listWrapper self job name schema items
  | .object properties required =>
    some <$> objectMessage self job name schema properties required
  | .any => pure none

/-- Compiles a schema. Its title, when it has one, goes before the name that is given. -/
def messageOfSchema (self : Engine) (job : Job) (hint : String) (schema : Schema) :
    M (Option MessageDraft) := do
  let name := job.messageName (schema.title.getD hint)
  -- an order is looked at only when there is a message to put in order
  match ← messageOfShape self job name schema, schema.propertyOrder with
  | some draft, some order => some <$> reorder draft order
  | compiled, _ => pure compiled

/-- Compiles a node. A reference is expanded in place. -/
def messageOfNode (self : Engine) (job : Job) (hint : String) : SchemaNode → M (Option MessageDraft)
  | .inline schema => self.schema hint schema
  | .ref reference => do
    let (key, target) ← findSchema job reference
    entering key (self.node hint target)

/-- Adds a variant of `allOf` to a message. Variants that are no objects are left out. -/
def absorb (self : Engine) (job : Job) (draft : MessageDraft) : SchemaNode → M MessageDraft
  | .ref reference => do
    let (key, target) ← findSchema job reference
    entering key (self.absorb draft target)
  | .inline schema => do
    -- a reference to something else is left out here too, once it has been followed
    if !schema.isObject then
      warn (.ignoredVariant (← place))
      return draft
    match ← self.schema draft.name schema with
    | some child => pure (draft.merge child)
    | none => pure draft

/-- Compiles a schema component and declares it. A component is compiled once. -/
def declareSchema (self : Engine) (job : Job) (key : String) (node : SchemaNode) :
    M ComponentType := do
  match (← get).schemas.lookup key with
  | some resolved => pure resolved
  | none =>
    -- the place starts afresh, whatever the component was reached from
    let compiled ← entering key
      (under ["components", "schemas", key] (self.node (job.messageName key) node))
    let resolved ← declareType compiled
    modify fun state => { state with schemas := state.schemas ++ [(key, resolved)] }
    pure resolved

/-- What a request body becomes: what its schema refers to, or a type of its own. -/
def typeOfBody (self : Engine) (job : Job) (key : String) (body : Referable RequestBody) :
    M ComponentType := do
  -- a body that refers to another one is compiled again under its own key
  let body ← follow .requestBodies job.document.components.requestBodies body
  match body.content.jsonSchema? with
  | none => pure .nothing
  -- such a body has no type of its own
  | some (.ref reference) => referencedType self job reference
  | some (.inline schema) =>
    let compiled ← self.schema (job.messageName key) schema
    declareType (compiled.map fun draft =>
      { draft with comment := draft.comment <|> body.description })

/-- Compiles a request body component and declares it. A component is compiled once. -/
def declareBody (self : Engine) (job : Job) (key : String) (body : Referable RequestBody) :
    M ComponentType := do
  match (← get).bodies.lookup key with
  | some resolved => pure resolved
  | none =>
    let resolved ← entering ("requestBodies." ++ key)
      (under ["components", "requestBodies", key] (typeOfBody self job key body))
    modify fun state => { state with bodies := state.bodies ++ [(key, resolved)] }
    pure resolved

namespace Engine

/-- The calls, where every further call goes to `self`. -/
def step (job : Job) (self : Engine) : Engine where
  node := messageOfNode self job
  schema := messageOfSchema self job
  absorb := Compile.absorb self job
  component := declareSchema self job
  requestBody := declareBody self job

end Engine

end Protoscribe.Compile
