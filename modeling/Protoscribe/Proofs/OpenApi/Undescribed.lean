import Protoscribe.Proofs.OpenApi.Depth

/-!
# `Protoscribe.Proofs.OpenApi.Undescribed`: a description without its prose

Prose is what a description says for readers only: the summaries, the descriptions and the version.
`Document.undescribed` takes it out everywhere and keeps everything else. What is looked up in such
a description is what was looked up before, without its prose, and no schema in it is nested less
deep (`Document.deepest_undescribed`).
-/

set_option autoImplicit false

namespace Protoscribe.OpenApi

/-! ### Schemas -/

mutual

/-- The schema without prose, its own or that of the schemas in it. -/
def Schema.undescribed : Schema → Schema
  | ⟨title, _, deprecated, nullable, propertyOrder, shape⟩ =>
    ⟨title, none, deprecated, nullable, propertyOrder, undescribedShape shape⟩

/-- A shape without the prose of what stands in it. -/
def undescribedShape : Shape (Referable Schema) → Shape (Referable Schema)
  | .map value => .map (undescribedNode value)
  | .enum literals => .enum literals
  | .oneOf variants => .oneOf (undescribedNodes variants)
  | .anyOf variants => .anyOf (undescribedNodes variants)
  | .allOf variants properties required =>
    .allOf (undescribedNodes variants) (undescribedProperties properties) required
  | .boolean => .boolean
  | .integer format => .integer format
  | .number format => .number format
  | .string format => .string format
  | .array none => .array none
  | .array (some items) => .array (some (undescribedNode items))
  | .object properties required => .object (undescribedProperties properties) required
  | .any => .any

/-- A node without prose. -/
def undescribedNode : Referable Schema → Referable Schema
  | .ref reference => .ref reference
  | .inline schema => .inline schema.undescribed

/-- Nodes without prose. -/
def undescribedNodes : List (Referable Schema) → List (Referable Schema)
  | [] => []
  | node :: rest => undescribedNode node :: undescribedNodes rest

/-- Named nodes without prose. -/
def undescribedProperties :
    List (String × Referable Schema) → List (String × Referable Schema)
  | [] => []
  | (name, node) :: rest => (name, undescribedNode node) :: undescribedProperties rest

end

/-- Nodes lose their prose one by one. -/
theorem undescribedNodes_eq_map (nodes : List (Referable Schema)) :
    undescribedNodes nodes = nodes.map undescribedNode := by
  induction nodes with
  | nil => rfl
  | cons node rest ih => rw [undescribedNodes, ih, List.map_cons]

/-- Properties keep their names and their order. -/
theorem undescribedProperties_eq_map (properties : List (String × Referable Schema)) :
    undescribedProperties properties =
      properties.map fun entry => (entry.1, undescribedNode entry.2) := by
  induction properties with
  | nil => rfl
  | cons entry rest ih => rw [undescribedProperties, ih, List.map_cons]

namespace Schema

variable (schema : Schema)

/-- A title is no prose: types are named after it. -/
@[simp] theorem title_undescribed : schema.undescribed.title = schema.title := by
  cases schema
  rw [undescribed]

/-- No description is left. -/
@[simp] theorem description_undescribed : schema.undescribed.description = none := by
  cases schema
  rw [undescribed]

/-- Whether `null` is allowed is no prose. -/
@[simp] theorem nullable_undescribed : schema.undescribed.nullable = schema.nullable := by
  cases schema
  rw [undescribed]

/-- The order of fields is no prose. -/
@[simp] theorem propertyOrder_undescribed :
    schema.undescribed.propertyOrder = schema.propertyOrder := by
  cases schema
  rw [undescribed]

/-- The shape loses the prose of what stands in it. -/
@[simp] theorem shape_undescribed :
    schema.undescribed.shape = undescribedShape schema.shape := by
  cases schema
  rw [undescribed]

/-- An object stays one. -/
@[simp] theorem isObject_undescribed : schema.undescribed.isObject = schema.isObject := by
  rw [isObject, isObject, shape_undescribed]
  cases schema.shape with
  | array items => cases items <;> rfl
  | _ => rfl

end Schema

mutual

/-- A schema is nested as deep without its prose. -/
theorem Schema.depth_undescribed : ∀ schema : Schema, schema.undescribed.depth = schema.depth
  | ⟨_, _, _, _, _, shape⟩ => by
    rw [Schema.undescribed, Schema.depth, Schema.depth, shapeDepth_undescribed shape]

/-- So is a shape, through all its parts. -/
theorem shapeDepth_undescribed : ∀ shape : Shape (Referable Schema),
    shapeDepth (undescribedShape shape) = shapeDepth shape
  | .map value => by
    rw [undescribedShape, shapeDepth, shapeDepth, nodeDepth_undescribed value]
  | .oneOf variants => by
    rw [undescribedShape, shapeDepth, shapeDepth, nodesDepth_undescribed variants]
  | .anyOf variants => by
    rw [undescribedShape, shapeDepth, shapeDepth, nodesDepth_undescribed variants]
  | .allOf variants properties _ => by
    rw [undescribedShape, shapeDepth, shapeDepth, nodesDepth_undescribed variants,
      propertiesDepth_undescribed properties]
  | .array none => rfl
  | .array (some items) => by
    rw [undescribedShape, shapeDepth, shapeDepth, nodeDepth_undescribed items]
  | .object properties _ => by
    rw [undescribedShape, shapeDepth, shapeDepth, propertiesDepth_undescribed properties]
  | .enum _ | .boolean | .integer _ | .number _ | .string _ | .any => rfl

/-- So is a node. A reference has no depth. -/
theorem nodeDepth_undescribed : ∀ node : Referable Schema,
    nodeDepth (undescribedNode node) = nodeDepth node
  | .ref _ => rfl
  | .inline schema => by
    rw [undescribedNode, nodeDepth, nodeDepth, Schema.depth_undescribed schema]

/-- So are nodes in a list. -/
theorem nodesDepth_undescribed : ∀ nodes : List (Referable Schema),
    nodesDepth (undescribedNodes nodes) = nodesDepth nodes
  | [] => rfl
  | node :: rest => by
    rw [undescribedNodes, nodesDepth, nodesDepth, nodeDepth_undescribed node,
      nodesDepth_undescribed rest]

/-- So are properties. -/
theorem propertiesDepth_undescribed : ∀ properties : List (String × Referable Schema),
    propertiesDepth (undescribedProperties properties) = propertiesDepth properties
  | [] => rfl
  | (_, node) :: rest => by
    rw [undescribedProperties, propertiesDepth, propertiesDepth, nodeDepth_undescribed node,
      propertiesDepth_undescribed rest]

end

/-! ### Operations -/

/-- What stands in place of a definition when the definition changes. -/
def Referable.map {α β : Type} (change : α → β) : Referable α → Referable β
  | .ref reference => .ref reference
  | .inline definition => .inline (change definition)

/-- The parameter without prose. -/
def Parameter.undescribed (parameter : Parameter) : Parameter :=
  { parameter with description := none, schema := parameter.schema.map undescribedNode }

/-- The payloads without prose. -/
def Content.undescribed (content : Content) : Content :=
  content.map fun media => ⟨media.schema.map undescribedNode⟩

/-- The request body without prose. -/
def RequestBody.undescribed (body : RequestBody) : RequestBody :=
  { body with description := none, content := body.content.undescribed }

/-- The response without prose. -/
def Response.undescribed (response : Response) : Response :=
  ⟨none, response.content.undescribed⟩

/-- The operation without prose. -/
def Operation.undescribed (operation : Operation) : Operation :=
  { operation with
    summary := none
    description := none
    parameters := operation.parameters.map (·.map Parameter.undescribed)
    requestBody := operation.requestBody.map (·.map RequestBody.undescribed)
    responses :=
      operation.responses.map fun entry => (entry.1, entry.2.map Response.undescribed) }

/-- The path without prose. -/
def PathItem.undescribed (item : PathItem) : PathItem where
  parameters := item.parameters.map (·.map Parameter.undescribed)
  get := item.get.map Operation.undescribed
  put := item.put.map Operation.undescribed
  post := item.post.map Operation.undescribed
  delete := item.delete.map Operation.undescribed
  options := item.options.map Operation.undescribed
  head := item.head.map Operation.undescribed
  patch := item.patch.map Operation.undescribed
  trace := item.trace.map Operation.undescribed

/-- The JSON payload is found under the same media type. -/
theorem Content.jsonSchema?_undescribed (content : Content) :
    content.undescribed.jsonSchema? = content.jsonSchema?.map undescribedNode := by
  rw [undescribed, jsonSchema?, jsonSchema?, Table.find?_map]
  cases content.find? "application/json" <;> rfl

/-- The response of a status is found among the same responses. -/
theorem Operation.response?_undescribed (operation : Operation) (status : String) :
    operation.undescribed.response? status =
      (operation.response? status).map (·.map Response.undescribed) :=
  Table.lookup_map (Referable.map Response.undescribed) operation.responses status

/-- A path has the same operations, in the same order. -/
theorem PathItem.operations_undescribed (item : PathItem) :
    item.undescribed.operations =
      item.operations.map fun entry => (entry.1, entry.2.undescribed) := by
  have hverb (verb : Verb) :
      item.undescribed.operation? verb = (item.operation? verb).map Operation.undescribed := by
    cases verb <;> rfl
  rw [operations, operations, List.map_filterMap]
  refine List.filterMap_congr fun verb _ => ?_
  rw [hverb, Option.map_map, Option.map_map]
  rfl

/-! ### The document -/

/-- The components without prose. -/
def Components.undescribed (components : Components) : Components where
  schemas := components.schemas.map undescribedNode
  parameters := components.parameters.map (·.map Parameter.undescribed)
  requestBodies := components.requestBodies.map (·.map RequestBody.undescribed)
  responses := components.responses.map (·.map Response.undescribed)

/-- The description without prose: no summary, no description and no version. -/
def Document.undescribed (document : Document) : Document :=
  { document with
    info := { title := document.info.title }
    paths := document.paths.map PathItem.undescribed
    components := document.components.undescribed }

section

variable {α β : Type} {depth : α → Nat} {depthAfter : β → Nat} {change : α → β}

/-- A change that keeps the depth of items keeps that of the deepest one. -/
theorem deepestOf_map (h : ∀ item, depthAfter (change item) = depth item) (items : List α) :
    deepestOf depthAfter (items.map change) = deepestOf depth items := by
  rw [deepestOf, deepestOf, List.foldl_map]
  simp only [h]

/-- The same for items with keys. -/
theorem deepestOf_mapEntries {κ : Type} (h : ∀ item, depthAfter (change item) = depth item)
    (entries : List (κ × α)) :
    deepestOf (fun entry => depthAfter entry.2)
        (entries.map fun entry => (entry.1, change entry.2)) =
      deepestOf (fun entry => depth entry.2) entries := by
  rw [deepestOf, deepestOf, List.foldl_map]
  simp only [h]

/-- A change that keeps the depth of definitions keeps that of nodes. -/
theorem Referable.depth_map (h : ∀ item, depthAfter (change item) = depth item)
    (node : Referable α) : (node.map change).depth depthAfter = node.depth depth := by
  cases node with
  | ref reference => rfl
  | inline definition => exact h definition

end

/-- A schema that may be absent is as deep without its prose. -/
theorem optionalDepth_undescribed (node : Option (Referable Schema)) :
    ((node.map undescribedNode).map nodeDepth).getD 0 = (node.map nodeDepth).getD 0 := by
  cases node with
  | none => rfl
  | some node => exact nodeDepth_undescribed node

/-- Payloads are as deep without their prose. -/
theorem Content.depth_undescribed (content : Content) :
    content.undescribed.depth = content.depth := by
  rw [depth, jsonSchema?_undescribed, optionalDepth_undescribed, depth]

/-- A parameter is as deep without its prose. -/
theorem parameterDepth_undescribed (node : Referable Parameter) :
    (node.map Parameter.undescribed).depth Parameter.depth = node.depth Parameter.depth :=
  Referable.depth_map (fun parameter => optionalDepth_undescribed parameter.schema) node

/-- A request body is as deep without its prose. -/
theorem bodyDepth_undescribed (node : Referable RequestBody) :
    (node.map RequestBody.undescribed).depth (·.content.depth) = node.depth (·.content.depth) :=
  Referable.depth_map (fun body => body.content.depth_undescribed) node

/-- A response is as deep without its prose. -/
theorem responseDepth_undescribed (node : Referable Response) :
    (node.map Response.undescribed).depth (·.content.depth) = node.depth (·.content.depth) :=
  Referable.depth_map (fun response => response.content.depth_undescribed) node

/-- An operation is as deep as the deepest of its parts, with prose or without. -/
theorem Operation.depth_undescribed (operation : Operation) :
    operation.undescribed.depth = operation.depth := by
  have hparameters := deepestOf_map parameterDepth_undescribed operation.parameters
  have hbody :
      (operation.undescribed.requestBody.map (Referable.depth (·.content.depth))).getD 0 =
        (operation.requestBody.map (Referable.depth (·.content.depth))).getD 0 := by
    rw [undescribed]
    cases operation.requestBody with
    | none => rfl
    | some body => exact bodyDepth_undescribed body
  have hresponses := deepestOf_mapEntries responseDepth_undescribed operation.responses
  exact congrArg₂ max hparameters (congrArg₂ max hbody hresponses)

/-- A path is as deep as the deepest of its operations and parameters. -/
theorem PathItem.depth_undescribed (item : PathItem) : item.undescribed.depth = item.depth := by
  have hparameters := deepestOf_map parameterDepth_undescribed item.parameters
  have hoperations := deepestOf_mapEntries Operation.depth_undescribed item.operations
  rw [depth, depth, operations_undescribed]
  exact congrArg₂ max hparameters hoperations

/-- The components are as deep as the deepest of them. -/
theorem Components.depth_undescribed (components : Components) :
    components.undescribed.depth = components.depth := by
  have hschemas := deepestOf_mapEntries nodeDepth_undescribed components.schemas.entries
  have hparameters :=
    deepestOf_mapEntries parameterDepth_undescribed components.parameters.entries
  have hbodies := deepestOf_mapEntries bodyDepth_undescribed components.requestBodies.entries
  have hresponses := deepestOf_mapEntries responseDepth_undescribed components.responses.entries
  exact congrArg₂ max hschemas (congrArg₂ max hparameters (congrArg₂ max hbodies hresponses))

/-- Prose does not make schemas nest. -/
theorem Document.deepest_undescribed (document : Document) :
    document.undescribed.deepest = document.deepest := by
  have hpaths := deepestOf_mapEntries PathItem.depth_undescribed document.paths.entries
  exact congrArg₂ max document.components.depth_undescribed hpaths

end Protoscribe.OpenApi
