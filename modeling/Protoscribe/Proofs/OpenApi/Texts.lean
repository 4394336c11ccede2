import Protoscribe.OpenApi.Document
import Protoscribe.Proofs.Table

/-!
# `Protoscribe.Proofs.OpenApi.Texts`: the texts that types and fields are named after

Types and fields are named after the keys of components, titles, and the names of properties and
parameters. `Document.texts` collects them, `nodeTexts` those inside one schema. Parameters, request
bodies and responses may stand in several places of a description, and behind references;
`Document.parameters`, `Document.requestBodies` and `Document.responses` list all of these places.
-/

set_option autoImplicit false

namespace Protoscribe.OpenApi

/-! ### Inside a schema -/

mutual

/-- The titles and the property names of a schema and of the schemas inside it. -/
def Schema.texts : Schema → List String
  | ⟨title, _, _, _, _, shape⟩ => title.toList ++ shapeTexts shape

/-- The texts inside a shape. -/
def shapeTexts : Shape (Referable Schema) → List String
  | .map value => nodeTexts value
  | .oneOf variants => nodesTexts variants
  | .anyOf variants => nodesTexts variants
  | .allOf variants properties _ => nodesTexts variants ++ propertiesTexts properties
  | .array none => []
  | .array (some items) => nodeTexts items
  | .object properties _ => propertiesTexts properties
  | .enum _ => []
  | .boolean => []
  | .integer _ => []
  | .number _ => []
  | .string _ => []
  | .any => []

/-- The texts of a node; a reference has none. -/
def nodeTexts : Referable Schema → List String
  | .ref _ => []
  | .inline schema => schema.texts

/-- The texts of a list of nodes. -/
def nodesTexts : List (Referable Schema) → List String
  | [] => []
  | node :: rest => nodeTexts node ++ nodesTexts rest

/-- The names of properties, with the texts of their nodes. -/
def propertiesTexts : List (String × Referable Schema) → List String
  | [] => []
  | (name, node) :: rest => name :: nodeTexts node ++ propertiesTexts rest

end

/-- The texts of a schema are its title and those of its shape. -/
theorem Schema.texts_eq (schema : Schema) :
    schema.texts = schema.title.toList ++ shapeTexts schema.shape := by
  cases schema
  rw [Schema.texts]

/-- The texts of nodes, node by node. -/
theorem nodesTexts_eq_flatMap (nodes : List (Referable Schema)) :
    nodesTexts nodes = nodes.flatMap nodeTexts := by
  induction nodes with
  | nil => rfl
  | cons node rest ih => rw [nodesTexts, List.flatMap_cons, ih]

/-- The texts of properties are their names and those of their nodes. -/
theorem propertiesTexts_eq_flatMap (properties : List (String × Referable Schema)) :
    propertiesTexts properties = properties.flatMap fun entry => entry.1 :: nodeTexts entry.2 := by
  induction properties with
  | nil => rfl
  | cons entry rest ih => rw [propertiesTexts, List.flatMap_cons, ih]

/-! ### Places in a description -/

namespace Document

/-- All operations of a description. -/
def operations (document : Document) : List Operation :=
  document.paths.entries.flatMap fun entry => entry.2.operations.map (·.2)

/-- All places where a parameter may stand. -/
def parameters (document : Document) : List (Referable Parameter) :=
  document.components.parameters.entries.map (·.2) ++
    document.paths.entries.flatMap (·.2.parameters) ++ document.operations.flatMap (·.parameters)

/-- All places where a request body may stand. -/
def requestBodies (document : Document) : List (Referable RequestBody) :=
  document.components.requestBodies.entries.map (·.2) ++
    document.operations.filterMap (·.requestBody)

/-- All places where a response may stand. -/
def responses (document : Document) : List (Referable Response) :=
  document.components.responses.entries.map (·.2) ++
    document.operations.flatMap fun operation => operation.responses.map (·.2)

variable {document : Document} {path : String} {item : PathItem} {operation : Operation}

/-- The operations of a path are operations of the description. -/
theorem mem_operations {verb : Verb} (hitem : (path, item) ∈ document.paths.entries)
    (hoperation : (verb, operation) ∈ item.operations) : operation ∈ document.operations := by
  have hmem : operation ∈ item.operations.map (·.2) :=
    List.mem_map_of_mem (f := Prod.snd) hoperation
  exact List.mem_flatMap.mpr ⟨_, hitem, hmem⟩

/-- A shared parameter is a parameter of the description. -/
theorem mem_parameters_of_find? {key : String} {parameter : Referable Parameter}
    (h : document.components.parameters.find? key = some parameter) :
    parameter ∈ document.parameters := by
  have hmem := List.mem_map_of_mem (f := Prod.snd) (Table.find?_eq_some_iff.mp h)
  exact List.mem_append_left _ (List.mem_append_left _ hmem)

/-- The parameters that the operations of a path share, and their own. -/
theorem mem_parameters_of_operation (hitem : (path, item) ∈ document.paths.entries)
    (hoperation : operation ∈ document.operations) {parameter : Referable Parameter}
    (h : parameter ∈ item.parameters ∨ parameter ∈ operation.parameters) :
    parameter ∈ document.parameters := by
  rcases h with hshared | hown
  · have hmem := List.mem_flatMap_of_mem (f := fun entry => entry.2.parameters) hitem hshared
    exact List.mem_append_left _ (List.mem_append_right _ hmem)
  · exact List.mem_append_right _ (List.mem_flatMap_of_mem hoperation hown)

/-- A shared request body is a request body of the description. -/
theorem mem_requestBodies_of_find? {key : String} {body : Referable RequestBody}
    (h : document.components.requestBodies.find? key = some body) :
    body ∈ document.requestBodies := by
  have hmem := List.mem_map_of_mem (f := Prod.snd) (Table.find?_eq_some_iff.mp h)
  exact List.mem_append_left _ hmem

/-- The request body of an operation is a request body of the description. -/
theorem mem_requestBodies_of_operation (hoperation : operation ∈ document.operations)
    {body : Referable RequestBody} (h : operation.requestBody = some body) :
    body ∈ document.requestBodies :=
  List.mem_append_right _ (List.mem_filterMap.mpr ⟨operation, hoperation, h⟩)

/-- A shared response is a response of the description. -/
theorem mem_responses_of_find? {key : String} {response : Referable Response}
    (h : document.components.responses.find? key = some response) :
    response ∈ document.responses := by
  have hmem := List.mem_map_of_mem (f := Prod.snd) (Table.find?_eq_some_iff.mp h)
  exact List.mem_append_left _ hmem

/-- The responses of an operation are responses of the description. -/
theorem mem_responses_of_operation (hoperation : operation ∈ document.operations)
    {status : String} {response : Referable Response}
    (h : operation.response? status = some response) : response ∈ document.responses := by
  have hentry : (status, response) ∈ operation.responses := Table.mem_of_lookup_eq_some h
  have hmem := List.mem_map_of_mem (f := Prod.snd) hentry
  exact List.mem_append_right _ (List.mem_flatMap.mpr ⟨operation, hoperation, hmem⟩)

end Document

/-- The texts of what stands in a place; a reference has none. -/
def Referable.texts {α : Type} (texts : α → List String) : Referable α → List String
  | .ref _ => []
  | .inline definition => texts definition

/-- The texts of the schema for JSON. -/
def Content.texts (content : Content) : List String :=
  (content.jsonSchema?.map nodeTexts).getD []

/-- The name of a parameter, and the texts of its schema. -/
def Parameter.texts (parameter : Parameter) : List String :=
  parameter.name :: (parameter.schema.map nodeTexts).getD []

/-- The texts that types and fields are named after. -/
def Document.texts (document : Document) : List String :=
  document.components.schemas.entries.flatMap (fun entry => entry.1 :: nodeTexts entry.2) ++
    document.components.requestBodies.keys ++
    document.parameters.flatMap (Referable.texts Parameter.texts) ++
    document.requestBodies.flatMap (Referable.texts (·.content.texts)) ++
    document.responses.flatMap (Referable.texts (·.content.texts))

/-- The texts of the JSON payload are among those of the payloads. -/
theorem Content.nodeTexts_subset {content : Content} {node : Referable Schema}
    (h : content.jsonSchema? = some node) : nodeTexts node ⊆ content.texts := by
  simp [Content.texts, h]

/-- The texts of the schema of a parameter are among those of the parameter. -/
theorem Parameter.nodeTexts_subset {parameter : Parameter} {node : Referable Schema}
    (h : parameter.schema = some node) : nodeTexts node ⊆ parameter.texts := by
  simp [Parameter.texts, h]

namespace Document

variable {document : Document}

/-- The key of a component and the texts of its schema. -/
theorem schemaTexts_subset {key : String} {node : Referable Schema}
    (h : document.components.schemas.find? key = some node) :
    key :: nodeTexts node ⊆ document.texts := by
  intro text htext
  have hentry : (key, node) ∈ document.components.schemas.entries := Table.find?_eq_some_iff.mp h
  have hmem := List.mem_flatMap_of_mem (f := fun entry => entry.1 :: nodeTexts entry.2) hentry htext
  simp only [texts, List.mem_append]
  exact .inl (.inl (.inl (.inl hmem)))

/-- The key of a shared request body is a text of the description. -/
theorem requestBodyKey_mem_texts {key : String} {body : Referable RequestBody}
    (h : document.components.requestBodies.find? key = some body) : key ∈ document.texts := by
  have hkey := Table.mem_keys_of_find?_eq_some h
  simp only [texts, List.mem_append]
  exact .inl (.inl (.inl (.inr hkey)))

/-- The texts of a parameter are texts of the description. -/
theorem parameterTexts_subset {parameter : Parameter}
    (h : .inline parameter ∈ document.parameters) : parameter.texts ⊆ document.texts := by
  intro text htext
  have hmem := List.mem_flatMap_of_mem (f := Referable.texts Parameter.texts) h htext
  simp only [texts, List.mem_append]
  exact .inl (.inl (.inr hmem))

/-- The texts of a request body are texts of the description. -/
theorem requestBodyTexts_subset {body : RequestBody} (h : .inline body ∈ document.requestBodies) :
    body.content.texts ⊆ document.texts := by
  intro text htext
  have hmem := List.mem_flatMap_of_mem (f := Referable.texts (·.content.texts)) h htext
  simp only [texts, List.mem_append]
  exact .inl (.inr hmem)

/-- The texts of a response are texts of the description. -/
theorem responseTexts_subset {response : Response} (h : .inline response ∈ document.responses) :
    response.content.texts ⊆ document.texts := by
  intro text htext
  have hmem := List.mem_flatMap_of_mem (f := Referable.texts (·.content.texts)) h htext
  simp only [texts, List.mem_append]
  exact .inr hmem

end Document

end Protoscribe.OpenApi
