import Protoscribe.OpenApi.Depth
import Protoscribe.Proofs.Table

/-!
# `Protoscribe.Proofs.OpenApi.Depth`: no schema is nested deeper than the deepest one

`Document.deepest` is a maximum over all places of a description that hold schemas. The lemmas here
lead from such a place to that bound, one level of the description at a time: from the nodes of a
schema to the schema, and from components, parameters, bodies and responses to the document. What is
behind a reference is nested in its own component, and that component is in one of the tables.
-/

set_option autoImplicit false

namespace Protoscribe.OpenApi

/-! ### Greatest members -/

/-- Looking for the deepest item never leads back. -/
theorem le_foldl_max {α : Type} (depth : α → Nat) (items : List α) (start : Nat) :
    start ≤ items.foldl (fun deepest item => max deepest (depth item)) start := by
  induction items generalizing start with
  | nil => exact Nat.le_refl _
  | cons item rest ih => exact Nat.le_trans (Nat.le_max_left _ _) (ih _)

/-- No item is deeper than the deepest one. -/
theorem le_deepestOf {α : Type} (depth : α → Nat) {items : List α} {item : α}
    (h : item ∈ items) : depth item ≤ deepestOf depth items := by
  unfold deepestOf
  generalize 0 = start
  induction items generalizing start with
  | nil => cases h
  | cons first rest ih =>
    rcases List.mem_cons.mp h with rfl | hrest
    · exact Nat.le_trans (Nat.le_max_right _ _) (le_foldl_max _ rest _)
    · exact ih hrest _

/-- A node is no deeper than the nodes that it is one of. -/
theorem nodeDepth_le_nodesDepth {node : Referable Schema} {nodes : List (Referable Schema)}
    (h : node ∈ nodes) : nodeDepth node ≤ nodesDepth nodes := by
  induction nodes with
  | nil => cases h
  | cons first rest ih =>
    rw [nodesDepth]
    rcases List.mem_cons.mp h with rfl | hrest
    · exact Nat.le_max_left _ _
    · exact Nat.le_trans (ih hrest) (Nat.le_max_right _ _)

/-- A property is no deeper than the properties that it is one of. -/
theorem nodeDepth_le_propertiesDepth {property : String × Referable Schema}
    {properties : List (String × Referable Schema)} (h : property ∈ properties) :
    nodeDepth property.2 ≤ propertiesDepth properties := by
  induction properties with
  | nil => cases h
  | cons first rest ih =>
    obtain ⟨name, node⟩ := first
    rw [propertiesDepth]
    rcases List.mem_cons.mp h with rfl | hrest
    · exact Nat.le_max_left _ _
    · exact Nat.le_trans (ih hrest) (Nat.le_max_right _ _)

/-- A schema is one deeper than its shape. -/
theorem Schema.depth_eq (schema : Schema) : schema.depth = shapeDepth schema.shape + 1 := by
  cases schema
  rw [Schema.depth]

/-- A schema in place is as deep as it is. -/
@[simp] theorem nodeDepth_inline (schema : Schema) : nodeDepth (.inline schema) = schema.depth := by
  rw [nodeDepth]

/-! ### Places in a description -/

/-- A value of a table is not deeper than the deepest one of the table. -/
theorem le_deepestOf_entries {α : Type} (depth : α → Nat) {table : Table α} {key : String}
    {value : α} (h : table.find? key = some value) :
    depth value ≤ deepestOf (fun entry => depth entry.2) table.entries :=
  le_deepestOf (fun entry : String × α => depth entry.2) (Table.find?_eq_some_iff.mp h)

/-- The JSON payload is no deeper than the payloads. -/
theorem Content.nodeDepth_le_depth {content : Content} {node : Referable Schema}
    (h : content.jsonSchema? = some node) : nodeDepth node ≤ content.depth := by
  simp [Content.depth, h]

/-- The schema of a parameter is no deeper than the parameter. -/
theorem Parameter.nodeDepth_le_depth {parameter : Parameter} {node : Referable Schema}
    (h : parameter.schema = some node) : nodeDepth node ≤ parameter.depth := by
  simp [Parameter.depth, h]

namespace Document

variable {document : Document} {key : String}

/-- A schema component is no deeper than the description. -/
theorem nodeDepth_le_deepest {node : Referable Schema}
    (h : document.components.schemas.find? key = some node) :
    nodeDepth node ≤ document.deepest := by
  have hcomponent := le_deepestOf_entries (α := SchemaNode) nodeDepth h
  simp only [deepest, Components.depth]
  omega

/-- A shared parameter is no deeper than the description. -/
theorem parameterDepth_le_deepest {node : Referable Parameter}
    (h : document.components.parameters.find? key = some node) :
    node.depth Parameter.depth ≤ document.deepest := by
  have hcomponent := le_deepestOf_entries (Referable.depth Parameter.depth) h
  simp only [deepest, Components.depth]
  omega

/-- A shared request body is no deeper than the description. -/
theorem bodyDepth_le_deepest {node : Referable RequestBody}
    (h : document.components.requestBodies.find? key = some node) :
    node.depth (·.content.depth) ≤ document.deepest := by
  have hcomponent := le_deepestOf_entries (Referable.depth (·.content.depth)) h
  simp only [deepest, Components.depth]
  omega

/-- A shared response is no deeper than the description. -/
theorem responseDepth_le_deepest {node : Referable Response}
    (h : document.components.responses.find? key = some node) :
    node.depth (·.content.depth) ≤ document.deepest := by
  have hcomponent := le_deepestOf_entries (Referable.depth (·.content.depth)) h
  simp only [deepest, Components.depth]
  omega

variable {path : String} {item : PathItem}

/-- A path is no deeper than the description. -/
theorem pathDepth_le_deepest (h : (path, item) ∈ document.paths.entries) :
    item.depth ≤ document.deepest := by
  have hpath : item.depth ≤ _ := le_deepestOf (fun entry : String × PathItem => entry.2.depth) h
  simp only [deepest]
  omega

/-- A parameter that the operations of a path share. -/
theorem sharedParameterDepth_le_deepest (h : (path, item) ∈ document.paths.entries)
    {node : Referable Parameter} (hnode : node ∈ item.parameters) :
    node.depth Parameter.depth ≤ document.deepest := by
  have hparameter := le_deepestOf (Referable.depth Parameter.depth) hnode
  have hpath := pathDepth_le_deepest h
  simp only [PathItem.depth] at hpath
  omega

variable {verb : Verb} {operation : Operation}

/-- An operation is no deeper than the description. -/
theorem operationDepth_le_deepest (h : (path, item) ∈ document.paths.entries)
    (hoperation : (verb, operation) ∈ item.operations) : operation.depth ≤ document.deepest := by
  have hverb : operation.depth ≤ _ :=
    le_deepestOf (fun entry : Verb × Operation => entry.2.depth) hoperation
  have hpath := pathDepth_le_deepest h
  simp only [PathItem.depth] at hpath
  omega

end Document

namespace Operation

variable {operation : Operation}

/-- A parameter is no deeper than its operation. -/
theorem parameterDepth_le_depth {node : Referable Parameter} (h : node ∈ operation.parameters) :
    node.depth Parameter.depth ≤ operation.depth := by
  have hparameter := le_deepestOf (Referable.depth Parameter.depth) h
  simp only [depth]
  omega

/-- A request body is no deeper than its operation. -/
theorem bodyDepth_le_depth {node : Referable RequestBody} (h : operation.requestBody = some node) :
    node.depth (·.content.depth) ≤ operation.depth := by
  simp only [depth, h, Option.map_some, Option.getD_some]
  omega

/-- A response is no deeper than its operation. -/
theorem responseDepth_le_depth {status : String} {node : Referable Response}
    (h : operation.response? status = some node) :
    node.depth (·.content.depth) ≤ operation.depth := by
  have hresponse : node.depth (·.content.depth) ≤ _ :=
    le_deepestOf (fun entry : String × Referable Response => entry.2.depth (·.content.depth))
      (Table.mem_of_lookup_eq_some h)
  simp only [depth]
  omega

end Operation

end Protoscribe.OpenApi
