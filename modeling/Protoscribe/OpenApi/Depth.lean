import Protoscribe.OpenApi.Document

/-!
# `Protoscribe.OpenApi.Depth`: how deep schemas are nested

`Document.deepest` bounds how many schemas stand inside each other anywhere in a description. A
reference has no depth: what it refers to is nested in its own component.
-/

set_option autoImplicit false

namespace Protoscribe.OpenApi

mutual

/-- The number of schemas that stand inside each other, this one included. -/
def Schema.depth : Schema → Nat
  | ⟨_, _, _, _, _, shape⟩ => shapeDepth shape + 1

/-- The depth of what stands in a shape. -/
def shapeDepth : Shape (Referable Schema) → Nat
  | .map value => nodeDepth value
  | .oneOf variants => nodesDepth variants
  | .anyOf variants => nodesDepth variants
  | .allOf variants properties _ => max (nodesDepth variants) (propertiesDepth properties)
  | .array none => 0
  | .array (some items) => nodeDepth items
  | .object properties _ => propertiesDepth properties
  | .enum _ => 0
  | .boolean => 0
  | .integer _ => 0
  | .number _ => 0
  | .string _ => 0
  | .any => 0

/-- The depth of a node. -/
def nodeDepth : Referable Schema → Nat
  | .ref _ => 0
  | .inline schema => schema.depth

/-- The greatest depth in a list of nodes. -/
def nodesDepth : List (Referable Schema) → Nat
  | [] => 0
  | node :: rest => max (nodeDepth node) (nodesDepth rest)

/-- The greatest depth in a list of named nodes. -/
def propertiesDepth : List (String × Referable Schema) → Nat
  | [] => 0
  | (_, node) :: rest => max (nodeDepth node) (propertiesDepth rest)

end

/-- The greatest number that a list gives. -/
def deepestOf {α : Type} (depth : α → Nat) (items : List α) : Nat :=
  items.foldl (fun deepest item => max deepest (depth item)) 0

/-- The depth of a definition; a reference has none. -/
def Referable.depth {α : Type} (depth : α → Nat) : Referable α → Nat
  | .ref _ => 0
  | .inline definition => depth definition

/-- The depth of the schema for JSON. -/
def Content.depth (content : Content) : Nat :=
  (content.jsonSchema?.map nodeDepth).getD 0

/-- The depth of the schema of a parameter. -/
def Parameter.depth (parameter : Parameter) : Nat :=
  (parameter.schema.map nodeDepth).getD 0

/-- The greatest depth below an operation. -/
def Operation.depth (operation : Operation) : Nat :=
  max (deepestOf (Referable.depth Parameter.depth) operation.parameters)
    (max ((operation.requestBody.map (Referable.depth (·.content.depth))).getD 0)
      (deepestOf (fun entry => Referable.depth (·.content.depth) entry.2) operation.responses))

/-- The greatest depth below a path. -/
def PathItem.depth (item : PathItem) : Nat :=
  max (deepestOf (Referable.depth Parameter.depth) item.parameters)
    (deepestOf (fun entry => entry.2.depth) item.operations)

/-- The greatest depth in the component sections. -/
def Components.depth (components : Components) : Nat :=
  max (deepestOf (fun entry => nodeDepth entry.2) components.schemas.entries)
    (max
      (deepestOf (fun entry => Referable.depth Parameter.depth entry.2)
        components.parameters.entries)
      (max
        (deepestOf (fun entry => Referable.depth (·.content.depth) entry.2)
          components.requestBodies.entries)
        (deepestOf (fun entry => Referable.depth (·.content.depth) entry.2)
          components.responses.entries)))

/-- The greatest depth of a schema anywhere in the description. -/
def Document.deepest (document : Document) : Nat :=
  max document.components.depth
    (deepestOf (fun entry => entry.2.depth) document.paths.entries)

end Protoscribe.OpenApi
