import Protoscribe.Proofs.OpenApi.SchemaPlaces
import Protoscribe.Proofs.OpenApi.Texts

/-!
# `Protoscribe.Proofs.OpenApi.DocumentPlaces`: where a description stands in its text

All operations of a description stand in the text that it is read from
(`StandsDocument.operation`), and so do all schemas at any depth (`StandsDocument.schema`). On the
way there are the fields of the records of a description, each with the member that sets it.
`Operation.lists_responses` says that the responses of an operation are in the order of the text.
-/

set_option autoImplicit false

namespace Protoscribe.OpenApi

open Json (Written Cursor Result)

variable {α : Type} {root : Written} {role : Role}

/-! ### The fields of the records -/

/-- The parameters of an operation are read from its member of this name. -/
theorem Operation.field_parameters : Cursor.Field Operation.members "parameters" (·.parameters)
    (Cursor.list (node (m := Result) Parameter.ofValue?)) where
  sets := ⟨_, rfl, fun _ _ => rfl⟩
  keeps := by simp [Operation.members]

/-- The request body of an operation is read from its member of this name. -/
theorem Operation.field_requestBody : Cursor.Field Operation.members "requestBody" (·.requestBody)
    (Cursor.optional (node (m := Result) RequestBody.ofValue?)) where
  sets := ⟨_, rfl, fun _ _ => rfl⟩
  keeps := by simp [Operation.members]

/-- The responses of an operation are read from its member of this name, in the order of the
text. -/
theorem Operation.field_responses : Cursor.Field Operation.members "responses" (·.responses)
    (Cursor.entries .orderedMap (node (m := Result) Response.ofValue?)) where
  sets := ⟨_, rfl, fun _ _ => rfl⟩
  keeps := by simp [Operation.members]

/-- The parameters of a path are read from its member of this name. -/
theorem PathItem.field_parameters : Cursor.Field PathItem.members "parameters" (·.parameters)
    (Cursor.list (node (m := Result) Parameter.ofValue?)) where
  sets := ⟨_, rfl, fun _ _ => rfl⟩
  keeps := by simp [PathItem.members]

/-- The operation under a verb is read from the member named after the verb. -/
theorem PathItem.field_operation (verb : Verb) : Cursor.Field PathItem.members verb.name
    (·.operation? verb) (Cursor.optional (Operation.read (m := Result))) where
  sets := by cases verb <;> exact ⟨_, rfl, fun _ _ => rfl⟩
  keeps := by cases verb <;> simp [PathItem.members, Verb.name, PathItem.operation?]

/-- The schemas are read from the member of this name, and sorted. -/
theorem Components.field_schemas : Cursor.Field Components.members "schemas" (·.schemas)
    (table (Source.interpreted (m := Result) SchemaNode.ofValue?)) where
  sets := ⟨_, rfl, fun _ _ => rfl⟩
  keeps := by simp [Components.members]

/-- The shared parameters are read from the member of this name, and sorted. -/
theorem Components.field_parameters : Cursor.Field Components.members "parameters" (·.parameters)
    (table (node (m := Result) Parameter.ofValue?)) where
  sets := ⟨_, rfl, fun _ _ => rfl⟩
  keeps := by simp [Components.members]

/-- The shared request bodies are read from the member of this name, and sorted. -/
theorem Components.field_requestBodies : Cursor.Field Components.members "requestBodies"
    (·.requestBodies) (table (node (m := Result) RequestBody.ofValue?)) where
  sets := ⟨_, rfl, fun _ _ => rfl⟩
  keeps := by simp [Components.members]

/-- The shared responses are read from the member of this name, and sorted. -/
theorem Components.field_responses : Cursor.Field Components.members "responses" (·.responses)
    (table (node (m := Result) Response.ofValue?)) where
  sets := ⟨_, rfl, fun _ _ => rfl⟩
  keeps := by simp [Components.members]

/-- The paths are read from the member of this name, and sorted. -/
theorem Document.field_paths : Cursor.Field Document.members "paths" (·.paths)
    (table (PathItem.read (m := Result))) where
  sets := ⟨_, rfl, fun _ _ => rfl⟩
  keeps := by simp [Document.members]

/-- The components are read from the member of this name. -/
theorem Document.field_components : Cursor.Field Document.members "components" (·.components)
    (Components.read (m := Result)) where
  sets := ⟨_, rfl, fun _ _ => rfl⟩
  keeps := by simp [Document.members]

/-- A schema stands somewhere in a description. -/
inductive Document.Holds (document : Document) : SchemaNode → Prop
  | component {entry : String × SchemaNode} (h : entry ∈ document.components.schemas.entries) :
      Holds document entry.2
  | parameter {parameter : Parameter} {schema : SchemaNode}
      (h : .inline parameter ∈ document.parameters) (hschema : parameter.schema = some schema) :
      Holds document schema
  | requestBody {body : RequestBody} {entry : String × MediaType} {schema : SchemaNode}
      (h : .inline body ∈ document.requestBodies) (hentry : entry ∈ body.content.entries)
      (hschema : entry.2.schema = some schema) : Holds document schema
  | response {response : Response} {entry : String × MediaType} {schema : SchemaNode}
      (h : .inline response ∈ document.responses) (hentry : entry ∈ response.content.entries)
      (hschema : entry.2.schema = some schema) : Holds document schema
  | inside {schema : Schema} {node : SchemaNode} (h : Holds document (.inline schema))
      (hnode : node ∈ schema.shape.nodes) : Holds document node

/-- The description that is read of a whole text. -/
abbrev StandsDocument (root : Written) (document : Document) : Prop :=
  Stands root .document (Document.read (m := Result)) document

variable {document : Document}

namespace StandsDocument

/-- Every path stands in the text. -/
theorem pathItem (hroot : root.WellFormed) (h : StandsDocument root document)
    {entry : String × PathItem} (hentry : entry ∈ document.paths.entries) :
    Stands root .pathItem (PathItem.read (m := Result)) entry.2 := by
  rcases h.of_field hroot rfl (by decide) Document.field_paths with hnone | hpaths
  · rw [hnone] at hentry
    cases hentry
  · exact hpaths.of_table hroot hentry

/-- Every operation stands in the text, inside its path. -/
theorem operation (hroot : root.WellFormed) (h : StandsDocument root document)
    {operation : Operation} (hoperation : operation ∈ document.operations) :
    Stands root .operation (Operation.read (m := Result)) operation := by
  obtain ⟨entry, hentry, hmem⟩ := List.mem_flatMap.mp hoperation
  obtain ⟨⟨verb, _⟩, hverb, rfl⟩ := List.mem_map.mp hmem
  obtain ⟨own, -, hown⟩ := List.mem_filterMap.mp hverb
  obtain ⟨_, hget, hsame⟩ := Option.map_eq_some_iff.mp hown
  cases hsame
  rcases (h.pathItem hroot hentry).of_field hroot rfl (by decide)
    (PathItem.field_operation verb) with hnone | hstands
  · rw [hget] at hnone
    cases verb <;> cases hnone
  · rw [hget] at hstands
    have hmember : Role.pathItem.member (some verb.name) = .operation := by cases verb <;> decide
    rw [hmember] at hstands
    exact hstands.of_optional

/-- The components stand in the text unless there are none. -/
theorem components (hroot : root.WellFormed) (h : StandsDocument root document) :
    document.components = {} ∨
      Stands root .components (Components.read (m := Result)) document.components :=
  h.of_field hroot rfl (by decide) Document.field_components

/-- A component stands in the text. -/
theorem component (hroot : root.WellFormed) (h : StandsDocument root document) {name : String}
    {read : Cursor → Result α} {get : Components → Table α}
    (hfield : Cursor.Field Components.members name get (table (m := Result) read))
    (hdefault : get {} = {}) (hmember : Role.components.member (some name) = .map role)
    {entry : String × α} (hentry : entry ∈ (get document.components).entries) :
    Stands root role read entry.2 := by
  rcases h.components hroot with hnone | hcomponents
  · rw [hnone, hdefault] at hentry
    cases hentry
  · rcases hcomponents.of_field hroot rfl (by decide) hfield with hnone | hstands
    · rw [hnone, hdefault] at hentry
      cases hentry
    · rw [hmember] at hstands
      exact hstands.of_table hroot hentry

/-- Every parameter stands in the text: among the components, in a path or in an operation. -/
theorem parameter (hroot : root.WellFormed) (h : StandsDocument root document)
    {parameter : Referable Parameter} (hparameter : parameter ∈ document.parameters) :
    Stands root .parameter (node (m := Result) Parameter.ofValue?) parameter := by
  simp only [Document.parameters, List.mem_append] at hparameter
  rcases hparameter with (hcomponent | hshared) | hown
  · obtain ⟨entry, hentry, rfl⟩ := List.mem_map.mp hcomponent
    exact h.component hroot Components.field_parameters rfl rfl hentry
  · obtain ⟨entry, hentry, hparameter⟩ := List.mem_flatMap.mp hshared
    rcases (h.pathItem hroot hentry).of_field hroot rfl (by decide) PathItem.field_parameters with
      hnone | hstands
    · rw [hnone] at hparameter
      cases hparameter
    · exact hstands.of_list hroot hparameter
  · obtain ⟨operation, hoperation, hparameter⟩ := List.mem_flatMap.mp hown
    rcases (h.operation hroot hoperation).of_field hroot rfl (by decide)
      Operation.field_parameters with hnone | hstands
    · rw [hnone] at hparameter
      cases hparameter
    · exact hstands.of_list hroot hparameter

/-- Every request body stands in the text: among the components or in an operation. -/
theorem requestBody (hroot : root.WellFormed) (h : StandsDocument root document)
    {body : Referable RequestBody} (hbody : body ∈ document.requestBodies) :
    Stands root .requestBody (node (m := Result) RequestBody.ofValue?) body := by
  simp only [Document.requestBodies, List.mem_append] at hbody
  rcases hbody with hcomponent | hown
  · obtain ⟨entry, hentry, rfl⟩ := List.mem_map.mp hcomponent
    exact h.component hroot Components.field_requestBodies rfl rfl hentry
  · obtain ⟨operation, hoperation, hbody⟩ := List.mem_filterMap.mp hown
    rcases (h.operation hroot hoperation).of_field hroot rfl (by decide)
      Operation.field_requestBody with hnone | hstands
    · rw [hbody] at hnone
      cases hnone
    · rw [hbody] at hstands
      exact hstands.of_optional

/-- Every response stands in the text: among the components or in an operation. -/
theorem response (hroot : root.WellFormed) (h : StandsDocument root document)
    {response : Referable Response} (hresponse : response ∈ document.responses) :
    Stands root .response (node (m := Result) Response.ofValue?) response := by
  simp only [Document.responses, List.mem_append] at hresponse
  rcases hresponse with hcomponent | hown
  · obtain ⟨entry, hentry, rfl⟩ := List.mem_map.mp hcomponent
    exact h.component hroot Components.field_responses rfl rfl hentry
  · obtain ⟨operation, hoperation, hresponse⟩ := List.mem_flatMap.mp hown
    obtain ⟨entry, hentry, rfl⟩ := List.mem_map.mp hresponse
    rcases (h.operation hroot hoperation).of_field hroot rfl (by decide)
      Operation.field_responses with hnone | hstands
    · rw [hnone] at hentry
      cases hentry
    · exact hstands.of_ordered hroot hentry

/-- Every schema of a description stands in its text. -/
theorem schema (hroot : root.WellFormed) (h : StandsDocument root document) {node : SchemaNode}
    (hnode : document.Holds node) : StandsSchema root node := by
  induction hnode with
  | component hentry => exact h.component hroot Components.field_schemas rfl rfl hentry
  | parameter hparameter hschema =>
    exact (h.parameter hroot hparameter).parameter_schema hroot hschema
  | requestBody hbody hentry hschema =>
    exact (h.requestBody hroot hbody).requestBody_schema hroot hentry hschema
  | response hresponse hentry hschema =>
    exact (h.response hroot hresponse).response_schema hroot hentry hschema
  | inside _ hnode ih => exact StandsSchema.below hroot ih hnode

end StandsDocument

/-- The responses of an operation are read from the members of the object under `responses`. -/
theorem Operation.lists_responses {part : Written} (hpart : part.WellFormed) {room : Nat}
    {operation : Operation}
    (h : Operation.read (m := Result) (⟨room, part.tree⟩ : Cursor) = .ok operation) :
    Lists (node (m := Result) Response.ofValue?) (membersUnder .operation "responses" part)
      operation.responses := by
  have hnames : (Operation.members : List (Member Cursor Result Operation)).map (·.name) =
      Role.operation.names := rfl
  have hget := Operation.field_responses.get_eq (by decide) hpart h
  rw [hnames] at hget
  rw [membersUnder]
  cases hown : part.member? Role.operation.names "responses" with
  | none =>
    rw [hown] at hget
    rw [hget]
    exact ⟨0, .nil⟩
  | some own =>
    rw [hown] at hget
    obtain ⟨inner, hentries⟩ := hget
    exact lists_of_entries (hpart.of_member? hown) hentries

end Protoscribe.OpenApi
