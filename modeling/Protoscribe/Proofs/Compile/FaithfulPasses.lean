import Protoscribe.Proofs.Compile.Faithful
import Protoscribe.Proofs.Compile.Passes

/-!
# `Protoscribe.Proofs.Compile.FaithfulPasses`: what the two passes may report and import

The passes over components and operations make calls about schemas that stand in the description:
those of components, and those of parameters, request bodies and responses, behind however many
references from one to another. So they are faithful when the engine is. As for imports, compiling a
payload adds nothing to what the engine imports, and only when a method is finished do the empty
message and the option for REST mappings come in.
-/

set_option autoImplicit false

namespace Protoscribe.Compile

open OpenApi (Document Operation Parameter PathItem Referable RequestBody Response SchemaNode Verb)

section

variable {job : Job} {files : List String} {engine : Engine}

/-! ### Payloads -/

/-- The field of a parameter is compiled faithfully if the parameter stands in the description. -/
theorem addParameterField_faithful (h : engine.Faithful job files) (request : MessageDraft)
    {parameter : Parameter} (hparameter : .inline parameter ∈ job.document.parameters) :
    Faithful job.document files (engine.addParameterField job request parameter) := by
  unfold Engine.addParameterField
  split
  · exact .pure _
  · split
    · exact .bind .place fun _ => .bind (.warn _) fun _ => .pure _
    · rename_i schema hschema
      exact (addMember_faithful h _ _ (.parameter hparameter hschema) _ _).within _

/-- A chain of parameters is reported at the reference that leads nowhere. -/
theorem followParameter_faithful {node : Referable Parameter}
    (hnode : node ∈ job.document.parameters) :
    Faithful job.document files (followParameter job node) :=
  follow_faithful rfl (P := (· ∈ job.document.parameters)) id Document.mem_parameters_of_find? hnode

/-- A parameter that is found stands in the description. -/
theorem mem_parameters_of_followParameter {node : Referable Parameter} {parameter : Parameter}
    {s t : State} (hnode : node ∈ job.document.parameters)
    (h : followParameter job node s = .ok parameter t) :
    .inline parameter ∈ job.document.parameters :=
  (leadsTo_of_followFrom h).keeps (P := (· ∈ job.document.parameters)) hnode
    Document.mem_parameters_of_find?

/-- The parameters of an operation are compiled faithfully. -/
theorem addParameters_faithful (h : engine.Faithful job files) {path : String} {item : PathItem}
    {verb : Verb} {operation : Operation} (hitem : (path, item) ∈ job.document.paths.entries)
    (hoperation : (verb, operation) ∈ item.operations) (request : MessageDraft) :
    Faithful job.document files (engine.addParameters job item operation request) := by
  have hstands {node : Referable Parameter}
      (hnode : node ∈ item.parameters ∨ node ∈ operation.parameters) :
      node ∈ job.document.parameters :=
    Document.mem_parameters_of_operation hitem (Document.mem_operations hitem hoperation) hnode
  refine .bind (.foldlM (fun node hnode request => ?_) _) fun _ =>
    .foldlM (fun node hnode request => ?_) _
  · have hnode := hstands (.inl hnode)
    refine .bind_of_result (followParameter_faithful hnode) fun hfollow => ?_
    split
    · exact .pure _
    · exact addParameterField_faithful h _ (mem_parameters_of_followParameter hnode hfollow)
  · have hnode := hstands (.inr hnode)
    exact .bind_of_result (followParameter_faithful hnode) fun hfollow =>
      addParameterField_faithful h _ (mem_parameters_of_followParameter hnode hfollow)

/-- The field of a body is compiled faithfully if its schema stands in the description. -/
theorem addPayload_faithful (h : engine.Faithful job files) (message : MessageDraft)
    (field : String) {payload : SchemaNode} (hpayload : Stands job.document payload)
    (required : Bool) :
    Faithful job.document files (engine.addPayload job message field payload required) := by
  cases payload with
  | ref reference =>
    show Faithful job.document files
      (addMember engine job message field (.ref reference) required none)
    exact addMember_faithful h message field hpayload required none
  | inline schema =>
    show Faithful job.document files (if schema.isObject then _ else _)
    split
    · refine .bind (h.schema _ hpayload) fun compiled => ?_
      cases compiled <;> exact .pure _
    · exact addMember_faithful h _ _ hpayload _ _

/-- The request body of an operation is found faithfully. -/
theorem bodySchema_faithful {operation : Operation}
    (hoperation : operation ∈ job.document.operations) :
    Faithful job.document files (bodySchema job operation) := by
  unfold bodySchema
  split
  · exact .pure _
  · rename_i body hbody
    exact .bind (followBody_faithful
      (Document.mem_requestBodies_of_operation hoperation hbody)) fun _ => .pure _

/-- The schema of a body stands in the description. -/
theorem stands_of_bodySchema {operation : Operation}
    (hoperation : operation ∈ job.document.operations) {schema : SchemaNode} {required : Bool}
    {s t : State} (h : bodySchema job operation s = .ok (some (schema, required)) t) :
    Stands job.document schema := by
  obtain ⟨body, ⟨definition, hdefinition, hleads⟩, hschema, -⟩ := bodyOf_of_bodySchema h
  have hbody := hleads.keeps (P := (· ∈ job.document.requestBodies))
    (Document.mem_requestBodies_of_operation hoperation hdefinition)
    Document.mem_requestBodies_of_find?
  exact .of_jsonSchema hbody hschema

/-- The response of an operation is found faithfully. -/
theorem successResponse_faithful {operation : Operation}
    (hoperation : operation ∈ job.document.operations) :
    Faithful job.document files (successResponse job operation) := by
  unfold successResponse
  split
  · exact .pure _
  · rename_i response hresponse
    exact (follow_faithful rfl (P := (· ∈ job.document.responses)) id
      Document.mem_responses_of_find?
      (Document.mem_responses_of_operation hoperation hresponse)).map _

/-- The schema of a response stands in the description. -/
theorem stands_of_successResponse {operation : Operation}
    (hoperation : operation ∈ job.document.operations) {response : Response} {schema : SchemaNode}
    {s t : State} (h : successResponse job operation s = .ok (some response) t)
    (hschema : response.content.jsonSchema? = some schema) : Stands job.document schema := by
  obtain ⟨definition, hdefinition, hleads⟩ := (successOf_iff h response).mpr rfl
  have hresponse := hleads.keeps (P := (· ∈ job.document.responses))
    (Document.mem_responses_of_operation hoperation hdefinition) Document.mem_responses_of_find?
  obtain ⟨⟨_⟩, hmedia, rfl⟩ := Option.bind_eq_some_iff.mp hschema
  exact .response hresponse (Table.find?_eq_some_iff.mp hmedia)

/-- A response message is compiled faithfully. -/
theorem compileResponse_faithful (h : engine.Faithful job files) (name : String)
    {operation : Operation} (hoperation : operation ∈ job.document.operations) :
    Faithful job.document files (engine.compileResponse job name operation) := by
  refine .bind_of_result (successResponse_faithful hoperation) fun hsuccess => ?_
  split
  · exact .pure _
  · rename_i response
    dsimp only
    split
    · exact .pure _
    · rename_i schema hschema
      have hstands := stands_of_successResponse hoperation hsuccess hschema
      exact (addPayload_faithful h _ _ hstands _).within _

/-- The messages of a method are compiled faithfully. -/
theorem payloads_faithful (h : engine.Faithful job files) (name : String) {path : String}
    {item : PathItem} {verb : Verb} {operation : Operation}
    (hitem : (path, item) ∈ job.document.paths.entries)
    (hoperation : (verb, operation) ∈ item.operations) :
    Faithful job.document files (engine.payloads job name item operation) := by
  have hmem := Document.mem_operations hitem hoperation
  refine .bind (addParameters_faithful h hitem hoperation _) fun parameters =>
    .bind_of_result (bodySchema_faithful hmem) fun {body _ _} hbody => ?_
  -- the response comes last, with a body and without one
  have hresponse (request : MessageDraft) : Faithful job.document files
      (do
        let response ← engine.compileResponse job (name ++ "Response") operation
        pure (body.isSome, request, response)) :=
    .bind (compileResponse_faithful h _ hmem) fun _ => .pure _
  cases body with
  | none => exact .bind (.pure _) fun _ => hresponse _
  | some body =>
    have hstands := stands_of_bodySchema hmem hbody
    exact .bind ((addPayload_faithful h _ _ hstands _).within _) fun _ => hresponse _

/-! ### Methods -/

/-- Naming the type of a payload imports the file of the empty message at most. -/
theorem payloadType_faithful (hempty : emptyFile ∈ files) (message : MessageDraft) :
    Faithful job.document files (payloadType message) := by
  have hadd : Faithful job.document files (updateFile (·.addMessage message)) :=
    .changing fun s => congrArg Table.keys (s.file.dependencies_addMessage message)
  unfold payloadType
  split
  · exact .bind (.addDependency hempty) fun _ => .pure _
  · refine .bind .read fun state => ?_
    dsimp only
    split
    · exact .bind (.warn _) fun _ => .bind hadd fun _ => .pure _
    · exact .bind hadd fun _ => .pure _

/-- A method imports the file of the annotations only if it is annotated. -/
theorem finishMethod_faithful (hempty : emptyFile ∈ files)
    (hannotations : job.config.useAnnotation = true → annotationsFile ∈ files)
    (name path : String) (verb : Verb) (item : PathItem) (operation : Operation)
    (payloads : Bool × MessageDraft × MessageDraft) :
    Faithful job.document files (finishMethod job name path verb item operation payloads) := by
  refine .bind (payloadType_faithful hempty _) fun _ =>
    .bind (payloadType_faithful hempty _) fun _ => ?_
  dsimp only
  split
  · rename_i hannotated
    exact .bind (.addDependency (hannotations hannotated)) fun _ => .pure _
  · exact .pure _

/-- An operation is compiled faithfully. -/
theorem addOperation_faithful (h : engine.Faithful job files) (hempty : emptyFile ∈ files)
    (hannotations : job.config.useAnnotation = true → annotationsFile ∈ files) {path : String}
    {item : PathItem} {entry : Verb × Operation}
    (hitem : (path, item) ∈ job.document.paths.entries) (hentry : entry ∈ item.operations)
    (service : ServiceDraft) :
    Faithful job.document files (engine.addOperation job path item service entry) := by
  obtain ⟨verb, operation⟩ := entry
  have hmethod : Faithful job.document files
      (engine.payloads job (job.methodName path verb) item operation >>=
        finishMethod job (job.methodName path verb) path verb item operation) :=
    .bind (payloads_faithful h _ hitem hentry) fun _ =>
      finishMethod_faithful hempty hannotations _ _ _ _ _ _
  unfold Engine.addOperation
  dsimp only
  split
  · exact .pure _
  · split
    · exact .bind (.warn _) fun _ => .pure _
    · exact .bind (hmethod.under _) fun _ => .pure _

/-- The service is compiled faithfully. -/
theorem declareService_faithful (h : engine.Faithful job files) (hempty : emptyFile ∈ files)
    (hannotations : job.config.useAnnotation = true → annotationsFile ∈ files) :
    Faithful job.document files (engine.declareService job) := by
  refine .bind .read fun _ => .bind (.foldlM (fun entry hitem _ => .foldlM (fun _ hentry _ =>
    addOperation_faithful h hempty hannotations hitem hentry _) _) _) fun service => ?_
  split
  · exact .changing fun s => congrArg Table.keys (s.file.dependencies_addService service)
  · exact .pure _

/-! ### Components -/

/-- Keeping the names of the components reports and imports nothing. -/
theorem keepNames_faithful : Faithful job.document files (keepNames job) := by
  refine .changing fun s => congrArg Table.keys ?_
  show (List.foldl FileDraft.reserve s.file _).dependencies = s.file.dependencies
  obtain ⟨reserved, hreserved⟩ := foldl_reserve_eq
    ((job.document.components.schemas.keys ++ job.document.components.requestBodies.keys).map
      job.messageName) s.file
  rw [hreserved]

/-- The components are declared faithfully. -/
theorem declareComponents_faithful (h : engine.Faithful job files) :
    Faithful job.document files (engine.declareComponents job) :=
  .bind keepNames_faithful fun _ =>
    .bind (.forM fun _ hentry =>
      .bind (h.component (Table.find?_eq_some_iff.mpr hentry)) fun _ => .pure _) fun _ =>
    .forM fun _ hentry =>
      .bind (h.requestBody (Table.find?_eq_some_iff.mpr hentry)) fun _ => .pure _

/-- The whole run is faithful if it may import the files of the empty message and of the
annotations. -/
theorem compileDocument_faithful (h : engine.Faithful job files) (hempty : emptyFile ∈ files)
    (hannotations : job.config.useAnnotation = true → annotationsFile ∈ files) :
    Faithful job.document files (engine.compileDocument job) := by
  refine .bind (declareComponents_faithful h) fun _ => ?_
  split
  · exact declareService_faithful h hempty hannotations
  · exact .pure _

end

end Protoscribe.Compile
