import Protoscribe.Proofs.Compile.Interruption

/-!
# `Protoscribe.Proofs.Compile.Passes`: the two passes over any engine

The functions that compile components and operations call the engine of the job. Here they take the
engine as an argument, so that a whole compilation can be run over an engine that breaks off calls.
Over the engine of the job they are the functions themselves (`Engine.compileDocument_eq`).

The messages of a method are compiled before the first one is declared, and what comes behind cannot
fail. So an operation has two parts: `Engine.payloads` makes all the calls, and `finishMethod` makes
none.
-/

set_option autoImplicit false

namespace Protoscribe.Compile

open OpenApi (Operation Parameter PathItem Referable SchemaNode Verb)

namespace Engine

variable (self : Engine) (job : Job)

/-- Adds the field for a parameter. -/
def addParameterField (request : MessageDraft) (parameter : Parameter) : M MessageDraft := do
  if parameter.location != "path" && parameter.location != "query" then return request
  match parameter.schema with
  | none => do
    warn (.parameterWithoutSchema (← place) parameter.name)
    pure request
  | some schema =>
    let required := parameter.required || parameter.location == "path"
    within ("parameters." ++ parameter.name)
      (addMember self job request parameter.name schema required parameter.description)

/-- Adds the parameters of the path and of the operation. -/
def addParameters (item : PathItem) (operation : Operation) (request : MessageDraft) :
    M MessageDraft := do
  let shared ← item.parameters.foldlM
    (fun request node => do
      let parameter ← followParameter job node
      if isOverridden operation parameter then pure request
      else self.addParameterField job request parameter)
    request
  operation.parameters.foldlM
    (fun request node => do self.addParameterField job request (← followParameter job node)) shared

/-- Adds the members of a payload to a message. -/
def addPayload (message : MessageDraft) (field : String) (payload : SchemaNode)
    (required : Bool) : M MessageDraft := do
  match payload with
  | .inline schema =>
    if schema.isObject then
      match ← self.schema message.name schema with
      | none => pure message
      | some compiled =>
        pure (({ message with comment := message.comment <|> compiled.comment }).merge compiled)
    else addMember self job message field payload required none
  | .ref _ => addMember self job message field payload required none

/-- The response message of a method. -/
def compileResponse (name : String) (operation : Operation) : M MessageDraft := do
  let start : MessageDraft := { name }
  match ← successResponse job operation with
  | none => pure start
  | some response =>
    let described := { start with comment := response.description }
    match response.content.jsonSchema? with
    | none => pure described
    | some schema => within "responses.200" (self.addPayload job described "result" schema true)

/-- Both messages of a method, and whether there is a schema for the body. -/
def payloads (name : String) (item : PathItem) (operation : Operation) :
    M (Bool × MessageDraft × MessageDraft) := do
  let parameters ← self.addParameters job item operation { name := name ++ "Request" }
  let body ← bodySchema job operation
  let request ←
    match body with
    | none => pure parameters
    | some (schema, required) =>
      within "requestBody" (self.addPayload job parameters "body" schema required)
  let response ← self.compileResponse job (name ++ "Response") operation
  pure (body.isSome, request, response)

end Engine

/-- Declares the messages of a method and makes the method. -/
def finishMethod (job : Job) (name path : String) (verb : Verb) (item : PathItem)
    (operation : Operation) (payloads : Bool × MessageDraft × MessageDraft) : M MethodDraft := do
  let (hasBody, request, response) := payloads
  let inputType ← payloadType request
  let outputType ← payloadType response
  let comment :=
    joinComments operation.summary operation.description <|>
      joinComments item.summary item.description
  let method : MethodDraft :=
    { name, inputType, outputType, comment, deprecated := operation.deprecated }
  if job.config.useAnnotation then
    updateFile (·.addDependency annotationsFile)
    let rule := HttpRule.ofOperation verb.name path (if hasBody then "*" else "")
    pure { method with http := some rule }
  else pure method

namespace Engine

variable (self : Engine) (job : Job)

/-- Adds the method for an operation to the service. -/
def addOperation (path : String) (item : PathItem) (service : ServiceDraft)
    (entry : Verb × Operation) : M ServiceDraft := do
  let (verb, operation) := entry
  if operation.deprecated && job.config.skipDeprecatedRpc then return service
  let name := job.methodName path verb
  if service.hasMethod name then
    warn (.repeatedMethod path verb.name name)
    return service
  let method ←
    under ["paths", path, verb.name]
      (self.payloads job name item operation >>= finishMethod job name path verb item operation)
  pure (service.addMethod method)

/-- Declares the service. -/
def declareService : M Unit := do
  let name := job.messageName (lastPart (← get).file.package) ++ "Service"
  let service ← job.document.paths.entries.foldlM
    (fun service entry =>
      entry.2.operations.foldlM (self.addOperation job entry.1 entry.2) service)
    ({ name } : ServiceDraft)
  if !service.methods.isEmpty then updateFile (·.addService service)

/-- Declares all components. -/
def declareComponents : M Unit := do
  keepNames job
  job.document.components.schemas.entries.forM fun entry => do
    let _ ← self.component entry.1 entry.2
  job.document.components.requestBodies.entries.forM fun entry => do
    let _ ← self.requestBody entry.1 entry.2

/-- Fills the file. -/
def compileDocument : M Unit := do
  self.declareComponents job
  if !job.config.skipRpc then self.declareService job

end Engine

/-! ### The engine of the job -/

/-- A method is made of its payloads. -/
theorem methodFor_eq (job : Job) (name path : String) (verb : Verb) (item : PathItem)
    (operation : Operation) :
    methodFor job name path verb item operation =
      job.engine.payloads job name item operation >>=
        finishMethod job name path verb item operation := by
  unfold methodFor Engine.payloads
  simp only [bind_assoc, pure_bind]
  refine bind_congr fun parameters => bind_congr fun body => ?_
  cases body with
  | none => simp only [bind_assoc, pure_bind]; rfl
  | some body => simp only [bind_assoc, pure_bind]; rfl

/-- Over the engine of the job, an operation is added as it is in a run. -/
theorem Engine.addOperation_eq (job : Job) :
    job.engine.addOperation job = Compile.addOperation job := by
  funext path item service entry
  unfold Engine.addOperation Compile.addOperation
  simp only [methodFor_eq]

/-- Over the engine of the job, the service is declared as it is in a run. -/
theorem Engine.declareService_eq (job : Job) :
    job.engine.declareService job = Compile.declareService job := by
  unfold Engine.declareService Compile.declareService
  rw [Engine.addOperation_eq]

/-- Over its own engine, a job runs as it does without one. -/
theorem Engine.compileDocument_eq (job : Job) :
    job.engine.compileDocument job = Compile.compileDocument job := by
  unfold Engine.compileDocument Compile.compileDocument
  rw [Engine.declareService_eq]
  rfl

/-! ### Payloads over an engine that breaks off calls -/

section

variable {job : Job} {progress : Progress} {cut full : Engine}

/-- The field of a parameter may be broken off in its schema. -/
theorem addParameterField_interrupts (h : cut.Interrupts job progress full)
    (request : MessageDraft) (parameter : Parameter) :
    Interrupts progress (cut.addParameterField job request parameter)
      (full.addParameterField job request parameter) := by
  unfold Engine.addParameterField
  split
  · exact .pure _
  · split
    · exact .bind .place fun _ => .bind (.warn _) fun _ => .pure _
    · exact (addMember_interrupts h _ _ _ _ _).within _

/-- The parameters of an operation may be broken off in any of them. -/
theorem addParameters_interrupts (h : cut.Interrupts job progress full) (item : PathItem)
    (operation : Operation) (request : MessageDraft) :
    Interrupts progress (cut.addParameters job item operation request)
      (full.addParameters job item operation request) := by
  refine .bind (.foldlM (fun node _ request => ?_) _) fun shared =>
    .foldlM (fun node _ request => ?_) _
  · refine .bind (followFrom_interrupts _) fun parameter => ?_
    split
    · exact .pure _
    · exact addParameterField_interrupts h _ _
  · exact .bind (followFrom_interrupts _) fun _ => addParameterField_interrupts h _ _

/-- The field of a body may be broken off in its schema. -/
theorem addPayload_interrupts (h : cut.Interrupts job progress full) (message : MessageDraft)
    (field : String) (payload : SchemaNode) (required : Bool) :
    Interrupts progress (cut.addPayload job message field payload required)
      (full.addPayload job message field payload required) := by
  cases payload with
  | ref reference => exact addMember_interrupts h message field (.ref reference) required none
  | inline schema =>
    show Interrupts progress (if schema.isObject then _ else _) (if schema.isObject then _ else _)
    split
    · refine .bind (h.schema _ _) fun compiled => ?_
      cases compiled <;> exact .pure _
    · exact addMember_interrupts h _ _ _ _ _

/-- The request body is found without a change of the state. -/
theorem bodySchema_interrupts (operation : Operation) :
    Interrupts progress (bodySchema job operation) (bodySchema job operation) := by
  unfold bodySchema
  split
  · exact .pure _
  · exact .bind (followFrom_interrupts _) fun _ => .pure _

/-- The response is found without a change of the state. -/
theorem successResponse_interrupts (operation : Operation) :
    Interrupts progress (successResponse job operation) (successResponse job operation) := by
  unfold successResponse
  split
  · exact .pure _
  · exact (followFrom_interrupts _).map _

/-- A response message may be broken off in its schema. -/
theorem compileResponse_interrupts (h : cut.Interrupts job progress full) (name : String)
    (operation : Operation) :
    Interrupts progress (cut.compileResponse job name operation)
      (full.compileResponse job name operation) := by
  refine .bind (successResponse_interrupts _) fun response => ?_
  split
  · exact .pure _
  · dsimp only
    split
    · exact .pure _
    · exact (addPayload_interrupts h _ _ _ _).within _

/-- The messages of a method may be broken off, first the request and then the response. -/
theorem payloads_interrupts (h : cut.Interrupts job progress full) (name : String)
    (item : PathItem) (operation : Operation) :
    Interrupts progress (cut.payloads job name item operation)
      (full.payloads job name item operation) := by
  refine .bind (addParameters_interrupts h _ _ _) fun parameters =>
    .bind (bodySchema_interrupts _) fun body => ?_
  have hresponse : ∀ request : MessageDraft, Interrupts progress
      (do
        let response ← cut.compileResponse job (name ++ "Response") operation
        pure (body.isSome, request, response))
      (do
        let response ← full.compileResponse job (name ++ "Response") operation
        pure (body.isSome, request, response)) := fun _ =>
    .bind (compileResponse_interrupts h _ _) fun _ => .pure _
  cases body with
  | none => exact .bind (.pure _) fun _ => hresponse _
  | some body => exact .bind ((addPayload_interrupts h _ _ _ _).within _) fun _ => hresponse _

end

end Protoscribe.Compile
