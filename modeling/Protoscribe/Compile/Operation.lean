import Protoscribe.Compile.Levels
import Protoscribe.Text.Blank

/-!
# `Protoscribe.Compile.Operation`: from operations to methods

The file has one service with a method for each operation. The fields of the request message are
the parameters of the path, those of the operation, and the body; the payload of the response
with status 200 gives the response message. A payload that is an object lends its members to the
message, and any other one becomes a single field. A message without members gives way to the
empty type.
-/

set_option autoImplicit false

namespace Protoscribe.Compile

open OpenApi (Operation Parameter PathItem Referable RequestBody Response SchemaNode Verb)

/-- The type for a message without members. -/
def emptyMessage : String := "google.protobuf.Empty"

/-- The file that declares the empty type. -/
def emptyFile : String := "google/protobuf/empty.proto"

/-- The file that declares the option for REST mappings. -/
def annotationsFile : String := "google/api/annotations.proto"

/-- The part of a path before its first template. -/
def fixedPart : List Char → List Char
  | [] => []
  | '/' :: '\x7b' :: _ => []
  | c :: rest => c :: fixedPart rest

/-- What a method is named after, besides its verb. -/
def Job.baseName (job : Job) (path : String) : String :=
  let segments := (fixedPart path.toList).splitOn '/'
  String.join (segments.map fun segment => job.messageName (String.ofList segment))

/-- The name of the method for an operation. -/
def Job.methodName (job : Job) (path : String) (verb : Verb) : String :=
  job.messageName verb.name ++ job.baseName path

/-- A summary and a description, with a blank line between them. -/
def joinComments (summary description : Option String) : Option String :=
  let parts := ([summary, description].filterMap id).map Text.trimmed
  match parts.filter (!·.isEmpty) with
  | [] => none
  | parts => some ("\n\n".intercalate parts)

/-- Adds the field for a parameter. Only the path and the query have fields. -/
def addParameterField (job : Job) (request : MessageDraft) (parameter : Parameter) :
    M MessageDraft := do
  if parameter.location != "path" && parameter.location != "query" then return request
  match parameter.schema with
  | none => do
    warn (.parameterWithoutSchema (← place) parameter.name)
    pure request
  | some schema =>
    -- a path is not complete without its parameters, whatever they say
    let required := parameter.required || parameter.location == "path"
    within ("parameters." ++ parameter.name)
      (addMember job.engine job request parameter.name schema required parameter.description)

/-- Does an operation define a parameter of the same name and location? References do not
count. -/
def isOverridden (operation : Operation) (parameter : Parameter) : Bool :=
  operation.parameters.any fun node =>
    match node with
    | .inline own => own.name == parameter.name && own.location == parameter.location
    | .ref _ => false

/-- Follows the reference of a parameter. -/
def followParameter (job : Job) (node : Referable Parameter) : M Parameter :=
  follow .parameters job.document.components.parameters node

/-- Adds the members of a payload to a message: those of an object, or one field of the given
name. -/
def addPayload (job : Job) (message : MessageDraft) (field : String) (payload : SchemaNode)
    (required : Bool) : M MessageDraft := do
  match payload with
  | .inline schema =>
    if schema.isObject then
      match ← job.engine.schema message.name schema with
      | none => pure message
      | some compiled =>
        -- what is said about the payload goes before what the schema says
        pure (({ message with comment := message.comment <|> compiled.comment }).merge compiled)
    else addMember job.engine job message field payload required none
  | .ref _ => addMember job.engine job message field payload required none

/-- Adds the parameters of the path and of the operation. -/
def addParameters (job : Job) (item : PathItem) (operation : Operation) (request : MessageDraft) :
    M MessageDraft := do
  -- the operation's own parameters come behind those that it shares with the path
  let shared ← item.parameters.foldlM
    (fun request node => do
      let parameter ← followParameter job node
      if isOverridden operation parameter then pure request
      else addParameterField job request parameter)
    request
  operation.parameters.foldlM
    (fun request node => do addParameterField job request (← followParameter job node)) shared

/-- The schema of the JSON body of an operation, and whether the body is required. -/
def bodySchema (job : Job) (operation : Operation) : M (Option (SchemaNode × Bool)) := do
  match operation.requestBody with
  | none => pure none
  | some node =>
    let body ← follow .requestBodies job.document.components.requestBodies node
    pure (body.content.jsonSchema?.map fun schema => (schema, body.required))

/-- The response of an operation that the response message is made from. -/
def successResponse (job : Job) (operation : Operation) : M (Option Response) := do
  match operation.response? "200" with
  | none => pure none
  | some node => some <$> follow .responses job.document.components.responses node

/-- The response message of a method. -/
def compileResponse (job : Job) (name : String) (operation : Operation) : M MessageDraft := do
  let start : MessageDraft := { name }
  match ← successResponse job operation with
  | none => pure start
  | some response =>
    let described := { start with comment := response.description }
    match response.content.jsonSchema? with
    | none => pure described
    | some schema => within "responses.200" (addPayload job described "result" schema true)

/-- Declares the request or response message of a method and gives its type. -/
def payloadType (message : MessageDraft) : M String := do
  if message.isEmpty then
    updateFile (·.addDependency emptyFile)
    return emptyMessage
  -- a message that is there already stays, and the method refers to it
  if (← get).file.hasType message.name then warn (.reusedMessage message.name)
  updateFile (·.addMessage message)
  pure message.name

/-- The method for an operation. -/
def methodFor (job : Job) (name path : String) (verb : Verb) (item : PathItem)
    (operation : Operation) : M MethodDraft := do
  let parameters ← addParameters job item operation { name := name ++ "Request" }
  let body ← bodySchema job operation
  let request ←
    match body with
    | none => pure parameters
    | some (schema, required) =>
      within "requestBody" (addPayload job parameters "body" schema required)
  let response ← compileResponse job (name ++ "Response") operation
  -- both messages are compiled before the first one is declared
  let inputType ← payloadType request
  let outputType ← payloadType response
  let comment :=
    joinComments operation.summary operation.description <|>
      joinComments item.summary item.description
  let method : MethodDraft :=
    { name, inputType, outputType, comment, deprecated := operation.deprecated }
  if job.config.useAnnotation then
    updateFile (·.addDependency annotationsFile)
    let rule := HttpRule.ofOperation verb.name path (if body.isSome then "*" else "")
    pure { method with http := some rule }
  else pure method

/-- Adds the method for an operation to the service. Of equal names the first stays. -/
def addOperation (job : Job) (path : String) (item : PathItem) (service : ServiceDraft)
    (entry : Verb × Operation) : M ServiceDraft := do
  let (verb, operation) := entry
  if operation.deprecated && job.config.skipDeprecatedRpc then return service
  let name := job.methodName path verb
  -- paths that differ behind a template may give one name
  if service.hasMethod name then
    warn (.repeatedMethod path verb.name name)
    return service
  let method ←
    under ["paths", path, verb.name] (methodFor job name path verb item operation)
  pure (service.addMethod method)

/-- The last segment of a package. -/
def lastPart (package : String) : String :=
  String.ofList (((package.toList.splitOn '.').getLast?).getD [])

/-- Declares the service, unless it has no method. -/
def declareService (job : Job) : M Unit := do
  let name := job.messageName (lastPart (← get).file.package) ++ "Service"
  let service ← job.document.paths.entries.foldlM
    (fun service entry =>
      entry.2.operations.foldlM (addOperation job entry.1 entry.2) service)
    ({ name } : ServiceDraft)
  if !service.methods.isEmpty then updateFile (·.addService service)

end Protoscribe.Compile
