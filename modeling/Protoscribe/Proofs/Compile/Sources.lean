import Protoscribe.Proofs.Compile.Derivation
import Protoscribe.Proofs.Compile.Served

/-!
# `Protoscribe.Proofs.Compile.Sources`: where the messages of a file come from

A derivation may start from any schema under any name. The messages of a file come from schemas of
the description, under names that the description gives them (`Sourced`): a component goes under its
key, and the request and the response of an operation under the method name (`PayloadFrom`).

A request is put together from the members that its operation asks for. The parameters become slots
of the message, first those of the path and then those of the operation (`ParameterSlots`), and the
body comes behind them. A body or a response that is an object lends its members to the message, and
any other one becomes a single field (`Lends`).

`AllSourced` says of a state that all its types have such sources. It names the endpoints whose
payloads may be there, since payloads come in one operation at a time.
-/

set_option autoImplicit false

namespace Protoscribe.Compile

open OpenApi (Document Endpoint Operation Parameter PathItem Referable RequestBody Response Schema
  SchemaNode Section Verb)

/-! ### References inside a section -/

/-- The definition that a node leads to, through references into one section. -/
inductive LeadsTo {α : Type} (part : Section) (table : Table (Referable α)) :
    Referable α → α → Prop
  | inline {item : α} : LeadsTo part table (.inline item) item
  | ref {reference key : String} {node : Referable α} {item : α}
      (hkey : part.key? reference = some key) (hnode : table.find? key = some node)
      (h : LeadsTo part table node item) : LeadsTo part table (.ref reference) item

/-- What a run of `follow` gives is where the node leads to. -/
theorem leadsTo_of_followFrom {α : Type} {part : Section} {table : Table (Referable α)} {fuel : Nat}
    {seen : List String} {node : Referable α} {item : α} {s s' : State}
    (h : followFrom part table fuel seen node s = .ok item s') : LeadsTo part table node item := by
  induction fuel generalizing seen node with
  | zero =>
    cases node with
    | inline value => exact (pure_eq_ok.mp h).1 ▸ .inline
    | ref reference => exact absurd h throw_ne_ok
  | succ fuel ih =>
    cases node with
    | inline value => exact (pure_eq_ok.mp h).1 ▸ .inline
    | ref reference =>
      obtain ⟨key, next, hkey, hnext, hrest⟩ := followFrom_ref_eq_ok h
      exact .ref hkey hnext (ih hrest)

/-- What holds for a node and for everything in the section holds where the node leads to. -/
theorem LeadsTo.keeps {α : Type} {part : Section} {table : Table (Referable α)}
    {P : Referable α → Prop} {node : Referable α} {item : α} (h : LeadsTo part table node item)
    (hnode : P node) (htable : ∀ {key target}, table.find? key = some target → P target) :
    P (.inline item) := by
  induction h with
  | inline => exact hnode
  | ref _ htarget _ ih => exact ih (htable htarget)

/-- References lead to one definition. -/
theorem LeadsTo.unique {α : Type} {part : Section} {table : Table (Referable α)}
    {node : Referable α} {item other : α} (h : LeadsTo part table node item)
    (hother : LeadsTo part table node other) : item = other := by
  induction h with
  | inline =>
    cases hother
    rfl
  | ref hkey hnode _ ih =>
    cases hother with
    | ref hkey' hnode' hother =>
      cases hkey.symm.trans hkey'
      cases hnode.symm.trans hnode'
      exact ih hother

/-! ### Parts of operations -/

/-- The slot for a parameter. Only parameters in the path and the query have one, and those in the
path have to be there whatever they say. -/
def parameterSlots (parameter : Parameter) : List (Slot × SchemaNode) :=
  match parameter.schema with
  | none => []
  | some node =>
    if parameter.location = "path" ∨ parameter.location = "query" then
      [(.property parameter.name (parameter.required || parameter.location == "path")
        parameter.description, node)]
    else []

/-- The slots for the parameters of an operation: those that it shares with its path, unless it
overrides them, and then its own. -/
inductive ParameterSlots (document : Document) (item : PathItem) (operation : Operation) :
    List (Slot × SchemaNode) → Prop
  | intro {shared own : List Parameter}
      (hshared : List.Forall₂ (LeadsTo .parameters document.components.parameters)
        item.parameters shared)
      (hown : List.Forall₂ (LeadsTo .parameters document.components.parameters)
        operation.parameters own) :
      ParameterSlots document item operation
        ((shared.flatMap fun parameter =>
          if isOverridden operation parameter then [] else parameterSlots parameter) ++
          own.flatMap parameterSlots)

/-- The body that the references of an operation lead to. -/
def BodyOf (document : Document) (operation : Operation) (body : RequestBody) : Prop :=
  ∃ definition, operation.requestBody = some definition ∧
    LeadsTo .requestBodies document.components.requestBodies definition body

/-- The response for success that the references of an operation lead to. -/
def SuccessOf (document : Document) (operation : Operation) (response : Response) : Prop :=
  ∃ definition, operation.response? "200" = some definition ∧
    LeadsTo .responses document.components.responses definition response

/-! ### Sources of messages -/

/-- What a payload makes of a message. An object lends its members, and what is said about the
payload goes before what the schema says; any other payload becomes one field of the given name. -/
inductive Lends (job : Job) (facts : Facts) (message : MessageDraft) (field : String)
    (required : Bool) : SchemaNode → MessageDraft → Prop
  | member {node : SchemaNode} {filled : MessageDraft}
      (hsingle : ∀ schema, node = .inline schema → schema.isObject = false)
      (hslot : Derives job facts (.slot message (.property field required none) node)
        (some filled)) : Lends job facts message field required node filled
  | nothing {schema : Schema} (hobject : schema.isObject = true)
      (hschema : Derives job facts (.schema message.name schema) none) :
      Lends job facts message field required (.inline schema) message
  | merged {schema : Schema} {compiled : MessageDraft} (hobject : schema.isObject = true)
      (hschema : Derives job facts (.schema message.name schema) (some compiled)) :
      Lends job facts message field required (.inline schema)
        (({ message with comment := message.comment <|> compiled.comment }).merge compiled)

/-- The request message of the given name for an operation under an item. -/
inductive RequestFrom (job : Job) (facts : Facts) (name : String) (item : PathItem)
    (operation : Operation) : MessageDraft → Prop
  | bodiless {entries : List (Slot × SchemaNode)} {request : MessageDraft}
      (hentries : ParameterSlots job.document item operation entries)
      (hslots : Derives job facts (.slots { name } entries) (some request))
      (hbody : ∀ body, BodyOf job.document operation body → body.content.jsonSchema? = none) :
      RequestFrom job facts name item operation request
  | body {entries : List (Slot × SchemaNode)} {parameters request : MessageDraft}
      {body : RequestBody} {node : SchemaNode}
      (hentries : ParameterSlots job.document item operation entries)
      (hslots : Derives job facts (.slots { name } entries) (some parameters))
      (hbody : BodyOf job.document operation body) (hschema : body.content.jsonSchema? = some node)
      (hlends : Lends job facts parameters "body" body.required node request) :
      RequestFrom job facts name item operation request

/-- The response message of the given name for an operation. -/
inductive ResponseFrom (job : Job) (facts : Facts) (name : String) (operation : Operation) :
    MessageDraft → Prop
  | bodiless (comment : Option String)
      (hresponse : ∀ response, SuccessOf job.document operation response →
        response.content.jsonSchema? = none) :
      ResponseFrom job facts name operation { name, comment }
  | body {response : Response} {node : SchemaNode} {message : MessageDraft}
      (hresponse : SuccessOf job.document operation response)
      (hschema : response.content.jsonSchema? = some node)
      (hlends : Lends job facts { name, comment := response.description } "result" true node
        message) : ResponseFrom job facts name operation message

/-- A request or response message of an endpoint of the description. -/
inductive PayloadFrom (job : Job) (facts : Facts) : Endpoint → MessageDraft → Prop
  | request {path : String} {item : PathItem} {verb : Verb} {operation : Operation}
      {draft : MessageDraft} (hitem : (path, item) ∈ job.document.paths.entries)
      (hoperation : (verb, operation) ∈ item.operations)
      (h : RequestFrom job facts (job.methodName path verb ++ "Request") item operation draft) :
      PayloadFrom job facts ⟨path, verb, operation⟩ draft
  | response {path : String} {item : PathItem} {verb : Verb} {operation : Operation}
      {draft : MessageDraft} (hitem : (path, item) ∈ job.document.paths.entries)
      (hoperation : (verb, operation) ∈ item.operations)
      (h : ResponseFrom job facts (job.methodName path verb ++ "Response") operation draft) :
      PayloadFrom job facts ⟨path, verb, operation⟩ draft

/-- A message comes from a schema component, from a request body component, or from the payload of
one of the endpoints that are given. -/
inductive Sourced (job : Job) (facts : Facts) (among : Endpoint → Prop) : MessageDraft → Prop
  | schema {key : String} {node : SchemaNode} {draft : MessageDraft}
      (hnode : job.document.components.schemas.find? key = some node)
      (h : Derives job facts (.node (job.messageName key) node) (some draft)) :
      Sourced job facts among draft
  | body {key : String} {definition : Referable RequestBody} {body : RequestBody} {schema : Schema}
      {draft : MessageDraft} (comment : Option String)
      (hdefinition : job.document.components.requestBodies.find? key = some definition)
      (hleads : LeadsTo .requestBodies job.document.components.requestBodies definition body)
      (hschema : body.content.jsonSchema? = some (.inline schema))
      (h : Derives job facts (.schema (job.messageName key) schema) (some draft)) :
      Sourced job facts among { draft with comment }
  | payload {endpoint : Endpoint} {draft : MessageDraft} (hamong : among endpoint)
      (h : PayloadFrom job facts endpoint draft) : Sourced job facts among draft

/-- All types of a state have sources, where payloads are those of the endpoints that are given. -/
structure AllSourced (job : Job) (among : Endpoint → Prop) (s : State) : Prop where
  messages : ∀ draft, .drafted draft ∈ s.file.messages → Sourced job s.facts among draft
  enums : ∀ enum ∈ s.file.enums, ∃ draft, Sourced job s.facts among draft ∧
    draft.carriedEnum? = some enum

section mono

variable {job : Job} {facts later : Facts} {among : Endpoint → Prop} {draft : MessageDraft}

/-- What a payload makes of a message stands when more becomes known. -/
theorem Lends.mono {message : MessageDraft} {field : String} {required : Bool} {node : SchemaNode}
    (h : Lends job facts message field required node draft) (hle : facts ≤ later) :
    Lends job later message field required node draft := by
  cases h with
  | member hsingle hslot => exact .member hsingle (hslot.mono hle)
  | nothing hobject hschema => exact .nothing hobject (hschema.mono hle)
  | merged hobject hschema => exact .merged hobject (hschema.mono hle)

/-- A request stands when more becomes known. -/
theorem RequestFrom.mono {name : String} {item : PathItem} {operation : Operation}
    (h : RequestFrom job facts name item operation draft) (hle : facts ≤ later) :
    RequestFrom job later name item operation draft := by
  cases h with
  | bodiless hentries hslots hbody => exact .bodiless hentries (hslots.mono hle) hbody
  | body hentries hslots hbody hschema hlends =>
    exact .body hentries (hslots.mono hle) hbody hschema (hlends.mono hle)

/-- A response stands when more becomes known. -/
theorem ResponseFrom.mono {name : String} {operation : Operation}
    (h : ResponseFrom job facts name operation draft) (hle : facts ≤ later) :
    ResponseFrom job later name operation draft := by
  cases h with
  | bodiless comment hresponse => exact .bodiless comment hresponse
  | body hresponse hschema hlends => exact .body hresponse hschema (hlends.mono hle)

/-- Where a payload comes from stays true later. -/
theorem PayloadFrom.mono {endpoint : Endpoint} (h : PayloadFrom job facts endpoint draft)
    (hle : facts ≤ later) : PayloadFrom job later endpoint draft := by
  cases h with
  | request hitem hoperation h => exact .request hitem hoperation (h.mono hle)
  | response hitem hoperation h => exact .response hitem hoperation (h.mono hle)

/-- A source stays one when more becomes known. -/
theorem Sourced.mono (h : Sourced job facts among draft) (hle : facts ≤ later) :
    Sourced job later among draft := by
  cases h with
  | schema hnode h => exact .schema hnode (h.mono hle)
  | body comment hdefinition hleads hschema h =>
    exact .body comment hdefinition hleads hschema (h.mono hle)
  | payload hamong h => exact .payload hamong (h.mono hle)

/-- More endpoints only allow for more sources. -/
theorem Sourced.imp {others : Endpoint → Prop} (h : Sourced job facts among draft)
    (himp : ∀ endpoint, among endpoint → others endpoint) : Sourced job facts others draft := by
  cases h with
  | schema hnode h => exact .schema hnode h
  | body comment hdefinition hleads hschema h => exact .body comment hdefinition hleads hschema h
  | payload hamong h => exact .payload (himp _ hamong) h

end mono

namespace AllSourced

variable {job : Job} {among : Endpoint → Prop} {s s' : State}

/-- More endpoints only allow for more sources. -/
theorem imp {others : Endpoint → Prop} (h : AllSourced job among s)
    (himp : ∀ endpoint, among endpoint → others endpoint) : AllSourced job others s where
  messages draft hdraft := (h.messages draft hdraft).imp himp
  enums enum henum := by
    obtain ⟨draft, hsourced, hcarried⟩ := h.enums enum henum
    exact ⟨draft, hsourced.imp himp, hcarried⟩

/-- New types of a later state have to have sources too. -/
theorem later (h : AllSourced job among s) (hle : s.facts ≤ s'.facts)
    (hmessages : ∀ message ∈ s'.file.messages, message ∈ s.file.messages ∨
      ∃ draft, message = .drafted draft ∧ Sourced job s.facts among draft)
    (henums : ∀ enum ∈ s'.file.enums, enum ∈ s.file.enums ∨
      ∃ draft, Sourced job s.facts among draft ∧ draft.carriedEnum? = some enum) :
    AllSourced job among s' := by
  constructor
  · intro draft hdraft
    rcases hmessages _ hdraft with hold | ⟨_, heq, hnew⟩
    · exact (h.messages draft hold).mono hle
    · cases heq
      exact hnew.mono hle
  · intro enum henum
    obtain ⟨draft, hsourced, hcarried⟩ := (henums enum henum).elim (h.enums enum) id
    exact ⟨draft, hsourced.mono hle, hcarried⟩

/-- Where the types stay the same, more may become known. -/
theorem of_same (h : AllSourced job among s) (hle : s.facts ≤ s'.facts)
    (hmessages : s'.file.messages = s.file.messages) (henums : s'.file.enums = s.file.enums) :
    AllSourced job among s' :=
  h.later hle (fun _ hmessage => .inl (hmessages ▸ hmessage)) fun _ henum => .inl (henums ▸ henum)

end AllSourced

end Protoscribe.Compile
