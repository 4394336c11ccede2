import Protoscribe.Proofs.Compile.Calls
import Protoscribe.Proofs.Link.Compiled

/-!
# `Protoscribe.Proofs.Operations`: the service holds the operations

The methods of a file are the operations of the description, path by path and of each path verb by
verb. Operations that are skipped have no method, and of several operations with one method name
only the first one has (`servedAmong`). While the operations are visited, the methods of the service
are always those of the operations served so far (`Serves`): `addOperation_serves` is the step and
`addOperations_serves` the run. `service_of_compile` says so of the compiled file, with what a
method tells of its operation (`IsMethodOf`).
-/

set_option autoImplicit false

namespace Protoscribe

namespace OpenApi

/-- The pattern that a rule has for a verb. Three verbs have none of their own. -/
def Verb.pattern (path : String) : Verb → HttpPattern
  | .get => .get path
  | .put => .put path
  | .post => .post path
  | .delete => .delete path
  | .options => .custom "OPTIONS" path
  | .head => .custom "HEAD" path
  | .patch => .patch path
  | .trace => .custom "TRACE" path

/-- The rule of an operation has the pattern of its verb. -/
theorem ofOperation_eq (verb : Verb) (path body : String) :
    HttpRule.ofOperation verb.name path body = ⟨some (verb.pattern path), body⟩ := by
  cases verb <;> rfl

end OpenApi

/-- A finished method is deprecated if its draft is. -/
theorem MethodDraft.deprecated_build (draft : MethodDraft) :
    draft.build.options.bind (·.deprecated) = if draft.deprecated then some true else none := by
  unfold build
  cases draft.deprecated <;> cases draft.http <;> rfl

/-- A finished method has the rule of its draft. -/
theorem MethodDraft.http_build (draft : MethodDraft) : draft.build.http = draft.http := by
  unfold build MethodDescriptor.http
  cases draft.deprecated <;> cases draft.http <;> rfl

namespace Compile

open OpenApi (Document Endpoint Operation PathItem Verb)

/-- An operation takes JSON: the body that its references lead to has a schema for it. -/
def TakesJson (document : Document) (operation : Operation) : Prop :=
  ∃ node body schema, operation.requestBody = some node ∧
    LeadsTo .requestBodies document.components.requestBodies node body ∧
    body.content.jsonSchema? = some schema

/-- What a method tells of its operation. -/
structure IsMethodOf (job : Job) (endpoint : Endpoint) (method : MethodDescriptor) : Prop where
  name : method.name = some (job.methodName endpoint.path endpoint.verb)
  deprecated : method.options.bind (·.deprecated) =
    if endpoint.operation.deprecated then some true else none
  annotated : job.config.useAnnotation = true → ∃ rule, method.http = some rule ∧
    rule.pattern = some (endpoint.verb.pattern endpoint.path) ∧
    (rule.body = "*" ↔ TakesJson job.document endpoint.operation) ∧
    (rule.body = "" ↔ ¬ TakesJson job.document endpoint.operation)
  plain : job.config.useAnnotation = false → method.http = none

/-- The methods of a service are those of the operations that are served among the visited ones, and
their names are taken. -/
structure Serves (job : Job) (visited : List Endpoint) (service : ServiceDraft) : Prop where
  methods : List.Forall₂ (fun endpoint method => IsMethodOf job endpoint method.build)
    (job.servedAmong visited) service.methods
  inStep : service.InStep

/-! ### One operation -/

section

variable {job : Job} {path : String} {item : PathItem} {verb : Verb} {operation : Operation}
  {s s' : State}

/-- There is a schema for the body exactly when the operation takes JSON. -/
theorem bodySchema_isSome_iff {body : Option (OpenApi.SchemaNode × Bool)}
    (h : bodySchema job operation s = .ok body s') :
    body.isSome = true ↔ TakesJson job.document operation := by
  unfold bodySchema at h
  cases hbody : operation.requestBody with
  | none =>
    simp only [hbody, pure_eq_ok] at h
    simp [TakesJson, h.1, hbody]
  | some node =>
    simp only [hbody, bind_eq_ok, pure_eq_ok] at h
    obtain ⟨content, _, hfollow, rfl, -⟩ := h
    have hleads := leadsTo_of_followFrom hfollow
    rw [Option.isSome_map, Option.isSome_iff_exists]
    constructor
    · rintro ⟨schema, hschema⟩
      exact ⟨node, content, schema, hbody, hleads, hschema⟩
    · rintro ⟨node', content', schema, hbody', hleads', hschema⟩
      cases hbody.symm.trans hbody'
      cases hleads.unique hleads'
      exact ⟨schema, hschema⟩

/-- The method for an operation tells of the operation. -/
theorem isMethodOf_build {method : MethodDraft}
    (h : methodFor job (job.methodName path verb) path verb item operation s = .ok method s') :
    IsMethodOf job ⟨path, verb, operation⟩ method.build := by
  obtain ⟨hname, hdeprecated, ⟨body, t, hbody, hhttp⟩, -⟩ := methodFor_eq_ok h
  refine ⟨by rw [← hname]; rfl, ?_, fun hannotated => ?_, fun hplain => ?_⟩
  · show method.build.options.bind (·.deprecated) = if operation.deprecated then some true else none
    rw [← hdeprecated, MethodDraft.deprecated_build]
  · rw [methodRule, if_pos hannotated, OpenApi.ofOperation_eq] at hhttp
    refine ⟨_, (MethodDraft.http_build method).trans hhttp, rfl, ?_⟩
    have hjson := bodySchema_isSome_iff hbody
    show ((if body.isSome then "*" else "") = "*" ↔ TakesJson job.document operation) ∧
      ((if body.isSome then "*" else "") = "" ↔ ¬ TakesJson job.document operation)
    rw [← hjson]
    cases body.isSome <;> decide
  · rw [MethodDraft.http_build, hhttp, methodRule, if_neg (by simp [hplain])]

/-- One operation more is visited: it is skipped, its method name is taken, or it gets a method. -/
theorem addOperation_serves {visited : List Endpoint} {service grown : ServiceDraft}
    (h : addOperation job path item service (verb, operation) s = .ok grown s')
    (hserves : Serves job visited service) :
    Serves job (visited ++ [⟨path, verb, operation⟩]) grown := by
  have hnames := hserves.methods.imp fun _ _ hmethod => Option.some_inj.mp hmethod.name
  rcases addOperation_cases hserves.inStep hnames h with ⟨hserved, rfl, -⟩ |
    ⟨hserved, method, t, hmethod, -, -, hmethods, hstep⟩
  · exact ⟨hserved ▸ hserves.methods, hserves.inStep⟩
  · refine ⟨?_, hstep⟩
    rw [hserved, hmethods]
    exact List.rel_append hserves.methods (.cons (isMethodOf_build hmethod) .nil)

end

/-! ### All operations -/

section

variable {job : Job} {s s' : State}

/-- The operations of one path are visited verb by verb. -/
theorem foldlM_addOperation_serves {path : String} {item : PathItem} {visited : List Endpoint}
    {service grown : ServiceDraft}
    (h : item.operations.foldlM (addOperation job path item) service s = .ok grown s')
    (hserves : Serves job visited service) :
    Serves job (visited ++ item.endpoints path) grown := by
  have hvisits := foldlM_visits (fun entry => [⟨path, entry.1, entry.2⟩])
    (P := fun visited _ service => Serves job visited service)
    (fun _ hround hserves => addOperation_serves hround hserves) h hserves
  rwa [← List.map_eq_flatMap, ← PathItem.endpoints_eq_map] at hvisits

/-- Once all operations are visited, the methods are those of the served operations. -/
theorem addOperations_serves {service full : ServiceDraft} (hnone : service.methods = [])
    (hfree : service.takenMethods = .empty) (h : addOperations job service s = .ok full s') :
    Serves job job.document.endpoints full := by
  have hstart : Serves job [] service := by
    refine ⟨?_, .of_nil hnone hfree⟩
    rw [hnone]
    exact .nil
  exact foldlM_visits (fun entry => entry.2.endpoints entry.1)
    (P := fun visited _ service => Serves job visited service)
    (fun _ hround hserves => foldlM_addOperation_serves hround hserves) h hstart

/-- When the operations have their turn, there is no service yet. -/
theorem declareService_of_compileDocument (hrpc : job.config.skipRpc = false)
    (h : compileDocument job { file := startFile job.document job.config } = .ok ⟨⟩ s) :
    ∃ t, Justified job t ∧ t.file.services = [] ∧ declareService job t = .ok ⟨⟩ s := by
  simp only [compileDocument, bind_eq_ok] at h
  obtain ⟨_, t, hcomponents, h⟩ := h
  obtain ⟨_, hgrown, -, -⟩ := declareComponents_sound hcomponents (justified_start job)
  rw [hrpc] at h
  exact ⟨t, hgrown.justified,
    hgrown.later.services.trans (startFile_prebuilt job.document job.config).services, h⟩

/-- A finished method tells the same when its types are made absolute. -/
theorem IsMethodOf.inMethod {endpoint : Endpoint} {method : MethodDescriptor}
    (h : IsMethodOf job endpoint method) (known : List String) (root : String) :
    IsMethodOf job endpoint (Link.inMethod known root method) :=
  ⟨h.name, h.deprecated, h.annotated, h.plain⟩

end

/-- The service of a compiled file holds the served operations of the description, one method for
each and in their order. There is no service when none is served. -/
theorem service_of_compile {document : Document} {config : Config} {out : Output}
    (h : compile document config = .ok out) (hrpc : config.skipRpc = false) :
    (Job.servedAmong ⟨document, config⟩ document.endpoints = [] → out.file.services = []) ∧
    (Job.servedAmong ⟨document, config⟩ document.endpoints ≠ [] →
      ∃ service, out.file.services = [service] ∧
        List.Forall₂ (IsMethodOf ⟨document, config⟩)
          (Job.servedAmong ⟨document, config⟩ document.endpoints) service.methods) := by
  obtain ⟨s, hrun, -, hfile⟩ := compile_eq_ok h
  obtain ⟨t, ht, hnone, hdeclare⟩ := declareService_of_compileDocument hrpc hrun
  obtain ⟨service, u, hadd, hs⟩ := declareService_eq_ok hdeclare
  have hserves : Serves ⟨document, config⟩ document.endpoints service :=
    addOperations_serves rfl rfl hadd
  have hvisits := addOperations_sound hadd ht rfl rfl rfl
  have hnone : u.file.services = [] := hvisits.reached.later.services.trans hnone
  rw [hfile, FileDraft.linkedServices_build]
  -- the service is added only when it has methods, and it is the only one
  constructor
  · intro hserved
    have hmethods : service.methods = [] := by
      simpa [hserved] using hserves.methods
    rw [hs, if_pos hmethods, FileDraft.sortedServices, hnone]
    rfl
  · intro hserved
    have hmethods : service.methods ≠ [] := by
      intro hempty
      exact hserved (by simpa [hempty] using hserves.methods)
    have hadded : (u.file.addService service).services = [service] := by
      simp [FileDraft.addService, FileDraft.hasService, hnone]
    rw [hs, if_neg hmethods, FileDraft.sortedServices, hadded]
    refine ⟨_, rfl, ?_⟩
    rw [FileDescriptor.linkedService, List.forall₂_map_right_iff]
    exact hserves.methods.imp fun _ _ hmethod => hmethod.inMethod _ _

/-- Pets, with a deprecated operation and with two operations of one method name. -/
def petShop : Document :=
  { (default : Document) with
    paths := .ofList
      [("/pets/\x7bid\x7d", { get := some {}, head := some {} }),
       ("/pets", {
          get := some { deprecated := true }
          post := some (operationWith (objectNode [("name", textNode)])) })] }

/-- Methods are mapped to requests. -/
def mapped : Config :=
  { useAnnotation := true }

/-- The first of both names has the method, also when it is deprecated. -/
theorem service_of_compile_petShop :
    (Job.servedAmong ⟨petShop, mapped⟩ petShop.endpoints).map (fun e => (e.path, e.verb)) =
        [("/pets", .get), ("/pets", .post), ("/pets/\x7bid\x7d", .head)] ∧
      ∃ out service, compile petShop mapped = .ok out ∧ out.file.services = [service] ∧
        List.Forall₂ (IsMethodOf ⟨petShop, mapped⟩)
          (Job.servedAmong ⟨petShop, mapped⟩ petShop.endpoints) service.methods := by
  have hserved : (Job.servedAmong ⟨petShop, mapped⟩ petShop.endpoints).map
      (fun e => (e.path, e.verb)) =
        [("/pets", .get), ("/pets", .post), ("/pets/\x7bid\x7d", .head)] := by
    decide +kernel
  have hcompiles : compilesTo petShop mapped (fun _ => true) = true := by decide +kernel
  obtain ⟨out, -, hout, -⟩ := exists_of_compilesTo hcompiles
  have hsome : Job.servedAmong ⟨petShop, mapped⟩ petShop.endpoints ≠ [] := by
    intro hnone
    simp [hnone] at hserved
  obtain ⟨service, hservices, hmethods⟩ := (service_of_compile hout rfl).2 hsome
  exact ⟨hserved, out, service, hout, hservices, hmethods⟩

end Compile

end Protoscribe
