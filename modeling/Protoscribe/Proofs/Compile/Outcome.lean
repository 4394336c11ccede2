import Protoscribe.Compile.Compilation
import Protoscribe.Proofs.Compile.Soundness

/-!
# `Protoscribe.Proofs.Compile.Outcome`: what a successful compilation leaves

The components come first and then the operations. `Outcome` collects what holds when both are
through: the state is justified, every component became something, and the types of the methods are
messages of the file that were put together, or the empty type. `compile_eq_ok` gives the outcome
behind the file that `compile` hands out.
-/

set_option autoImplicit false

namespace Protoscribe.Compile

open OpenApi (Document Endpoint Operation Parameter PathItem Referable RequestBody SchemaNode Verb)

/-- The type of a method is the empty type or a message that was put together. -/
def PayloadType (job : Job) (s : State) (type : String) : Prop :=
  type = emptyMessage ∨
    s.file.hasType type = true ∧ ∃ draft, Payload job s.facts draft ∧ draft.name = type

/-- The request message of a method: the parameters and the body. -/
def requestMessage (job : Job) (name : String) (item : PathItem) (operation : Operation) :
    M MessageDraft := do
  let parameters ← addParameters job item operation { name := name ++ "Request" }
  match ← bodySchema job operation with
  | none => pure parameters
  | some (schema, required) =>
    within "requestBody" (addPayload job parameters "body" schema required)

/-- The name by which a method refers to a payload. -/
def payloadName (message : MessageDraft) : String :=
  if message.isEmpty then emptyMessage else message.name

/-- At some moment of a run, the request and the response of an endpoint were compiled to these two
messages. -/
inductive PayloadsOf (job : Job) (facts : Facts) : Endpoint → MessageDraft → MessageDraft → Prop
  | intro {path : String} {item : PathItem} {verb : Verb} {operation : Operation}
      {request response : MessageDraft} {t t₁ t₂ : State}
      (hitem : (path, item) ∈ job.document.paths.entries)
      (hoperation : (verb, operation) ∈ item.operations) (hstart : Justified job t)
      (hrequest : requestMessage job (job.methodName path verb) item operation t = .ok request t₁)
      (hresponse : compileResponse job (job.methodName path verb ++ "Response") operation t₁ =
        .ok response t₂)
      (hlater : t₂.facts ≤ facts) :
      PayloadsOf job facts ⟨path, verb, operation⟩ request response

/-- The method has the name for an endpoint. Both its types are types for payloads, those that the
endpoint was compiled to. -/
structure MethodTyped (job : Job) (s : State) (endpoint : Endpoint) (method : MethodDraft) :
    Prop where
  name : method.name = job.methodName endpoint.path endpoint.verb
  input : PayloadType job s method.inputType
  output : PayloadType job s method.outputType
  payloads : ∃ request response, PayloadsOf job s.facts endpoint request response ∧
    method.inputType = payloadName request ∧ method.outputType = payloadName response

/-- What holds when a compilation has succeeded. -/
structure Outcome (job : Job) (s : State) : Prop where
  justified : Justified job s
  sourced : AllSourced job (· ∈ job.servedAmong job.document.endpoints) s
  schemas : ∀ key ∈ job.document.components.schemas.keys,
    ∃ result, s.schemas.lookup key = some result
  bodies : ∀ key ∈ job.document.components.requestBodies.keys,
    ∃ result, s.bodies.lookup key = some result
  operations : ∀ service ∈ s.file.services, List.Forall₂ (MethodTyped job s)
    (job.servedAmong job.document.endpoints) service.methods
  package : s.file.package = packageFor job.document job.config
  services : s.file.services = [] ∨ ∃ service text, s.file.services = [service] ∧
    service.name = job.messageName text ++ "Service"

/-- Every method has the types of an endpoint that is served. -/
theorem Outcome.methods {job : Job} {s : State} (h : Outcome job s) {service : ServiceDraft}
    (hservice : service ∈ s.file.services) {method : MethodDraft}
    (hmethod : method ∈ service.methods) :
    ∃ endpoint ∈ job.servedAmong job.document.endpoints, MethodTyped job s endpoint method := by
  have hserved := h.operations service hservice
  obtain ⟨index, hindex, rfl⟩ := List.getElem_of_mem hmethod
  have hendpoint := hserved.length_eq ▸ hindex
  exact ⟨_, List.getElem_mem hendpoint, hserved.get hendpoint hindex⟩

/-- The type of a payload stays one when the file grows. -/
theorem PayloadType.mono {job : Job} {s s' : State} {type : String}
    (h : PayloadType job s type) (hlater : Extends s s') : PayloadType job s' type := by
  rcases h with rfl | ⟨htype, draft, hdraft, hname⟩
  · exact .inl rfl
  · exact .inr ⟨hlater.types _ htype, draft, hdraft.mono hlater.facts_le, hname⟩

/-- What the payloads of an endpoint come from stays true later. -/
theorem PayloadsOf.mono {job : Job} {facts later : Facts} {endpoint : Endpoint}
    {request response : MessageDraft} (h : PayloadsOf job facts endpoint request response)
    (hle : facts ≤ later) : PayloadsOf job later endpoint request response := by
  obtain ⟨hitem, hoperation, hstart, hrequest, hresponse, hlater⟩ := h
  exact .intro hitem hoperation hstart hrequest hresponse (Facts.le_trans hlater hle)

/-- The types of a method stay declared when the file grows. -/
theorem MethodTyped.mono {job : Job} {s s' : State} {endpoint : Endpoint} {method : MethodDraft}
    (h : MethodTyped job s endpoint method) (hlater : Extends s s') :
    MethodTyped job s' endpoint method := by
  obtain ⟨request, response, hpayloads, hinput, houtput⟩ := h.payloads
  exact ⟨h.name, h.input.mono hlater, h.output.mono hlater, request, response,
    hpayloads.mono hlater.facts_le, hinput, houtput⟩

/-! ### Loops -/

/-- What every round keeps, the loop keeps. -/
theorem foldlM_sound {α γ : Type} {job : Job} {round : α → γ → M α} {P : State → α → Prop}
    {items : List γ}
    (hround : ∀ {a item b s s'}, item ∈ items → round a item s = .ok b s' → Justified job s →
      P s a → Reached job s s' ∧ P s' b)
    {init result : α} {s s' : State}
    (h : items.foldlM round init s = .ok result s') (hs : Justified job s) (hinit : P s init) :
    Reached job s s' ∧ P s' result := by
  induction items generalizing init s with
  | nil =>
    obtain ⟨rfl, rfl⟩ := foldlM_nil_eq_ok.mp h
    exact ⟨.refl hs, hinit⟩
  | cons item rest ih =>
    obtain ⟨next, t, hfirst, hrest⟩ := foldlM_cons_eq_ok.mp h
    obtain ⟨hgrown, hnext⟩ := hround (List.mem_cons_self ..) hfirst hs hinit
    obtain ⟨hgrown', hresult⟩ :=
      ih (fun hmem => hround (List.mem_cons_of_mem _ hmem)) hrest hgrown.justified hnext
    exact ⟨hgrown.trans hgrown', hresult⟩

/-- What one round brings about for its item holds for all items behind the loop. -/
theorem forM_sound {γ : Type} {job : Job} {round : γ → M PUnit} {P : State → γ → Prop}
    {items : List γ}
    (hround : ∀ {item s s'}, item ∈ items → round item s = .ok ⟨⟩ s' → Justified job s →
      Grown job s s' ∧ P s' item)
    (hmono : ∀ {item s s'}, Extends s s' → P s item → P s' item)
    {s s' : State} (h : items.forM round s = .ok ⟨⟩ s') (hs : Justified job s) :
    Grown job s s' ∧ ∀ item ∈ items, P s' item := by
  induction items generalizing s with
  | nil =>
    obtain ⟨-, rfl⟩ := pure_eq_ok.mp h
    exact ⟨.refl hs, by simp⟩
  | cons item rest ih =>
    obtain ⟨_, t, hfirst, hrest⟩ := bind_eq_ok.mp h
    obtain ⟨hgrown, hitem⟩ := hround (List.mem_cons_self ..) hfirst hs
    obtain ⟨hgrown', hitems⟩ :=
      ih (fun hmem => hround (List.mem_cons_of_mem _ hmem)) hrest hgrown.justified
    refine ⟨hgrown.trans hgrown', fun other hother => ?_⟩
    rcases List.mem_cons.mp hother with rfl | hother
    · exact hmono hgrown'.later hitem
    · exact hitems other hother

section

variable {job : Job} {s s' : State}

/-! ### Request and response messages -/

/-- The field for a parameter fills its slot, if it has one. -/
theorem addParameterField_sound {request filled : MessageDraft} {parameter : Parameter}
    (h : addParameterField job request parameter s = .ok filled s') (hs : Justified job s) :
    Grown job s s' ∧
      Derives job s'.facts (.slots request (parameterSlots parameter)) (some filled) := by
  unfold addParameterField at h
  unfold parameterSlots
  split at h
  · next helsewhere =>
    -- a parameter of a header or a cookie has no slot
    have helsewhere : ¬ (parameter.location = "path" ∨ parameter.location = "query") := by
      simpa using helsewhere
    obtain ⟨rfl, rfl⟩ := pure_eq_ok.mp h
    refine ⟨.refl hs, ?_⟩
    cases parameter.schema with
    | none => exact .slotsNil
    | some node =>
      simp only [if_neg helsewhere]
      exact .slotsNil
  · next hlocation =>
    have hlocation : parameter.location = "path" ∨ parameter.location = "query" := by
      simpa [Classical.or_iff_not_imp_left] using hlocation
    cases hschema : parameter.schema with
    | none =>
      simp only [hschema, bind_eq_ok, warn_eq_ok, pure_eq_ok] at h
      obtain ⟨_, _, hplace, _, _, rfl, rfl, rfl⟩ := h
      cases place_eq_ok hplace
      exact ⟨hs.grown_warn _, .slotsNil⟩
    | some schema =>
      simp only [hschema] at h
      obtain ⟨hgrown, hslot⟩ := grown_within
        (P := fun facts => Derives job facts (.slot request (.property parameter.name
          (parameter.required || parameter.location == "path") parameter.description) schema)
          (some filled))
        h hs (addMember_sound job.engine_sound)
      simp only [if_pos hlocation]
      exact ⟨hgrown, .slotsCons hslot .slotsNil⟩

/-- A payload lends the message what it has. -/
theorem addPayload_sound {message filled : MessageDraft} {field : String} {payload : SchemaNode}
    {required : Bool} (h : addPayload job message field payload required s = .ok filled s')
    (hs : Justified job s) :
    Grown job s s' ∧ Lends job s'.facts message field required payload filled := by
  cases payload with
  | ref reference =>
    have h : addMember job.engine job message field (.ref reference) required none s =
      .ok filled s' := h
    obtain ⟨hgrown, hslot⟩ := addMember_sound job.engine_sound h hs
    exact ⟨hgrown, .member (fun _ hinline => nomatch hinline) hslot⟩
  | inline schema =>
    simp only [addPayload] at h
    -- an object is merged into the message, anything else is a member of it
    split at h
    · rename_i hobject
      simp only [bind_eq_ok] at h
      obtain ⟨compiled, t, hschema, h⟩ := h
      obtain ⟨hgrown, hderives⟩ := job.engine_sound.schema hschema hs
      cases compiled with
      | none =>
        obtain ⟨rfl, rfl⟩ := pure_eq_ok.mp h
        exact ⟨hgrown, .nothing hobject hderives⟩
      | some compiled =>
        obtain ⟨rfl, rfl⟩ := pure_eq_ok.mp h
        exact ⟨hgrown, .merged hobject hderives⟩
    · rename_i hobject
      obtain ⟨hgrown, hslot⟩ := addMember_sound job.engine_sound h hs
      refine ⟨hgrown, .member (fun other hother => ?_) hslot⟩
      cases hother
      simpa using hobject

/-- A parameter of the path gets its field, unless the operation has its own one. -/
theorem sharedParameter_sound {operation : Operation} {request filled : MessageDraft}
    {node : Referable Parameter}
    (h : (do
      let parameter ← followParameter job node
      if isOverridden operation parameter then pure request
      else addParameterField job request parameter : M MessageDraft) s = .ok filled s')
    (hs : Justified job s) :
    Grown job s s' ∧ ∃ parameter,
      LeadsTo .parameters job.document.components.parameters node parameter ∧
      Derives job s'.facts (.slots request
        (if isOverridden operation parameter then [] else parameterSlots parameter))
        (some filled) := by
  obtain ⟨parameter, t, hfollow, h⟩ := bind_eq_ok.mp h
  cases follow_eq_ok hfollow
  have hleads := leadsTo_of_followFrom hfollow
  -- a parameter that the operation overrides fills no slot
  split at h
  · next hoverridden =>
    obtain ⟨rfl, rfl⟩ := pure_eq_ok.mp h
    refine ⟨.refl hs, parameter, hleads, ?_⟩
    rw [if_pos hoverridden]
    exact .slotsNil
  · next hown =>
    obtain ⟨hgrown, hslots⟩ := addParameterField_sound h hs
    refine ⟨hgrown, parameter, hleads, ?_⟩
    rwa [if_neg hown]

/-- A parameter of the operation gets its field. -/
theorem ownParameter_sound {request filled : MessageDraft} {node : Referable Parameter}
    (h : (do addParameterField job request (← followParameter job node) : M MessageDraft) s =
      .ok filled s') (hs : Justified job s) :
    Grown job s s' ∧ ∃ parameter,
      LeadsTo .parameters job.document.components.parameters node parameter ∧
      Derives job s'.facts (.slots request (parameterSlots parameter)) (some filled) := by
  obtain ⟨parameter, t, hfollow, h⟩ := bind_eq_ok.mp h
  cases follow_eq_ok hfollow
  obtain ⟨hgrown, hslots⟩ := addParameterField_sound h hs
  exact ⟨hgrown, parameter, leadsTo_of_followFrom hfollow, hslots⟩

/-- Where each round fills the slots for one parameter, the loop fills those for all of them. -/
theorem foldlM_parameters_sound {round : MessageDraft → Referable Parameter → M MessageDraft}
    {slots : Parameter → List (Slot × SchemaNode)}
    (hround : ∀ {request filled node s s'}, round request node s = .ok filled s' →
      Justified job s → Grown job s s' ∧ ∃ parameter,
        LeadsTo .parameters job.document.components.parameters node parameter ∧
        Derives job s'.facts (.slots request (slots parameter)) (some filled))
    {nodes : List (Referable Parameter)} {request filled : MessageDraft}
    (h : nodes.foldlM round request s = .ok filled s') (hs : Justified job s) :
    Grown job s s' ∧ ∃ parameters,
      List.Forall₂ (LeadsTo .parameters job.document.components.parameters) nodes parameters ∧
      Derives job s'.facts (.slots request (parameters.flatMap slots)) (some filled) := by
  induction nodes generalizing request s with
  | nil =>
    obtain ⟨rfl, rfl⟩ := foldlM_nil_eq_ok.mp h
    exact ⟨.refl hs, [], .nil, .slotsNil⟩
  | cons node rest ih =>
    obtain ⟨next, t, hfirst, hrest⟩ := foldlM_cons_eq_ok.mp h
    obtain ⟨hgrown, parameter, hleads, hslots⟩ := hround hfirst hs
    obtain ⟨hgrown', parameters, hothers, hslots'⟩ := ih hrest hgrown.justified
    exact ⟨hgrown.trans hgrown', parameter :: parameters, .cons hleads hothers,
      (hslots.mono hgrown'.later.facts_le).slots_append hslots'⟩

/-- The parameters of an operation derive their slots in the request. -/
theorem addParameters_sound {item : PathItem} {operation : Operation}
    {request filled : MessageDraft}
    (h : addParameters job item operation request s = .ok filled s') (hs : Justified job s) :
    Grown job s s' ∧ ∃ entries, ParameterSlots job.document item operation entries ∧
      Derives job s'.facts (.slots request entries) (some filled) := by
  simp only [addParameters, bind_eq_ok] at h
  obtain ⟨middle, t, hshared, h⟩ := h
  obtain ⟨hgrown, shared, hleads, hslots⟩ :=
    foldlM_parameters_sound (fun hround => sharedParameter_sound hround) hshared hs
  obtain ⟨hgrown', own, hleads', hslots'⟩ :=
    foldlM_parameters_sound (fun hround => ownParameter_sound hround) h hgrown.justified
  exact ⟨hgrown.trans hgrown', _, .intro hleads hleads',
    (hslots.mono hgrown'.later.facts_le).slots_append hslots'⟩

/-- Finding the response leaves the state as it is. -/
theorem successResponse_eq_ok {operation : Operation} {response : Option OpenApi.Response}
    (h : successResponse job operation s = .ok response s') : s' = s := by
  unfold successResponse at h
  cases hresponse : operation.response? "200" with
  | none =>
    simp only [hresponse, pure_eq_ok] at h
    exact h.2
  | some node =>
    simp only [hresponse, map_eq_ok] at h
    obtain ⟨_, hfollow, -⟩ := h
    exact follow_eq_ok hfollow

/-- Finding the request body leaves the state as it is. -/
theorem bodySchema_eq_ok {operation : Operation} {body : Option (SchemaNode × Bool)}
    (h : bodySchema job operation s = .ok body s') : s' = s := by
  unfold bodySchema at h
  cases hbody : operation.requestBody with
  | none =>
    simp only [hbody, pure_eq_ok] at h
    exact h.2
  | some node =>
    simp only [hbody, bind_eq_ok, pure_eq_ok] at h
    obtain ⟨_, _, hfollow, -, rfl⟩ := h
    exact follow_eq_ok hfollow

/-- The success response is the one that the references of the operation lead to. -/
theorem successOf_iff {operation : Operation} {success : Option OpenApi.Response}
    (h : successResponse job operation s = .ok success s') (response : OpenApi.Response) :
    SuccessOf job.document operation response ↔ success = some response := by
  unfold successResponse at h
  unfold SuccessOf
  cases hresponse : operation.response? "200" with
  | none =>
    simp only [hresponse, pure_eq_ok] at h
    simp [h.1]
  | some definition =>
    simp only [hresponse, map_eq_ok] at h
    obtain ⟨found, hfollow, rfl⟩ := h
    have hleads := leadsTo_of_followFrom hfollow
    constructor
    · rintro ⟨_, ⟨⟩, hother⟩
      rw [hleads.unique hother]
    · rintro ⟨⟩
      exact ⟨definition, rfl, hleads⟩

/-- The schema of the body is that of the body that the references of the operation lead to, and
that body says whether it has to be there. -/
theorem bodyOf_of_bodySchema {operation : Operation} {schema : SchemaNode} {required : Bool}
    (h : bodySchema job operation s = .ok (some (schema, required)) s') :
    ∃ body, BodyOf job.document operation body ∧ body.content.jsonSchema? = some schema ∧
      body.required = required := by
  unfold bodySchema at h
  cases hbody : operation.requestBody with
  | none =>
    simp only [hbody, pure_eq_ok] at h
    cases h.1
  | some definition =>
    simp only [hbody, bind_eq_ok, pure_eq_ok] at h
    obtain ⟨body, _, hfollow, hschema, -⟩ := h
    obtain ⟨_, hjson, heq⟩ := Option.map_eq_some_iff.mp hschema.symm
    cases heq
    exact ⟨body, ⟨definition, hbody, leadsTo_of_followFrom hfollow⟩, hjson, rfl⟩

/-- Without a schema for the body, no body of the operation has one. -/
theorem jsonSchema?_eq_none_of_bodySchema {operation : Operation}
    (h : bodySchema job operation s = .ok none s') {body : RequestBody}
    (hbody : BodyOf job.document operation body) : body.content.jsonSchema? = none := by
  obtain ⟨definition, hdefinition, hleads⟩ := hbody
  simp only [bodySchema, hdefinition, bind_eq_ok, pure_eq_ok] at h
  obtain ⟨found, _, hfollow, hschema, -⟩ := h
  rw [hleads.unique (leadsTo_of_followFrom hfollow)]
  exact Option.map_eq_none_iff.mp hschema.symm

/-- A response message comes from the response of the operation. -/
theorem compileResponse_sound {name : String} {operation : Operation} {response : MessageDraft}
    (h : compileResponse job name operation s = .ok response s') (hs : Justified job s) :
    Grown job s s' ∧ ResponseFrom job s'.facts name operation response := by
  simp only [compileResponse, bind_eq_ok] at h
  obtain ⟨success, t, hsuccess, h⟩ := h
  cases successResponse_eq_ok hsuccess
  have hresponse := successOf_iff hsuccess
  -- without a response, or without JSON in it, the message stays empty
  cases success with
  | none =>
    obtain ⟨rfl, rfl⟩ := pure_eq_ok.mp h
    exact ⟨.refl hs, .bodiless none fun other hother => nomatch (hresponse other).mp hother⟩
  | some success =>
    cases hschema : success.content.jsonSchema? with
    | none =>
      simp only [hschema, pure_eq_ok] at h
      obtain ⟨rfl, rfl⟩ := h
      refine ⟨.refl hs, .bodiless success.description fun other hother => ?_⟩
      cases (hresponse other).mp hother
      exact hschema
    | some schema =>
      simp only [hschema] at h
      obtain ⟨t, ht, rfl⟩ := within_eq_ok.mp h
      obtain ⟨hgrown, hlends⟩ := addPayload_sound ht (hs.of_eq rfl rfl rfl)
      exact ⟨hgrown.within, .body ((hresponse success).mpr rfl) hschema hlends⟩

/-- The type of a payload is its own one, which is declared then, or the empty one. -/
theorem payloadType_sound {message : MessageDraft} {type : String}
    (h : payloadType message s = .ok type s') (hs : Justified job s)
    (hmessage : Payload job s.facts message) :
    Reached job s s' ∧ PayloadType job s' type ∧ type = payloadName message ∧
      ∀ {among : Endpoint → Prop}, Sourced job s.facts among message → AllSourced job among s →
        AllSourced job among s' := by
  unfold payloadType at h
  unfold payloadName
  split at h
  · rename_i hempty
    simp only [bind_eq_ok, updateFile_eq_ok, pure_eq_ok] at h
    obtain ⟨_, _, rfl, rfl, rfl⟩ := h
    have hgrown := hs.grown_addDependency emptyFile
    exact ⟨hgrown.toReached, .inl rfl, by rw [if_pos hempty], fun _ => hgrown.sourced⟩
  · rename_i hempty
    -- with or without a warning, the message is declared in the end
    have hdeclare : ∃ warnings, s' = { s with warnings, file := s.file.addMessage message } ∧
        type = message.name := by
      simp only [bind_eq_ok, get_eq_ok] at h
      obtain ⟨s₀, s₁, ⟨hread, hkept⟩, h⟩ := h
      subst s₀ s₁
      split at h
      · simp only [bind_eq_ok, warn_eq_ok, updateFile_eq_ok, pure_eq_ok] at h
        obtain ⟨_, _, rfl, _, _, rfl, rfl, rfl⟩ := h
        exact ⟨_, rfl, rfl⟩
      · simp only [bind_eq_ok, updateFile_eq_ok, pure_eq_ok] at h
        obtain ⟨_, _, rfl, rfl, rfl⟩ := h
        exact ⟨_, rfl, rfl⟩
    obtain ⟨warnings, rfl, rfl⟩ := hdeclare
    have hreached := hs.reached_addMessage (.payload hmessage (by simpa using hempty))
    have hwarned := hreached.justified.grown_warn warnings
    have hreached' := hreached.trans hwarned.toReached
    exact ⟨hreached', .inr ⟨FileDraft.hasType_addMessage _ _, message,
        hmessage.mono hreached'.later.facts_le, rfl⟩, by rw [if_neg hempty],
      fun hsourced hall => hwarned.sourced (hall.addMessage hsourced)⟩

/-- A request message comes from the parameters and the body of the operation. -/
theorem requestMessage_sound {name : String} {item : PathItem} {operation : Operation}
    {request : MessageDraft} (h : requestMessage job name item operation s = .ok request s')
    (hs : Justified job s) :
    Grown job s s' ∧ RequestFrom job s'.facts (name ++ "Request") item operation request := by
  simp only [requestMessage, bind_eq_ok] at h
  obtain ⟨parameters, t, hparameters, body, _, hbody, h⟩ := h
  obtain ⟨hgrown, entries, hentries, hslots⟩ := addParameters_sound hparameters hs
  cases bodySchema_eq_ok hbody
  cases body with
  | none =>
    obtain ⟨rfl, rfl⟩ := pure_eq_ok.mp h
    exact ⟨hgrown, .bodiless hentries hslots fun body => jsonSchema?_eq_none_of_bodySchema hbody⟩
  | some body =>
    obtain ⟨schema, required⟩ := body
    obtain ⟨u, hu, rfl⟩ := within_eq_ok.mp h
    obtain ⟨body, hof, hschema, rfl⟩ := bodyOf_of_bodySchema hbody
    obtain ⟨hgrown', hlends⟩ := addPayload_sound hu (hgrown.justified.of_eq rfl rfl rfl)
    have hlater : Grown job t _ := hgrown'.within
    exact ⟨hgrown.trans hlater,
      .body hentries (hslots.mono hlater.later.facts_le) hof hschema hlends⟩

/-- The REST mapping of an operation, when mappings are asked for. `hasBody` says whether there is a
schema for the body. -/
def methodRule (job : Job) (path : String) (verb : Verb) (hasBody : Bool) : Option HttpRule :=
  if job.config.useAnnotation then
    some (HttpRule.ofOperation verb.name path (if hasBody then "*" else ""))
  else none

/-- A method has been made from two messages, which are declared once both of them are there. -/
theorem methodFor_eq_ok {name path : String} {verb : Verb} {item : PathItem}
    {operation : Operation} {method : MethodDraft}
    (h : methodFor job name path verb item operation s = .ok method s') :
    method.name = name ∧ method.deprecated = operation.deprecated ∧
      (∃ body t, bodySchema job operation t = .ok body t ∧
        method.http = methodRule job path verb body.isSome) ∧
      ∃ request t₁ response t₂ t₃ t₄,
        requestMessage job name item operation s = .ok request t₁ ∧
        compileResponse job (name ++ "Response") operation t₁ = .ok response t₂ ∧
        payloadType request t₂ = .ok method.inputType t₃ ∧
        payloadType response t₃ = .ok method.outputType t₄ ∧
        (s' = t₄ ∨ s' = { t₄ with file := t₄.file.addDependency annotationsFile }) := by
  simp only [methodFor, bind_eq_ok] at h
  obtain ⟨parameters, t, hparameters, body, u, hbody, h⟩ := h
  cases bodySchema_eq_ok hbody
  -- the request message, whether or not there is a body
  have hrequest : ∃ request t₁, requestMessage job name item operation s = .ok request t₁ ∧
      (do
        let response ← compileResponse job (name ++ "Response") operation
        let inputType ← payloadType request
        let outputType ← payloadType response
        let comment :=
          joinComments operation.summary operation.description <|>
            joinComments item.summary item.description
        let method : MethodDraft :=
          { name, inputType, outputType, comment, deprecated := operation.deprecated }
        if job.config.useAnnotation then
          updateFile (·.addDependency annotationsFile)
          let rule := HttpRule.ofOperation verb.name path (if body.isSome then "*" else "")
          pure { method with http := some rule }
        else pure method : M MethodDraft) t₁ = .ok method s' := by
    cases body with
    | none =>
      exact ⟨parameters, t,
        bind_eq_ok.mpr ⟨_, _, hparameters, bind_eq_ok.mpr ⟨_, _, hbody, rfl⟩⟩, h⟩
    | some body =>
      obtain ⟨request, t₁, hrequest, h⟩ := bind_eq_ok.mp h
      exact ⟨request, t₁,
        bind_eq_ok.mpr ⟨_, _, hparameters, bind_eq_ok.mpr ⟨_, _, hbody, hrequest⟩⟩, h⟩
  obtain ⟨request, t₁, hrequest, h⟩ := hrequest
  simp only [bind_eq_ok] at h
  obtain ⟨response, t₂, hresponse, inputType, t₃, hinput, outputType, t₄, houtput, h⟩ := h
  split at h
  · rename_i hannotated
    simp only [bind_eq_ok, updateFile_eq_ok, pure_eq_ok] at h
    obtain ⟨_, _, rfl, rfl, rfl⟩ := h
    exact ⟨rfl, rfl, ⟨body, t, hbody, by rw [methodRule, if_pos hannotated]⟩,
      _, _, _, _, _, _, hrequest, hresponse, hinput, houtput, .inr rfl⟩
  · rename_i hplain
    obtain ⟨rfl, rfl⟩ := pure_eq_ok.mp h
    exact ⟨rfl, rfl, ⟨body, t, hbody, by rw [methodRule, if_neg hplain]⟩,
      _, _, _, _, _, _, hrequest, hresponse, hinput, houtput, .inl rfl⟩

/-- What the method for an endpoint leaves: the types of the method and, where payloads of the
endpoint may be there, sources for all types. -/
theorem methodFor_sound {path : String} {verb : Verb} {item : PathItem} {operation : Operation}
    {method : MethodDraft} (hentry : (path, item) ∈ job.document.paths.entries)
    (hoperation : (verb, operation) ∈ item.operations)
    (h : methodFor job (job.methodName path verb) path verb item operation s = .ok method s')
    (hs : Justified job s) :
    Reached job s s' ∧ MethodTyped job s' ⟨path, verb, operation⟩ method ∧
      ∀ {among : Endpoint → Prop}, among ⟨path, verb, operation⟩ → AllSourced job among s →
        AllSourced job among s' := by
  obtain ⟨hname, -, -, request, t₁, response, t₂, t₃, t₄, hrequest, hresponse, hinput, houtput,
    hend⟩ := methodFor_eq_ok h
  obtain ⟨hgrown₁, hfrom₁⟩ := requestMessage_sound hrequest hs
  obtain ⟨hgrown₂, hfrom₂⟩ := compileResponse_sound hresponse hgrown₁.justified
  -- what is known of the request is carried along while the facts grow
  have hpayload₁ : PayloadFrom job t₂.facts ⟨path, verb, operation⟩ request :=
    .request hentry hoperation (hfrom₁.mono hgrown₂.later.facts_le)
  obtain ⟨hreached₃, htype₃, hinput, hsourced₃⟩ :=
    payloadType_sound hinput hgrown₂.justified hpayload₁.payload
  have hpayload₂ : PayloadFrom job t₃.facts ⟨path, verb, operation⟩ response :=
    .response hentry hoperation (hfrom₂.mono hreached₃.later.facts_le)
  obtain ⟨hreached₄, htype₄, houtput, hsourced₄⟩ :=
    payloadType_sound houtput hreached₃.justified hpayload₂.payload
  have hend : Grown job t₄ s' := by
    rcases hend with rfl | rfl
    · exact .refl hreached₄.justified
    · exact hreached₄.justified.grown_addDependency annotationsFile
  have hdeclared := hreached₄.trans hend.toReached
  have hpayloads : PayloadsOf job s'.facts ⟨path, verb, operation⟩ request response :=
    .intro hentry hoperation hs hrequest hresponse (hreached₃.trans hdeclared).later.facts_le
  refine ⟨hgrown₁.toReached.trans (hgrown₂.toReached.trans (hreached₃.trans hdeclared)),
    ⟨hname, htype₃.mono hdeclared.later, htype₄.mono hend.later, request, response, hpayloads,
      hinput, houtput⟩, fun hamong hall => ?_⟩
  have hrequested := hsourced₃ (.payload hamong hpayload₁) (hgrown₂.sourced (hgrown₁.sourced hall))
  exact hend.sourced (hsourced₄ (.payload hamong hpayload₂) hrequested)

/-! ### The service -/

/-- A service of the name that is being put together, whose methods are those of the endpoints
served among the visited ones. -/
structure ServiceTyped (job : Job) (name : String) (visited : List Endpoint) (s : State)
    (service : ServiceDraft) : Prop where
  name : service.name = name
  methods : List.Forall₂ (MethodTyped job s) (job.servedAmong visited) service.methods
  inStep : service.InStep

/-- A service that is put together stays so when the file grows. -/
theorem ServiceTyped.mono {name : String} {visited : List Endpoint} {service : ServiceDraft}
    (h : ServiceTyped job name visited s service) (hlater : Extends s s') :
    ServiceTyped job name visited s' service :=
  { h with methods := h.methods.imp fun _ _ hmethod => hmethod.mono hlater }

/-- A visit of an operation: the service stays as it is, or the operation is served and its method
comes in. -/
theorem addOperation_cases {path : String} {item : PathItem} {verb : Verb} {operation : Operation}
    {visited : List Endpoint} {service grown : ServiceDraft} (hstep : service.InStep)
    (hnames : List.Forall₂ (fun endpoint method =>
      method.name = job.methodName endpoint.path endpoint.verb)
      (job.servedAmong visited) service.methods)
    (h : addOperation job path item service (verb, operation) s = .ok grown s') :
    (job.servedAmong (visited ++ [⟨path, verb, operation⟩]) = job.servedAmong visited ∧
      grown = service ∧ ∃ warnings, s' = { s with warnings }) ∨
    job.servedAmong (visited ++ [⟨path, verb, operation⟩]) =
        job.servedAmong visited ++ [⟨path, verb, operation⟩] ∧
      ∃ method t, methodFor job (job.methodName path verb) path verb item operation
          { s with scope := ["paths", path, verb.name] } = .ok method t ∧
        s' = { t with scope := s.scope } ∧ grown.name = service.name ∧
        grown.methods = service.methods ++ [method] ∧ grown.InStep := by
  simp only [addOperation] at h
  split at h
  · -- left out because it is deprecated
    have hskips : job.skips ⟨path, verb, operation⟩ = true := ‹_›
    obtain ⟨rfl, rfl⟩ := pure_eq_ok.mp h
    exact .inl ⟨Job.servedAmong_of_skips hskips, rfl, _, rfl⟩
  · have hskips : job.skips ⟨path, verb, operation⟩ = false := Bool.not_eq_true _ ▸ ‹_›
    have hserved : job.servedAmong (visited ++ [⟨path, verb, operation⟩]) = _ :=
      Job.servedAmong_concat hskips
    rw [← hasMethod_eq hstep hnames] at hserved
    split at h
    · -- an operation that is served has the method name
      rename_i hrepeated
      simp only [bind_eq_ok, warn_eq_ok, pure_eq_ok] at h
      obtain ⟨_, _, rfl, rfl, rfl⟩ := h
      rw [if_pos hrepeated] at hserved
      exact .inl ⟨hserved, rfl, _, rfl⟩
    · -- the first one of its method name
      rename_i hfree
      simp only [bind_eq_ok, pure_eq_ok] at h
      obtain ⟨method, t, hmethod, rfl, rfl⟩ := h
      obtain ⟨t, ht, rfl⟩ := under_eq_ok.mp hmethod
      rw [if_neg hfree] at hserved
      have hname : method.name = job.methodName path verb := (methodFor_eq_ok ht).1
      have hadded := hstep.addMethod method
      rw [ServiceDraft.addMethod, hname, if_neg hfree] at hadded ⊢
      exact .inr ⟨hserved, method, t, ht, rfl, rfl, rfl, hadded⟩

/-- What a visit leaves, whatever the service is. -/
theorem addOperation_reached {path : String} {item : PathItem} {service grown : ServiceDraft}
    {entry : Verb × Operation} (hitem : (path, item) ∈ job.document.paths.entries)
    (hentry : entry ∈ item.operations)
    (h : addOperation job path item service entry s = .ok grown s') (hs : Justified job s) :
    Reached job s s' := by
  obtain ⟨verb, operation⟩ := entry
  simp only [addOperation] at h
  split at h
  · obtain ⟨-, rfl⟩ := pure_eq_ok.mp h
    exact .refl hs
  · split at h
    · simp only [bind_eq_ok, warn_eq_ok, pure_eq_ok] at h
      obtain ⟨_, _, rfl, -, rfl⟩ := h
      exact (hs.grown_warn _).toReached
    · simp only [bind_eq_ok, pure_eq_ok] at h
      obtain ⟨method, t, hmethod, -, rfl⟩ := h
      obtain ⟨u, hu, rfl⟩ := under_eq_ok.mp hmethod
      exact (methodFor_sound hitem hentry hu (hs.of_eq rfl rfl rfl)).1.under

/-- One operation more is visited. -/
theorem addOperation_sound {name path : String} {item : PathItem} {verb : Verb}
    {operation : Operation} {visited : List Endpoint} {service grown : ServiceDraft}
    (hitem : (path, item) ∈ job.document.paths.entries)
    (hentry : (verb, operation) ∈ item.operations)
    (h : addOperation job path item service (verb, operation) s = .ok grown s')
    (hs : Justified job s) (hservice : ServiceTyped job name visited s service) :
    Reached job s s' ∧
      ServiceTyped job name (visited ++ [⟨path, verb, operation⟩]) s' grown ∧
      (AllSourced job (· ∈ job.servedAmong visited) s →
        AllSourced job (· ∈ job.servedAmong (visited ++ [⟨path, verb, operation⟩])) s') := by
  rcases addOperation_cases hservice.inStep (hservice.methods.imp fun _ _ hmethod => hmethod.name) h
    with ⟨hserved, rfl, warnings, rfl⟩ |
      ⟨hserved, method, t, hmethod, rfl, hname, hmethods, hstep⟩
  -- the operation is not served, and the service stays as it is
  · have hgrown := hs.grown_warn warnings
    rw [hserved]
    refine ⟨hgrown.toReached, { hservice.mono hgrown.later with methods := ?_ }, hgrown.sourced⟩
    rw [hserved]
    exact (hservice.mono hgrown.later).methods
  -- its method comes behind those of the operations that are served already
  · obtain ⟨hreached, htyped, hsourced⟩ :=
      methodFor_sound hitem hentry hmethod (hs.of_eq rfl rfl rfl)
    have hreached : Reached job s { t with scope := s.scope } := hreached.under
    refine ⟨hreached, ⟨hname.trans hservice.name, ?_, hstep⟩, fun hall => ?_⟩
    · rw [hserved, hmethods]
      exact List.rel_append (hservice.mono hreached.later).methods
        (.cons ⟨htyped.name, htyped.input, htyped.output, htyped.payloads⟩ .nil)
    · rw [hserved]
      have hstart : AllSourced job
          (· ∈ job.servedAmong visited ++ [⟨path, verb, operation⟩])
          { s with scope := ["paths", path, verb.name] } :=
        (hall.imp fun _ => List.mem_append_left _).of_same (Facts.le_refl _) rfl rfl
      exact (hsourced (by simp) hstart).of_same (Facts.le_refl _) rfl rfl

/-- Adds the methods for all operations of the description to a service. -/
def addOperations (job : Job) (service : ServiceDraft) : M ServiceDraft :=
  job.document.paths.entries.foldlM
    (fun service entry => entry.2.operations.foldlM (addOperation job entry.1 entry.2) service)
    service

/-- What holds while the operations are visited, seen from the state that the visits start in. -/
structure Visits (job : Job) (name : String) (start : State) (visited : List Endpoint) (s : State)
    (service : ServiceDraft) : Prop where
  reached : Reached job start s
  typed : ServiceTyped job name visited s service
  sourced : AllSourced job (fun _ => False) start → AllSourced job (· ∈ job.servedAmong visited) s

/-- All operations are visited, path by path and of each path verb by verb. -/
theorem addOperations_sound {name : String} {service full : ServiceDraft}
    (h : addOperations job service s = .ok full s') (hs : Justified job s)
    (hname : service.name = name) (hnone : service.methods = [])
    (hfree : service.takenMethods = .empty) :
    Visits job name s job.document.endpoints s' full := by
  have hstart : Visits job name s [] s service :=
    { reached := .refl hs
      typed := ⟨hname, by rw [hnone]; exact .nil, .of_nil hnone hfree⟩
      sourced := fun hall => hall.imp fun _ hno => hno.elim }
  have hvisits := foldlM_visits (fun entry => entry.2.endpoints entry.1) (P := Visits job name s)
    (fun {visited service entry grown t t'} hitem hround hvisits => by
      rw [PathItem.endpoints_eq_map, List.map_eq_flatMap]
      refine foldlM_visits (fun entry' => [(⟨entry.1, entry'.1, entry'.2⟩ : Endpoint)])
        (P := Visits job name s) (fun hentry hround hvisits => ?_) hround hvisits
      obtain ⟨hreached, htyped, hsourced⟩ :=
        addOperation_sound hitem hentry hround hvisits.reached.justified hvisits.typed
      exact ⟨hvisits.reached.trans hreached, htyped, fun hall => hsourced (hvisits.sourced hall)⟩)
    h hstart
  exact hvisits

/-- The service is declared once all its methods are there, and only if there are any. -/
theorem declareService_eq_ok (h : declareService job s = .ok ⟨⟩ s') :
    ∃ service t,
      addOperations job { name := job.messageName (lastPart s.file.package) ++ "Service" } s =
        .ok service t ∧
      s' = if service.methods = [] then t else { t with file := t.file.addService service } := by
  simp only [declareService, bind_eq_ok, get_eq_ok] at h
  obtain ⟨s₀, s₁, ⟨hread, hkept⟩, service, t, hservice, h⟩ := h
  subst s₀ s₁
  refine ⟨service, t, hservice, ?_⟩
  split at h
  · rename_i hmethods
    rw [if_neg (by simpa using hmethods)]
    exact updateFile_eq_ok.mp h
  · rename_i hmethods
    rw [if_pos (by simpa using hmethods)]
    exact (pure_eq_ok.mp h).2

/-- The service visits all endpoints, and is declared if it has a method. -/
theorem declareService_sound (h : declareService job s = .ok ⟨⟩ s') (hs : Justified job s) :
    ∃ t service, Visits job (job.messageName (lastPart s.file.package) ++ "Service") s
        job.document.endpoints t service ∧
      (s' = t ∨ s' = { t with file := t.file.addService service }) := by
  obtain ⟨service, t, hservice, rfl⟩ := declareService_eq_ok h
  refine ⟨t, service, addOperations_sound hservice hs rfl rfl rfl, ?_⟩
  split
  · exact .inl rfl
  · exact .inr rfl

end

/-! ### Start and end -/

/-- Imports are all that changes when imports are added. -/
theorem foldl_addDependency_eq (names : List String) (file : FileDraft) :
    ∃ dependencies, names.foldl FileDraft.addDependency file = { file with dependencies } := by
  induction names generalizing file with
  | nil => exact ⟨file.dependencies, rfl⟩
  | cons name rest ih =>
    obtain ⟨dependencies, h⟩ := ih (file.addDependency name)
    exact ⟨dependencies, h⟩

/-- The names that are kept free are all that changes when names are kept free. -/
theorem foldl_reserve_eq (names : List String) (file : FileDraft) :
    ∃ reserved, names.foldl FileDraft.reserve file = { file with reserved } := by
  induction names generalizing file with
  | nil => exact ⟨file.reserved, rfl⟩
  | cons name rest ih =>
    obtain ⟨reserved, h⟩ := ih (file.reserve name)
    refine ⟨reserved, h.trans ?_⟩
    unfold FileDraft.reserve
    split <;> rfl

/-- Names that are kept free stay so, and those of the list are too. -/
theorem mem_reserved_foldl_reserve {names : List String} {file : FileDraft} {name : String}
    (h : name ∈ file.reserved ∨ name ∈ names) :
    name ∈ (names.foldl FileDraft.reserve file).reserved := by
  induction names generalizing file with
  | nil => simpa using h
  | cons first rest ih =>
    refine ih ?_
    have hfirst : first ∈ (file.reserve first).reserved := by
      unfold FileDraft.reserve
      split
      · rename_i hreserved
        exact List.contains_iff_mem.mp hreserved
      · simp
    have hkept : name ∈ file.reserved → name ∈ (file.reserve first).reserved := by
      unfold FileDraft.reserve
      split <;> simp +contextual
    rcases h with hold | hnew
    · exact .inl (hkept hold)
    · rcases List.mem_cons.mp hnew with rfl | hrest
      · exact .inl hfirst
      · exact .inr hrest

/-- A file that holds only finished messages of a list, each name once. -/
structure Prebuilt (finished : List MessageDescriptor) (package : String) (file : FileDraft) :
    Prop where
  messages : ∀ message ∈ file.messages, ∃ descriptor ∈ finished, message = .finished descriptor
  enums : file.enums = []
  services : file.services = []
  package : file.package = package
  names : file.typeNames.Nodup
  inStep : file.InStep

/-- A finished message comes into a file of finished ones, or is refused for its name. -/
theorem Prebuilt.addFinished {finished : List MessageDescriptor} {package : String}
    {file : FileDraft} (h : Prebuilt finished package file) {descriptor : MessageDescriptor}
    (hdescriptor : descriptor ∈ finished) :
    Prebuilt finished package (file.addFinished descriptor) := by
  have hstep := h.inStep.addFinished descriptor
  unfold FileDraft.addFinished at hstep ⊢
  split
  · exact h
  · rename_i htaken
    rw [if_neg htaken] at hstep
    rw [h.inStep.hasType_iff] at htaken
    refine { h with messages := ?_, names := ?_, inStep := hstep }
    · intro message hmessage
      rcases List.mem_append.mp hmessage with hold | hnew
      · exact h.messages message hold
      · exact ⟨descriptor, hdescriptor, List.mem_singleton.mp hnew⟩
    · refine (file.perm_typeNames_message (.finished descriptor)).nodup_iff.mpr ?_
      exact List.nodup_cons.mpr ⟨htaken, h.names⟩

/-- A run starts with the messages that the configuration gives. -/
theorem startFile_prebuilt (document : Document) (config : Config) :
    Prebuilt config.additionalMessages (packageFor document config)
      (startFile document config) := by
  have hfold : ∀ descriptors file, descriptors ⊆ config.additionalMessages →
      Prebuilt config.additionalMessages (packageFor document config) file →
      Prebuilt config.additionalMessages (packageFor document config)
        (descriptors.foldl FileDraft.addFinished file) := by
    intro descriptors
    induction descriptors with
    | nil => exact fun file _ hfile => hfile
    | cons descriptor rest ih =>
      intro file hsubset hfile
      obtain ⟨hdescriptor, hrest⟩ := List.cons_subset.mp hsubset
      exact ih _ hrest (hfile.addFinished hdescriptor)
  -- imports come first, and they leave everything else empty
  refine hfold _ _ (List.Subset.refl _) ?_
  obtain ⟨dependencies, h⟩ := foldl_addDependency_eq config.dependencies
    { name := lastPart (packageFor document config) ++ ".proto"
      package := packageFor document config
      packageComment := openingComment document.info }
  rw [h]
  exact ⟨by simp, rfl, rfl, rfl, by simp [FileDraft.typeNames], Registry.registers_empty⟩

/-- Nothing is settled at the start, so there is nothing to justify. -/
theorem justified_start (job : Job) :
    Justified job { file := startFile job.document job.config } := by
  have hfile := startFile_prebuilt job.document job.config
  refine ⟨?_, by simp, ?_, ?_, ?_, hfile.names, hfile.inStep⟩
  · intro before key result after hsplit
    simp at hsplit
  · intro draft hdraft
    obtain ⟨_, _, h⟩ := hfile.messages _ hdraft
    cases h
  · intro descriptor hdescriptor
    obtain ⟨_, hmem, h⟩ := hfile.messages _ hdescriptor
    cases h
    exact hmem
  · intro enum henum
    simp [hfile.enums] at henum

/-- There are no types yet that would need a source. -/
theorem allSourced_start (job : Job) (among : Endpoint → Prop) :
    AllSourced job among { file := startFile job.document job.config } := by
  have hfile := startFile_prebuilt job.document job.config
  constructor
  · intro draft hdraft
    obtain ⟨_, _, h⟩ := hfile.messages _ hdraft
    cases h
  · intro enum henum
    simp [hfile.enums] at henum

section

variable {job : Job} {s s' : State}

/-- Keeping the names of the components changes nothing else. -/
theorem keepNames_eq_ok (h : keepNames job s = .ok ⟨⟩ s') :
    ∃ reserved, s' = { s with file := { s.file with reserved } } := by
  obtain ⟨reserved, hreserved⟩ := foldl_reserve_eq
    ((job.document.components.schemas.keys ++ job.document.components.requestBodies.keys).map
      job.messageName) s.file
  unfold keepNames at h
  refine ⟨reserved, ?_⟩
  rw [← hreserved]
  exact updateFile_eq_ok.mp h

/-- Declaring the components keeps a state justified, and all of them become something. -/
theorem declareEntries_sound {t : State}
    (hschemas : (job.document.components.schemas.entries.forM fun entry => do
      let _ ← job.engine.component entry.1 entry.2) s = .ok ⟨⟩ t)
    (hbodies : (job.document.components.requestBodies.entries.forM fun entry => do
      let _ ← job.engine.requestBody entry.1 entry.2) t = .ok ⟨⟩ s')
    (hs : Justified job s) :
    Grown job s s' ∧
      (∀ key ∈ job.document.components.schemas.keys,
        ∃ result, s'.schemas.lookup key = some result) ∧
      ∀ key ∈ job.document.components.requestBodies.keys,
        ∃ result, s'.bodies.lookup key = some result := by
  -- an entry has a result after its round, and later rounds keep it
  obtain ⟨hgrown, hschemas⟩ := forM_sound
    (P := fun t entry => ∃ result, t.schemas.lookup entry.1 = some result)
    (fun {entry t t'} hentry hround ht => by
      simp only [bind_eq_ok, pure_eq_ok] at hround
      obtain ⟨result, _, hround, -, rfl⟩ := hround
      obtain ⟨hgrown, hlookup⟩ := job.engine_sound.component hround
        (Table.find?_eq_some_iff.mpr hentry) ht
      exact ⟨hgrown, result, hlookup⟩)
    (fun hlater ⟨result, hresult⟩ => by
      exact ⟨result, lookup_of_extended hlater.facts_le.schemas hresult⟩)
    hschemas hs
  obtain ⟨hgrown', hbodies⟩ := forM_sound
    (P := fun t entry => ∃ result, t.bodies.lookup entry.1 = some result)
    (fun {entry t t'} hentry hround ht => by
      simp only [bind_eq_ok, pure_eq_ok] at hround
      obtain ⟨result, _, hround, -, rfl⟩ := hround
      obtain ⟨hgrown, hlookup⟩ := job.engine_sound.requestBody hround
        (Table.find?_eq_some_iff.mpr hentry) ht
      exact ⟨hgrown, result, hlookup⟩)
    (fun hlater ⟨result, hresult⟩ => by
      exact ⟨result, lookup_of_extended hlater.facts_le.bodies hresult⟩)
    hbodies hgrown.justified
  refine ⟨hgrown.trans hgrown', ?_, ?_⟩
  · intro key hkey
    obtain ⟨entry, hentry, rfl⟩ := List.mem_map.mp hkey
    obtain ⟨result, hresult⟩ := hschemas entry hentry
    exact ⟨result, lookup_of_extended hgrown'.later.facts_le.schemas hresult⟩
  · intro key hkey
    obtain ⟨entry, hentry, rfl⟩ := List.mem_map.mp hkey
    exact hbodies entry hentry

/-- When all components are declared, each of them is settled. -/
theorem declareComponents_sound (h : declareComponents job s = .ok ⟨⟩ s') (hs : Justified job s) :
    ∃ reserved, Grown job { s with file := { s.file with reserved } } s' ∧
      (∀ key ∈ job.document.components.schemas.keys,
        ∃ result, s'.schemas.lookup key = some result) ∧
      ∀ key ∈ job.document.components.requestBodies.keys,
        ∃ result, s'.bodies.lookup key = some result := by
  simp only [declareComponents, bind_eq_ok] at h
  obtain ⟨_, t, hkeep, _, u, hschemas, hbodies⟩ := h
  obtain ⟨reserved, rfl⟩ := keepNames_eq_ok hkeep
  exact ⟨reserved, declareEntries_sound hschemas hbodies (hs.of_same rfl rfl rfl rfl rfl rfl)⟩

/-- The names of the components stay registered. -/
theorem declareComponents_reserved (h : declareComponents job s = .ok ⟨⟩ s')
    (hs : Justified job s) : ∀ name ∈ job.componentNames, name ∈ s'.file.reserved := by
  simp only [declareComponents, bind_eq_ok] at h
  obtain ⟨_, t, hkeep, _, u, hschemas, hbodies⟩ := h
  obtain ⟨reserved, ht⟩ := keepNames_eq_ok hkeep
  have hnames : ∀ name ∈ job.componentNames, name ∈ t.file.reserved := by
    unfold keepNames at hkeep
    rw [updateFile_eq_ok.mp hkeep]
    exact fun name hname => mem_reserved_foldl_reserve (.inr hname)
  subst ht
  obtain ⟨hgrown, -⟩ :=
    declareEntries_sound hschemas hbodies (hs.of_same rfl rfl rfl rfl rfl rfl)
  rw [hgrown.later.reserved]
  exact hnames

/-- A compilation that succeeds leaves an outcome. -/
theorem compileDocument_outcome
    (h : compileDocument job { file := startFile job.document job.config } = .ok ⟨⟩ s) :
    Outcome job s := by
  simp only [compileDocument, bind_eq_ok] at h
  obtain ⟨_, t, hcomponents, h⟩ := h
  have hfile := startFile_prebuilt job.document job.config
  -- there is no service until the components are done
  obtain ⟨reserved, hgrown, hschemas, hbodies⟩ :=
    declareComponents_sound hcomponents (justified_start job)
  have hsourced : AllSourced job (fun _ => False) t :=
    hgrown.sourced ((allSourced_start job _).of_same (Facts.le_refl _) rfl rfl)
  have hservices : t.file.services = [] := hgrown.later.services.trans hfile.services
  have hpackage : t.file.package = packageFor job.document job.config :=
    hgrown.later.package.trans hfile.package
  split at h
  · obtain ⟨u, service, hvisits, hend⟩ := declareService_sound h hgrown.justified
    have hreached := hvisits.reached
    have hle := hreached.later.facts_le
    have hu : Outcome job u :=
      { justified := hreached.justified
        sourced := hvisits.sourced hsourced
        schemas := fun key hkey =>
          have ⟨result, hresult⟩ := hschemas key hkey
          ⟨result, lookup_of_extended hle.schemas hresult⟩
        bodies := fun key hkey =>
          have ⟨result, hresult⟩ := hbodies key hkey
          ⟨result, lookup_of_extended hle.bodies hresult⟩
        operations := by simp [hreached.later.services.trans hservices]
        package := hreached.later.package.trans hpackage
        services := .inl (hreached.later.services.trans hservices) }
    rcases hend with rfl | rfl
    · exact hu
    -- the service is the only one
    · have hadded : u.file.addService service = { u.file with services := [service] } := by
        simp [FileDraft.addService, FileDraft.hasService, hreached.later.services.trans hservices]
      rw [hadded]
      refine
        { hu with
          justified := hu.justified.of_same rfl rfl rfl rfl rfl rfl
          sourced := hu.sourced.of_same (Facts.le_refl _) rfl rfl
          operations := ?_
          services := .inr ⟨_, _, rfl, hvisits.typed.name⟩ }
      intro other hother
      cases List.mem_singleton.mp hother
      exact hvisits.typed.methods.imp fun _ _ hmethod =>
        ⟨hmethod.name, hmethod.input, hmethod.output, hmethod.payloads⟩
  · obtain ⟨-, rfl⟩ := pure_eq_ok.mp h
    exact
      { justified := hgrown.justified
        sourced := hsourced.imp fun _ hno => hno.elim
        schemas := hschemas
        bodies := hbodies
        operations := by simp [hservices]
        package := hpackage
        services := .inl hservices }

end

/-- The file that is handed out has been built from the outcome of a compilation. -/
theorem compile_eq_ok {document : Document} {config : Config} {out : Output}
    (h : compile document config = .ok out) :
    ∃ s, compileDocument ⟨document, config⟩ { file := startFile document config } = .ok ⟨⟩ s ∧
      Outcome ⟨document, config⟩ s ∧ out.file = s.file.build := by
  unfold compile at h
  split at h
  · rename_i s hrun
    cases h
    exact ⟨s, hrun, compileDocument_outcome hrun, rfl⟩
  · cases h

/-! ### Small descriptions -/

/-- A description of schema components and nothing else. -/
def descriptionOf (schemas : List (String × SchemaNode)) : Document :=
  { (default : Document) with
    components := { (default : OpenApi.Components) with schemas := .ofList schemas } }

/-- An object with properties. -/
def objectNode (properties : List (String × SchemaNode)) (title : Option String := none) :
    SchemaNode :=
  .inline { title, shape := .object properties [] }

/-- A text without a format. -/
def textNode : SchemaNode :=
  .inline { shape := .string none }

/-- An operation that takes a message. -/
def operationWith (message : SchemaNode) : Operation :=
  { requestBody := some (.inline
      { content := .ofList [("application/json", { schema := some message })] }) }

/-- Does a step succeed, with a result and a state that pass a check? -/
def succeedsWith {α : Type} (step : M α) (s : State) (check : α → State → Bool) : Bool :=
  match step s with
  | .ok a t => check a t
  | .error _ _ => false

/-- A step that has been run to a checked end succeeds, and the check holds. -/
theorem exists_of_succeedsWith {α : Type} {step : M α} {s : State} {check : α → State → Bool}
    (h : succeedsWith step s check = true) :
    ∃ a t, step s = .ok a t ∧ check a t = true := by
  unfold succeedsWith at h
  split at h
  · rename_i a t hrun
    exact ⟨a, t, hrun, h⟩
  · cases h

/-- Is the description compiled, and does the state at the end pass a check? -/
def compilesTo (document : Document) (config : Config) (check : State → Bool) : Bool :=
  match compileDocument ⟨document, config⟩ { file := startFile document config } with
  | .ok _ s => check s
  | .error _ _ => false

/-- A description that has been compiled to a checked end compiles, and the check holds of the last
state. -/
theorem exists_of_compilesTo {document : Document} {config : Config} {check : State → Bool}
    (h : compilesTo document config check = true) :
    ∃ out s, compile document config = .ok out ∧ out.file = s.file.build ∧
      compileDocument ⟨document, config⟩ { file := startFile document config } = .ok ⟨⟩ s ∧
      check s = true := by
  unfold compilesTo at h
  split at h
  · rename_i s hrun
    refine ⟨⟨s.file.build, s.warnings⟩, s, ?_, rfl, hrun, h⟩
    rw [compile, hrun]
  · cases h

end Protoscribe.Compile
