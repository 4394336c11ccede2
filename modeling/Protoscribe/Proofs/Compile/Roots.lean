import Protoscribe.Proofs.Compile.Blame
import Protoscribe.Proofs.Compile.Outcome
import Protoscribe.Proofs.OpenApi.Depth

/-!
# `Protoscribe.Proofs.Compile.Roots`: the calls that a compilation starts with

All calls of a compilation come from its components and its operations. A job covers a call when its
component is one of the document, or its schema is nested no deeper than the deepest one of the
document (`Job.Covers`). A call leads to covered calls only (`Calls.covered`), and so do components
and operations: when declaring them fails with an error of the recursion, a covered call fails, or
the references between parameters, request bodies or responses cannot be followed
(`declareComponents_fails`, `declareService_fails`).
-/

set_option autoImplicit false

namespace Protoscribe.Compile

open OpenApi (Document Operation Parameter PathItem Referable RequestBody Response Schema SchemaNode
  Section Shape Verb nodeDepth shapeDepth)

variable {job : Job} {bad : CompileError → Prop} {s : State}

/-! ### Covered calls -/

/-- The call is about a component of the document, or about a schema that is nested no deeper than
the deepest one of the document. -/
def Job.Covers (job : Job) : Call → Prop
  | .node _ node => nodeDepth node ≤ job.document.deepest
  | .schema _ schema => schema.depth ≤ job.document.deepest
  | .absorb _ node => nodeDepth node ≤ job.document.deepest
  | .component key node => job.document.components.schemas.find? key = some node
  | .requestBody key body => job.document.components.requestBodies.find? key = some body

/-- What stands in a schema is less deep. -/
theorem nodeDepth_le_of_mem_memberSlots {name : String} {shape : Shape SchemaNode} {slot : Slot}
    {node : SchemaNode} (h : (slot, node) ∈ memberSlots name shape) :
    nodeDepth node ≤ shapeDepth shape := by
  cases shape with
  | oneOf variants =>
    rw [shapeDepth]
    exact OpenApi.nodeDepth_le_nodesDepth (mem_of_mem_variantSlots h)
  | anyOf variants =>
    rw [shapeDepth]
    exact OpenApi.nodeDepth_le_nodesDepth (mem_of_mem_variantSlots h)
  | allOf variants properties required =>
    obtain ⟨key, hproperty⟩ := exists_mem_of_mem_propertySlots h
    rw [shapeDepth]
    exact Nat.le_trans (OpenApi.nodeDepth_le_propertiesDepth hproperty) (Nat.le_max_right _ _)
  | object properties required =>
    obtain ⟨key, hproperty⟩ := exists_mem_of_mem_propertySlots h
    rw [shapeDepth]
    exact OpenApi.nodeDepth_le_propertiesDepth hproperty
  | array items =>
    cases items with
    | none => simp [memberSlots] at h
    | some items =>
      cases List.mem_singleton.mp h
      exact Nat.le_of_eq (by rw [shapeDepth])
  | _ => simp [memberSlots] at h

/-- References do not lead out of the depth of their table. -/
theorem LeadsTo.depth_le {α : Type} {part : Section} {table : Table (Referable α)}
    {node : Referable α} {item : α} {depth : α → Nat} {bound : Nat}
    (h : LeadsTo part table node item) (hnode : node.depth depth ≤ bound)
    (htable : ∀ {key target}, table.find? key = some target → target.depth depth ≤ bound) :
    depth item ≤ bound :=
  h.keeps (P := fun node => node.depth depth ≤ bound) hnode htable

/-- A component that shares a name is one of the description. -/
theorem Namesake.covered {chain : List String} {name : String} {call : Call}
    (h : Namesake job chain name call) : job.Covers call := by
  cases h with
  | schema hfound _ => exact Table.find?_eq_some_iff.mpr (List.mem_of_find?_eq_some hfound)
  | body _ hfound _ => exact Table.find?_eq_some_iff.mpr (List.mem_of_find?_eq_some hfound)

/-- The calls for a slot are about schemas of the description if the slot is. -/
theorem SlotCalls.covered {slot : Slot} {chain : List String} {node : SchemaNode} {call : Call}
    (h : SlotCalls job slot chain node call) (hnode : nodeDepth node ≤ job.document.deepest) :
    job.Covers call := by
  cases h with
  | compile => simpa [Job.Covers] using hnode
  | reference _ htarget => exact htarget
  | namesake _ _ _ _ hcall => exact hcall.covered

/-- A covered call leads to covered calls. -/
theorem Calls.covered {caller callee : Frame} (h : Calls job caller callee)
    (hcaller : job.Covers caller.call) : job.Covers callee.call := by
  -- a call in place goes down, and one through a reference starts at a component again
  cases h with
  | inline => simpa [Job.Covers] using hcaller
  | expand _ htarget _ => exact Document.nodeDepth_le_deepest htarget
  | absorbInline _ => simpa [Job.Covers] using hcaller
  | absorbExpand _ htarget _ => exact Document.nodeDepth_le_deepest htarget
  | value hshape =>
    simp only [Job.Covers, Schema.depth_eq, hshape, shapeDepth] at hcaller ⊢
    omega
  | variant hshape hvariant _ =>
    have hdepth := OpenApi.nodeDepth_le_nodesDepth hvariant
    simp only [Job.Covers, Schema.depth_eq, hshape, shapeDepth] at hcaller ⊢
    omega
  | slot hslot hcall =>
    have hdepth := nodeDepth_le_of_mem_memberSlots hslot
    simp only [Job.Covers, Schema.depth_eq] at hcaller
    exact hcall.covered (by omega)
  | component _ => exact Document.nodeDepth_le_deepest hcaller
  | bodyReference _ _ _ _ htarget => exact htarget
  | bodySchema _ hleads hschema =>
    have hcontent := hleads.depth_le (Document.bodyDepth_le_deepest hcaller)
      Document.bodyDepth_le_deepest
    have hdepth := OpenApi.Content.nodeDepth_le_depth hschema
    simp only [Job.Covers, OpenApi.nodeDepth_inline] at hdepth ⊢
    omega

/-! ### Components -/

/-- The calls for the components of the document. -/
inductive ComponentCall (job : Job) : Call → Prop
  | schema {key : String} {node : SchemaNode}
      (hentry : job.document.components.schemas.find? key = some node) :
      ComponentCall job (.component key node)
  | body {key : String} {body : Referable RequestBody}
      (hentry : job.document.components.requestBodies.find? key = some body) :
      ComponentCall job (.requestBody key body)

/-- The calls that declare components are about components of the description. -/
theorem ComponentCall.covered {call : Call} (h : ComponentCall job call) : job.Covers call := by
  cases h with
  | schema hentry => exact hentry
  | body hentry => exact hentry

/-- Keeping the names of the components cannot fail. -/
theorem infallible_keepNames (job : Job) : Infallible (keepNames job) := by
  unfold keepNames
  exact .updateFile _

/-- One round of declaring components takes the run on. -/
theorem declareSchemas_grown {entry : String × SchemaNode} {t u : State}
    (hentry : entry ∈ job.document.components.schemas.entries)
    (h : (do let _ ← job.engine.component entry.1 entry.2 : M PUnit) t = .ok ⟨⟩ u)
    (ht : Justified job t) : Grown job t u := by
  simp only [bind_eq_ok, pure_eq_ok] at h
  obtain ⟨result, _, hcall, -, rfl⟩ := h
  exact (job.engine_sound.component hcall (Table.find?_eq_some_iff.mpr hentry) ht).1

/-- Declaring the components fails in the call for one of them. -/
theorem declareComponents_fails (h : Fails bad (declareComponents job) s) (hs : Justified job s) :
    ∃ call t, ComponentCall job call ∧ Justified job t ∧ t.chain = s.chain ∧
      job.engine.Fails bad call t := by
  rw [declareComponents, fails_bind] at h
  rcases h with hkeep | ⟨_, t, hkeep, h⟩
  · exact absurd hkeep (infallible_keepNames job).not_fails
  obtain ⟨reserved, rfl⟩ := keepNames_eq_ok hkeep
  have hstart : Grown job { s with file := { s.file with reserved } }
      { s with file := { s.file with reserved } } := .refl (hs.of_same rfl rfl rfl rfl rfl rfl)
  -- a round for a schema fails, or all of these are over and one for a body fails
  rcases fails_bind.mp h with hschemas | ⟨_, u, hschemas, hbodies⟩
  · obtain ⟨entry, hentry, t, hgrown, hround⟩ := fails_forM
      (fun hentry hround hgrown =>
        hgrown.trans (declareSchemas_grown hentry hround hgrown.justified)) hschemas hstart
    simp only [fails_bind, not_fails_pure, and_false, exists_false, or_false] at hround
    exact ⟨_, t, .schema (Table.find?_eq_some_iff.mpr hentry), hgrown.justified,
      hgrown.later.chain, hround⟩
  · have hdeclared := (forM_sound (P := fun _ _ => True)
      (fun hentry hround ht => ⟨declareSchemas_grown hentry hround ht, trivial⟩)
      (fun _ _ => trivial) hschemas hstart.justified).1
    obtain ⟨entry, hentry, t, hgrown, hround⟩ := fails_forM
      (fun {entry t u} hentry hround hgrown => by
        simp only [bind_eq_ok, pure_eq_ok] at hround
        obtain ⟨result, _, hcall, -, rfl⟩ := hround
        exact hgrown.trans (job.engine_sound.requestBody hcall
          (Table.find?_eq_some_iff.mpr hentry) hgrown.justified).1)
      hbodies (hstart.trans hdeclared)
    simp only [fails_bind, not_fails_pure, and_false, exists_false, or_false] at hround
    exact ⟨_, t, .body (Table.find?_eq_some_iff.mpr hentry), hgrown.justified,
      hgrown.later.chain, hround⟩

/-! ### Operations -/

/-- The references between parameters, request bodies or responses cannot be followed. -/
inductive FollowFails (job : Job) (bad : CompileError → Prop) : Prop
  | parameters {node : Referable Parameter} {t : State}
      (h : Fails bad (follow .parameters job.document.components.parameters node) t)
  | bodies {node : Referable RequestBody} {t : State}
      (h : Fails bad (follow .requestBodies job.document.components.requestBodies node) t)
  | responses {node : Referable Response} {t : State}
      (h : Fails bad (follow .responses job.document.components.responses node) t)

/-- References cannot be followed, or a covered call fails now or later. -/
def RootFails (job : Job) (bad : CompileError → Prop) (s : State) : Prop :=
  FollowFails job bad ∨ FailsLater job job.engine bad job.Covers s

/-- What fails after a step fails after the state in front of the step too. -/
theorem RootFails.of_extends {t : State} (h : RootFails job bad t) (hlater : Extends s t) :
    RootFails job bad s :=
  h.imp_right (·.of_extends hlater)

/-- What fails in a step fails in a longer breadcrumb too. -/
theorem rootFails_within {α : Type} {part : String} {step : M α}
    (h : Fails bad (within part step) s) (hs : Justified job s)
    (hstep : ∀ {t : State}, Fails bad step t → Justified job t → RootFails job bad t) :
    RootFails job bad s := by
  rcases hstep (fails_within.mp h) (hs.of_eq rfl rfl rfl) with hfollow | ⟨call, u, hfails⟩
  · exact .inl hfollow
  · exact .inr ⟨call, u, hfails⟩

/-- A loop fails in one of its rounds, where what the rounds before keep still holds. -/
theorem rootFails_foldlM {α γ : Type} {round : α → γ → M α} {P : State → α → Prop} {items : List γ}
    {init : α} (h : Fails bad (items.foldlM round init) s) (hs : Justified job s) (hinit : P s init)
    (hsound : ∀ {a item b t u}, item ∈ items → round a item t = .ok b u → Justified job t → P t a →
      Reached job t u ∧ P u b)
    (hround : ∀ {a item t}, item ∈ items → Fails bad (round a item) t → Justified job t → P t a →
      RootFails job bad t) : RootFails job bad s := by
  obtain ⟨item, hitem, a, t, ⟨hreached, ha⟩, hfails⟩ :=
    fails_foldlM (P := fun t a => Reached job s t ∧ P t a)
      (fun hitem hround ⟨hreached, ha⟩ =>
        have ⟨hreached', hb⟩ := hsound hitem hround hreached.justified ha
        ⟨hreached.trans hreached', hb⟩)
      h ⟨.refl hs, hinit⟩
  exact (hround hitem hfails hreached.justified ha).of_extends hreached.later

/-- If a field of a payload fails, it is a call that is about the description. -/
theorem addMember_rootFails {parent : MessageDraft} {name : String} {property : SchemaNode}
    {required : Bool} {comment : Option String} (hbad : OfRecursion bad)
    (hdepth : nodeDepth property ≤ job.document.deepest)
    (h : Fails bad (addMember job.engine job parent name property required comment) s)
    (hs : Justified job s) : RootFails job bad s :=
  .inr ((addMember_fails job.engine_sound hbad h hs).imp fun _ hcall => hcall.covered hdepth)

/-- If the field of a parameter fails, it is a call for its schema. -/
theorem addParameterField_fails (hbad : OfRecursion bad) {request : MessageDraft}
    {parameter : Parameter} (hdepth : parameter.depth ≤ job.document.deepest)
    (h : Fails bad (addParameterField job request parameter) s) (hs : Justified job s) :
    RootFails job bad s := by
  unfold addParameterField at h
  split at h
  · exact absurd h not_fails_pure
  · cases hschema : parameter.schema with
    | none =>
      simp only [hschema] at h
      refine absurd h (Infallible.not_fails ?_)
      exact .bind .place fun _ => .bind (.warn _) fun _ => .pure _
    | some schema =>
      simp only [hschema] at h
      have hnode := OpenApi.Parameter.nodeDepth_le_depth hschema
      exact rootFails_within h hs fun hmember ht =>
        addMember_rootFails hbad (by omega) hmember ht

/-- If the field of a body fails, it is a call for its schema. -/
theorem addPayload_fails (hbad : OfRecursion bad) {message : MessageDraft} {field : String}
    {payload : SchemaNode} {required : Bool} (hdepth : nodeDepth payload ≤ job.document.deepest)
    (h : Fails bad (addPayload job message field payload required) s) (hs : Justified job s) :
    RootFails job bad s := by
  cases payload with
  | ref reference =>
    have h : Fails bad
        (addMember job.engine job message field (.ref reference) required none) s := h
    exact addMember_rootFails hbad hdepth h hs
  | inline schema =>
    simp only [addPayload] at h
    split at h
    · rw [fails_bind] at h
      rcases h with hschema | ⟨compiled, t, -, h⟩
      · have hcovers : job.Covers (.schema message.name schema) := by
          simpa [Job.Covers] using hdepth
        exact .inr (.of_now hcovers hs hschema)
      · cases compiled <;> exact absurd h not_fails_pure
    · exact addMember_rootFails hbad hdepth h hs

/-- If a parameter of a path fails, it is a circle of references or a call for its schema. -/
theorem sharedParameter_fails (hbad : OfRecursion bad) {operation : Operation}
    {request : MessageDraft} {node : Referable Parameter}
    (hdepth : node.depth Parameter.depth ≤ job.document.deepest)
    (h : Fails bad (do
      let parameter ← followParameter job node
      if isOverridden operation parameter then pure request
      else addParameterField job request parameter : M MessageDraft) s)
    (hs : Justified job s) : RootFails job bad s := by
  rcases fails_bind.mp h with hfollow | ⟨parameter, t, hfollow, h⟩
  · exact .inl (.parameters hfollow)
  · cases follow_eq_ok hfollow
    split at h
    · exact absurd h not_fails_pure
    · exact addParameterField_fails hbad ((leadsTo_of_followFrom hfollow).depth_le hdepth
        Document.parameterDepth_le_deepest) h hs

/-- If a parameter of an operation fails, it is a circle of references or a call for its schema. -/
theorem ownParameter_fails (hbad : OfRecursion bad) {request : MessageDraft}
    {node : Referable Parameter} (hdepth : node.depth Parameter.depth ≤ job.document.deepest)
    (h : Fails bad
      (do addParameterField job request (← followParameter job node) : M MessageDraft) s)
    (hs : Justified job s) : RootFails job bad s := by
  rcases fails_bind.mp h with hfollow | ⟨parameter, t, hfollow, h⟩
  · exact .inl (.parameters hfollow)
  · cases follow_eq_ok hfollow
    exact addParameterField_fails hbad ((leadsTo_of_followFrom hfollow).depth_le hdepth
      Document.parameterDepth_le_deepest) h hs

section

variable {path : String} {item : PathItem} {verb : Verb} {operation : Operation}

/-- If the parameters of an operation fail, one of them does. -/
theorem addParameters_fails (hbad : OfRecursion bad)
    (hitem : (path, item) ∈ job.document.paths.entries)
    (hentry : (verb, operation) ∈ item.operations) {request : MessageDraft}
    (h : Fails bad (addParameters job item operation request) s) (hs : Justified job s) :
    RootFails job bad s := by
  rw [addParameters, fails_bind] at h
  rcases h with hshared | ⟨shared, t, hshared, hown⟩
  · exact rootFails_foldlM (P := fun _ _ => True) hshared hs trivial
      (fun _ hround ht _ => ⟨(sharedParameter_sound hround ht).1.toReached, trivial⟩)
      (fun hnode hround ht _ => sharedParameter_fails hbad
        (Document.sharedParameterDepth_le_deepest hitem hnode) hround ht)
  · obtain ⟨hgrown, -⟩ :=
      foldlM_parameters_sound (fun hround => sharedParameter_sound hround) hshared hs
    refine (rootFails_foldlM (P := fun _ _ => True) hown hgrown.justified trivial
      (fun _ hround ht _ => ⟨(ownParameter_sound hround ht).1.toReached, trivial⟩)
      (fun hnode hround ht _ => ownParameter_fails hbad ?_ hround ht)).of_extends hgrown.later
    have hparameter := OpenApi.Operation.parameterDepth_le_depth hnode
    have hoperation := Document.operationDepth_le_deepest hitem hentry
    omega

/-- If the request body is not found, it is a circle of references. -/
theorem bodySchema_fails (h : Fails bad (bodySchema job operation) s) : FollowFails job bad := by
  unfold bodySchema at h
  split at h
  · exact absurd h not_fails_pure
  · simp only [fails_bind, not_fails_pure, and_false, exists_false, or_false] at h
    exact .bodies h

/-- The schema of the body of an operation is not deeper than the operation or the request
bodies. -/
theorem nodeDepth_le_of_bodySchema (hoperation : operation.depth ≤ job.document.deepest)
    {schema : SchemaNode} {required : Bool} {t : State}
    (h : bodySchema job operation s = .ok (some (schema, required)) t) :
    nodeDepth schema ≤ job.document.deepest := by
  obtain ⟨body, ⟨definition, hbody, hleads⟩, hjson, -⟩ := bodyOf_of_bodySchema h
  have hdefinition := OpenApi.Operation.bodyDepth_le_depth hbody
  have hcontent := hleads.depth_le (by omega) Document.bodyDepth_le_deepest
  have hdepth := OpenApi.Content.nodeDepth_le_depth hjson
  omega

/-- If a response message fails, it is a circle of references or a call for its schema. -/
theorem compileResponse_fails (hbad : OfRecursion bad)
    (hoperation : operation.depth ≤ job.document.deepest) {name : String}
    (h : Fails bad (compileResponse job name operation) s) (hs : Justified job s) :
    RootFails job bad s := by
  rw [compileResponse, fails_bind] at h
  rcases h with hsuccess | ⟨success, t, hsuccess, h⟩
  · unfold successResponse at hsuccess
    split at hsuccess
    · exact absurd hsuccess not_fails_pure
    · exact .inl (.responses (fails_map.mp hsuccess))
  · cases successResponse_eq_ok hsuccess
    cases success with
    | none => exact absurd h not_fails_pure
    | some response =>
      cases hschema : response.content.jsonSchema? with
      | none =>
        simp only [hschema] at h
        exact absurd h not_fails_pure
      | some schema =>
        simp only [hschema] at h
        -- the schema of the response is no deeper than the description
        refine rootFails_within h hs fun hpayload ht => addPayload_fails hbad ?_ hpayload ht
        obtain ⟨definition, hresponse, hleads⟩ := (successOf_iff hsuccess response).mpr rfl
        have hdefinition := OpenApi.Operation.responseDepth_le_depth hresponse
        have hcontent := hleads.depth_le (by omega) Document.responseDepth_le_deepest
        have hdepth := OpenApi.Content.nodeDepth_le_depth hschema
        omega

/-- Naming the type of a payload cannot fail. -/
theorem infallible_payloadType (message : MessageDraft) : Infallible (payloadType message) := by
  unfold payloadType
  split
  · exact .bind (.updateFile _) fun _ => .pure _
  · refine .bind .get fun state => ?_
    dsimp only
    split
    · exact .bind (.warn _) fun _ => .bind (.updateFile _) fun _ => .pure _
    · exact .bind (.updateFile _) fun _ => .pure _

/-- Adding the HTTP rule to a method cannot fail. -/
theorem infallible_annotate (annotated : Bool) (method mapped : MethodDraft) :
    Infallible (if annotated then do
      updateFile (·.addDependency annotationsFile)
      pure mapped
    else pure method : M MethodDraft) := by
  cases annotated with
  | true => exact .bind (.updateFile _) fun _ => .pure _
  | false => exact .pure _

/-- If a method fails, one of its payloads does. -/
theorem methodFor_fails (hbad : OfRecursion bad)
    (hitem : (path, item) ∈ job.document.paths.entries)
    (hentry : (verb, operation) ∈ item.operations)
    (h : Fails bad (methodFor job (job.methodName path verb) path verb item operation) s)
    (hs : Justified job s) : RootFails job bad s := by
  have hoperation := Document.operationDepth_le_deepest hitem hentry
  simp only [methodFor, fails_bind] at h
  rcases h with hparameters | ⟨parameters, t, hparameters, h⟩
  · exact addParameters_fails hbad hitem hentry hparameters hs
  obtain ⟨hgrown, -⟩ := addParameters_sound hparameters hs
  refine RootFails.of_extends ?_ hgrown.later
  rcases h with hbody | ⟨body, _, hbody, h⟩
  · exact .inl (bodySchema_fails hbody)
  cases bodySchema_eq_ok hbody
  -- once both messages are compiled, nothing fails any more
  cases body with
  | none =>
    simp only [fails_bind, pure_eq_ok, not_fails_pure, (infallible_payloadType _).not_fails,
      (infallible_annotate _ _ _).not_fails, and_false, exists_false, or_false, false_or] at h
    obtain ⟨_, _, ⟨rfl, rfl⟩, h⟩ := h
    exact compileResponse_fails hbad hoperation h hgrown.justified
  | some body =>
    obtain ⟨schema, required⟩ := body
    simp only [fails_bind, (infallible_payloadType _).not_fails,
      (infallible_annotate _ _ _).not_fails, and_false, exists_false, or_false] at h
    rcases h with hrequest | ⟨request, u, hrequest, h⟩
    · exact rootFails_within hrequest hgrown.justified fun hadd ht =>
        addPayload_fails hbad (nodeDepth_le_of_bodySchema hoperation hbody) hadd ht
    · obtain ⟨v, hv, rfl⟩ := within_eq_ok.mp hrequest
      obtain ⟨hgrown', -⟩ := addPayload_sound hv (hgrown.justified.of_eq rfl rfl rfl)
      have hrestored : Grown job t { v with scope := v.scope.dropLast } := hgrown'.within
      exact (compileResponse_fails hbad hoperation h hrestored.justified).of_extends hrestored.later

/-- If an operation fails, its method does. -/
theorem addOperation_fails (hbad : OfRecursion bad)
    (hitem : (path, item) ∈ job.document.paths.entries)
    (hentry : (verb, operation) ∈ item.operations) {service : ServiceDraft}
    (h : Fails bad (addOperation job path item service (verb, operation)) s)
    (hs : Justified job s) : RootFails job bad s := by
  simp only [addOperation] at h
  split at h
  · exact absurd h not_fails_pure
  · split at h
    · exact absurd h (Infallible.not_fails (.bind (.warn _) fun _ => .pure _))
    · simp only [fails_bind, not_fails_pure, and_false, exists_false, or_false, fails_under] at h
      rcases methodFor_fails hbad hitem hentry h (hs.of_eq rfl rfl rfl)
        with hfollow | ⟨call, t, hfails⟩
      · exact .inl hfollow
      · exact .inr ⟨call, t, hfails⟩

end

/-- Declaring the service fails because references cannot be followed, or because a covered call
fails. -/
theorem declareService_fails (hbad : OfRecursion bad) (h : Fails bad (declareService job) s)
    (hs : Justified job s) : RootFails job bad s := by
  simp only [declareService, fails_bind, get_eq_ok, not_fails_get, false_or] at h
  obtain ⟨_, _, ⟨rfl, rfl⟩, hloop | ⟨service, t, -, h⟩⟩ := h
  · -- the rounds in front of the one that fails leave a justified state
    exact rootFails_foldlM (P := fun _ _ => True) hloop hs trivial
      (fun hitem hround ht _ => foldlM_sound (P := fun _ _ => True)
        (fun hentry hround ht _ => ⟨addOperation_reached hitem hentry hround ht, trivial⟩)
        hround ht trivial)
      (fun hitem hround ht _ => rootFails_foldlM (P := fun _ _ => True) hround ht trivial
        (fun hentry hround ht _ => ⟨addOperation_reached hitem hentry hround ht, trivial⟩)
        (fun hentry hround ht _ => addOperation_fails hbad hitem hentry hround ht))
  · split at h
    · exact absurd h (Infallible.updateFile _).not_fails
    · exact absurd h not_fails_pure

end Protoscribe.Compile
