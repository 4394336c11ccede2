import Protoscribe.Proofs.Additions
import Protoscribe.Proofs.Draft.Nested

/-!
# `Protoscribe.Proofs.ParameterOverrides`: which of two parameters an operation takes

A path and an operation on it can both define a parameter of one name and location, and the one of
the operation is meant. The parameters of the path come first, and of several fields of one name a
message takes the first, so the operation has its way only where the parameter of the path offers no
field. `isOverridden` sees to that for a parameter that the operation spells out, and not for one
that it refers to.

The loops over the parameters forget which parameter a field came from. `parameterRounds` runs them
and writes down, for each parameter, the field that it offered (`map_fst_parameterRounds`). Fields
that are offered under one name go to the first (`Rounds.fieldNamed`), and a body that comes behind
takes no name that is taken.
-/

set_option autoImplicit false

namespace Protoscribe

/-- The field of a message that has the name. -/
def MessageDraft.fieldNamed (draft : MessageDraft) (name : String) : Option FieldDraft :=
  draft.fields.find? fun field => field.name == name

namespace MessageDraft

variable {draft other : MessageDraft} {name : String}

/-- There is no field of a name exactly when the name is not taken. -/
theorem InStep.fieldNamed_eq_none_iff (h : InStep draft) :
    draft.fieldNamed name = none ↔ draft.hasField name = false := by
  rw [Bool.eq_false_iff, ne_eq, h.hasField_iff]
  simp [fieldNamed, fieldNames]

/-- A field that is offered is found under its name when the name was free. -/
theorem InStep.fieldNamed_addField (h : InStep draft) (field : FieldDraft) (name : String) :
    (draft.addField field).fieldNamed name =
      (draft.fieldNamed name).or ([field].find? fun offered => offered.name == name) := by
  rw [fieldNamed, fields_addField, List.find?_append, ← fieldNamed]
  cases hfound : draft.fieldNamed name with
  | some found => rfl
  | none =>
    rw [Option.none_or, Option.none_or]
    by_cases hname : field.name = name
    · have hfree := h.fieldNamed_eq_none_iff.mp hfound
      simp [hname, hfree]
    · have hother : ∀ offered ∈ [field], ¬ (offered.name == name) = true := by simpa using hname
      rw [List.find?_eq_none.mpr hother,
        List.find?_eq_none.mpr fun offered hoffered => hother _ (List.mem_of_mem_filter hoffered)]

/-- A field comes behind those that are there, or is refused. -/
theorem fields_prefix_addField (draft : MessageDraft) (field : FieldDraft) :
    draft.fields <+: (draft.addField field).fields := by
  rw [fields_addField]
  exact List.prefix_append _ _

/-- Fields come behind those that are there. -/
theorem fields_prefix_foldl_addField (added : List FieldDraft) (draft : MessageDraft) :
    draft.fields <+: (added.foldl addField draft).fields := by
  induction added generalizing draft with
  | nil => exact List.prefix_rfl
  | cons field rest ih => exact (fields_prefix_addField draft field).trans (ih _)

/-- A merge leaves the fields that are there in their places. -/
theorem fields_prefix_merge (draft other : MessageDraft) :
    draft.fields <+: (draft.merge other).fields := by
  rw [merge_eq, fields_nestAll]
  exact fields_prefix_foldl_addField (other.fields.map draft.shift)
    { draft with oneofs := draft.oneofs ++ other.oneofs }

/-- A field stays the one of its name when others come in behind. -/
theorem fieldNamed_of_prefix {field : FieldDraft} (h : draft.fields <+: other.fields)
    (hfield : draft.fieldNamed name = some field) : other.fieldNamed name = some field := by
  obtain ⟨rest, hrest⟩ := h
  rw [fieldNamed] at hfield
  rw [fieldNamed, ← hrest, List.find?_append, hfield]
  rfl

end MessageDraft

namespace Compile

open OpenApi (Document Operation Parameter PathItem Referable Schema SchemaNode Verb)

/-! ### Offers -/

/-- Nests the types of a named member in a message, and gives the field that the member offers. -/
def offerMember (self : Engine) (job : Job) (parent : MessageDraft) (name : String)
    (property : SchemaNode) (required : Bool) (comment : Option String) :
    M (MessageDraft × Option FieldDraft) := do
  let fieldName := Identifier.fieldName name
  match property with
  | .ref reference => do
    let result ← referencedType self job reference
    pure (parent, (fieldTo (some fieldName) result).map fun field => { field with comment })
  | .inline schema =>
    match (← self.schema (job.messageName name) schema).filter (!·.isEmpty) with
    | none => pure (parent, none)
    | some child =>
      let (parent, field) ← takeIn self job parent fieldName child true
      let field ← markPresence job field schema required
      pure (parent, some { field with comment := comment <|> schema.description })

/-- Adds the field that was offered. -/
def addOffered (parent : MessageDraft) : Option FieldDraft → M MessageDraft
  | none => pure parent
  | some field => addFieldOrWarn parent field .repeatedField

/-- A member is added by adding the field that it offers. -/
theorem addMember_eq (self : Engine) (job : Job) (parent : MessageDraft) (name : String)
    (property : SchemaNode) (required : Bool) (comment : Option String) :
    addMember self job parent name property required comment =
      (offerMember self job parent name property required comment >>= fun offered =>
        addOffered offered.1 offered.2) := by
  cases property with
  | ref reference =>
    simp only [addMember, offerMember, bind_assoc, pure_bind]
    refine bind_congr fun result => ?_
    cases fieldTo (some (Identifier.fieldName name)) result <;> rfl
  | inline schema =>
    simp only [addMember, offerMember, bind_assoc]
    refine bind_congr fun compiled => ?_
    cases compiled.filter (!·.isEmpty) with
    | none => simp [addOffered]
    | some child => simp [addOffered]

section

variable {engine : Engine} {job : Job} {parent : MessageDraft} {s t : State}

/-- Marking a field leaves its name as it is. -/
theorem markPresence_name {field marked : FieldDraft} {schema : Schema} {required : Bool}
    (h : markPresence job field schema required s = .ok marked t) : marked.name = field.name := by
  unfold markPresence at h
  split at h
  · rw [(pure_eq_ok.mp h).1]
  · cases hwrapper : (if job.config.wrapPrimitives = true then holder? field.type else none) with
    | none =>
      simp only [hwrapper, pure_eq_ok] at h
      rw [h.1]
      split <;> rfl
    | some wrapper =>
      simp only [hwrapper, bind_eq_ok, pure_eq_ok] at h
      obtain ⟨_, _, -, rfl, -⟩ := h
      rfl

/-- An offer nests types in the message, and what is offered has the name of the member. -/
theorem offerMember_eq_ok {name : String} {property : SchemaNode} {required : Bool}
    {comment : Option String} {offered : MessageDraft × Option FieldDraft}
    (h : offerMember engine job parent name property required comment s = .ok offered t) :
    (∃ messages enums, offered.1 = parent.nestAll messages enums) ∧
      ∀ field ∈ offered.2, field.name = Identifier.fieldName name := by
  -- a reference brings no types along, an inline schema those of the child that is taken in
  cases property with
  | ref reference =>
    simp only [offerMember, bind_eq_ok, pure_eq_ok] at h
    obtain ⟨result, _, -, rfl, -⟩ := h
    refine ⟨⟨[], [], rfl⟩, ?_⟩
    cases result <;> simp [fieldTo, FieldDraft.message, FieldDraft.enum]
  | inline schema =>
    simp only [offerMember, bind_eq_ok] at h
    obtain ⟨compiled, _, -, h⟩ := h
    cases hchild : compiled.filter (!·.isEmpty) with
    | none =>
      simp only [hchild, pure_eq_ok] at h
      rw [h.1]
      exact ⟨⟨[], [], rfl⟩, fun field hfield => nomatch hfield⟩
    | some child =>
      simp only [hchild, bind_eq_ok, pure_eq_ok] at h
      obtain ⟨taken, _, htaken, marked, _, hmarked, rfl, -⟩ := h
      obtain ⟨hnested, hname⟩ := takeIn_nests htaken
      refine ⟨hnested, fun field hfield => ?_⟩
      cases Option.mem_some.mp hfield
      exact (markPresence_name hmarked).trans hname

/-- An offer changes no field of the message. -/
theorem offerMember_fields {name : String} {property : SchemaNode} {required : Bool}
    {comment : Option String} {offered : MessageDraft × Option FieldDraft}
    (h : offerMember engine job parent name property required comment s = .ok offered t) :
    offered.1.fields = parent.fields := by
  obtain ⟨⟨messages, enums, hnested⟩, -⟩ := offerMember_eq_ok h
  rw [hnested, MessageDraft.fields_nestAll]

/-- Whatever a property nests in its message, numbers and registries stay in step. -/
theorem offerMember_inStep {name : String} {property : SchemaNode} {required : Bool}
    {comment : Option String} {offered : MessageDraft × Option FieldDraft}
    (h : offerMember engine job parent name property required comment s = .ok offered t)
    (hparent : parent.InStep) : offered.1.InStep := by
  obtain ⟨⟨messages, enums, hnested⟩, -⟩ := offerMember_eq_ok h
  exact hnested ▸ hparent.nestAll messages enums

/-- A field that is offered keeps numbers and registries in step. -/
theorem addOffered_inStep {offer : Option FieldDraft} {filled : MessageDraft}
    (h : addOffered parent offer s = .ok filled t) (hparent : parent.InStep) : filled.InStep := by
  cases offer with
  | none => exact (pure_eq_ok.mp h).1 ▸ hparent
  | some field => exact (addFieldOrWarn_eq_ok h).1 ▸ hparent.addField field

end

/-! ### Rounds -/

/-- A parameter, and the field that it offered. -/
abbrev Round := Parameter × Option FieldDraft

/-- Adds the field for a parameter, and gives that field. -/
def parameterRound (job : Job) (request : MessageDraft) (parameter : Parameter) :
    M (MessageDraft × Option FieldDraft) := do
  if parameter.location != "path" && parameter.location != "query" then return (request, none)
  match parameter.schema with
  | none => do
    warn (.parameterWithoutSchema (← place) parameter.name)
    pure (request, none)
  | some schema =>
    let required := parameter.required || parameter.location == "path"
    within ("parameters." ++ parameter.name) do
      let (nested, offered) ←
        offerMember job.engine job request parameter.name schema required parameter.description
      let filled ← addOffered nested offered
      pure (filled, offered)

/-- The round for a parameter that may be skipped, and offers nothing then. -/
def roundUnless (job : Job) (skip : Parameter → Bool) (request : MessageDraft)
    (parameter : Parameter) : M (MessageDraft × Option FieldDraft) :=
  if skip parameter then pure (request, none) else parameterRound job request parameter

/-- Adds the fields for parameters, except for those that are skipped, and writes down what each of
them offered. -/
def parameterRounds (job : Job) (skip : Parameter → Bool) :
    List (Referable Parameter) → MessageDraft → M (MessageDraft × List Round)
  | [], request => pure (request, [])
  | node :: rest, request => do
    let parameter ← followParameter job node
    let (filled, offered) ← roundUnless job skip request parameter
    let (full, rounds) ← parameterRounds job skip rest filled
    pure (full, (parameter, offered) :: rounds)

/-- Adds the parameters of the path and of the operation, and writes down what they offered. -/
def operationRounds (job : Job) (item : PathItem) (operation : Operation)
    (request : MessageDraft) : M (MessageDraft × List Round × List Round) := do
  let (filled, shared) ←
    parameterRounds job (isOverridden operation) item.parameters request
  let (full, own) ← parameterRounds job (fun _ => false) operation.parameters filled
  pure (full, shared, own)

/-- It does not matter whether a result is changed inside a part or afterwards. -/
theorem map_within {α β : Type} (change : α → β) (part : String) (step : M α) :
    change <$> within part step = within part (change <$> step) := by
  simp only [within, map_bind]
  refine bind_congr fun _ => funext fun s => ?_
  show EStateM.map change (restoring _ step) s = restoring _ (EStateM.map change step) s
  simp only [restoring, EStateM.map]
  cases step s <;> rfl

/-- A round does what adding the parameter does, and notes down what it offered. -/
theorem map_fst_parameterRound (job : Job) (request : MessageDraft) (parameter : Parameter) :
    Prod.fst <$> parameterRound job request parameter =
      addParameterField job request parameter := by
  unfold parameterRound addParameterField
  split
  · simp
  · cases parameter.schema with
    | none => simp
    | some schema => simp [map_within, addMember_eq]

/-- Forgetting what was offered leaves the loop over the parameters. -/
theorem map_fst_parameterRounds (job : Job) (skip : Parameter → Bool)
    (nodes : List (Referable Parameter)) (request : MessageDraft) :
    Prod.fst <$> parameterRounds job skip nodes request =
      nodes.foldlM (fun request node => do
        let parameter ← followParameter job node
        if skip parameter then pure request else addParameterField job request parameter)
        request := by
  induction nodes generalizing request with
  | nil => simp [parameterRounds]
  | cons node rest ih =>
    simp only [parameterRounds, List.foldlM_cons, map_bind, bind_assoc]
    refine bind_congr fun parameter => ?_
    have hround : (if skip parameter then pure request
        else addParameterField job request parameter : M MessageDraft) =
          Prod.fst <$> roundUnless job skip request parameter := by
      unfold roundUnless
      split
      · simp
      · exact (map_fst_parameterRound job request parameter).symm
    rw [hround, bind_map_left]
    refine bind_congr fun filled => ?_
    rw [← ih filled.1]
    simp

/-- The rounds of an operation do what adding its parameters does. -/
theorem map_fst_operationRounds (job : Job) (item : PathItem) (operation : Operation)
    (request : MessageDraft) :
    Prod.fst <$> operationRounds job item operation request =
      addParameters job item operation request := by
  have hown : ∀ filled, operation.parameters.foldlM (fun request node => do
      addParameterField job request (← followParameter job node)) filled =
        Prod.fst <$> parameterRounds job (fun _ => false) operation.parameters filled := by
    intro filled
    rw [map_fst_parameterRounds]
    rfl
  unfold addParameters
  simp only [hown]
  rw [← map_fst_parameterRounds, bind_map_left]
  simp [operationRounds]

section

variable {job : Job} {skip : Parameter → Bool} {request filled : MessageDraft} {s t : State}

/-- A round adds the field that was offered. -/
theorem parameterRound_eq_ok {parameter : Parameter} {offered : Option FieldDraft}
    (h : parameterRound job request parameter s = .ok (filled, offered) t)
    (hrequest : request.InStep) :
    filled.InStep ∧ (∀ name, filled.fieldNamed name =
      (request.fieldNamed name).or (offered.toList.find? fun field => field.name == name)) ∧
      ∀ field ∈ offered, field.name = Identifier.fieldName parameter.name := by
  have hnothing : ∀ name, request.fieldNamed name = (request.fieldNamed name).or
      ((none : Option FieldDraft).toList.find? fun field => field.name == name) := by
    simp
  unfold parameterRound at h
  split at h
  · cases (pure_eq_ok.mp h).1
    exact ⟨hrequest, hnothing, fun field hfield => nomatch hfield⟩
  · cases hschema : parameter.schema with
    | none =>
      simp only [hschema, bind_eq_ok, pure_eq_ok] at h
      obtain ⟨_, _, -, _, _, -, heq, -⟩ := h
      cases heq
      exact ⟨hrequest, hnothing, fun field hfield => nomatch hfield⟩
    | some schema =>
      simp only [hschema, within_eq_ok, bind_eq_ok, pure_eq_ok] at h
      obtain ⟨_, ⟨⟨nested, field?⟩, _, hoffer, _, _, hadd, heq, -⟩, -⟩ := h
      obtain ⟨rfl, rfl⟩ := Prod.mk.inj heq
      have hnested : nested.InStep := offerMember_inStep hoffer hrequest
      refine ⟨addOffered_inStep hadd hnested, fun name => ?_, (offerMember_eq_ok hoffer).2⟩
      have hsame : nested.fieldNamed name = request.fieldNamed name := by
        rw [MessageDraft.fieldNamed, offerMember_fields hoffer, MessageDraft.fieldNamed]
      cases offered with
      | none =>
        cases (pure_eq_ok.mp hadd).1
        rw [hsame]
        exact hnothing name
      | some field =>
        rw [(addFieldOrWarn_eq_ok hadd).1, hnested.fieldNamed_addField, hsame]
        rfl

/-- What the rounds over some parameters come to. -/
structure RoundsOf (job : Job) (skip : Parameter → Bool) (nodes : List (Referable Parameter))
    (rounds : List Round) : Prop where
  leads : List.Forall₂ (LeadsTo .parameters job.document.components.parameters) nodes
    (rounds.map Prod.fst)
  skipped : ∀ round ∈ rounds, skip round.1 = true → round.2 = none
  named : ∀ round ∈ rounds, ∀ field ∈ round.2, field.name = Identifier.fieldName round.1.name

/-- The first field that was offered under the name. -/
def firstOffered (rounds : List Round) (name : String) : Option FieldDraft :=
  (rounds.flatMap fun round => round.2.toList).find? fun field => field.name == name

/-- What the later rounds offer counts only if the earlier ones offer nothing of the name. -/
theorem firstOffered_append (rounds later : List Round) (name : String) :
    firstOffered (rounds ++ later) name =
      (firstOffered rounds name).or (firstOffered later name) := by
  rw [firstOffered, List.flatMap_append, List.find?_append]
  rfl

/-- One round offers one field at most. -/
theorem firstOffered_singleton (round : Round) (name : String) :
    firstOffered [round] name = round.2.toList.find? fun field => field.name == name := by
  simp [firstOffered]

/-- A name that is free goes to the first field that is offered under it. -/
theorem parameterRounds_eq_ok {nodes : List (Referable Parameter)} {rounds : List Round}
    (h : parameterRounds job skip nodes request s = .ok (filled, rounds) t)
    (hrequest : request.InStep) :
    filled.InStep ∧ RoundsOf job skip nodes rounds ∧
      ∀ name, filled.fieldNamed name =
        (request.fieldNamed name).or (firstOffered rounds name) := by
  -- the request grows along, and of the fields that are offered under a name the first one stays
  induction nodes generalizing request rounds s with
  | nil =>
    cases (pure_eq_ok.mp h).1
    exact ⟨hrequest, ⟨.nil, by simp, by simp⟩, by simp [firstOffered]⟩
  | cons node rest ih =>
    simp only [parameterRounds, bind_eq_ok, pure_eq_ok] at h
    obtain ⟨parameter, _, hfollow, ⟨next, offered⟩, u, hround, ⟨full, later⟩, _, hrest, heq, rfl⟩ :=
      h
    obtain ⟨rfl, rfl⟩ := Prod.mk.inj heq
    have hfirst : next.InStep ∧ (∀ name, next.fieldNamed name = (request.fieldNamed name).or
        (offered.toList.find? fun field => field.name == name)) ∧
          (skip parameter = true → offered = none) ∧
          ∀ field ∈ offered, field.name = Identifier.fieldName parameter.name := by
      unfold roundUnless at hround
      split at hround
      · cases (pure_eq_ok.mp hround).1
        simp [hrequest]
      · next hskip =>
        obtain ⟨hnext, hfound, hname⟩ := parameterRound_eq_ok hround hrequest
        exact ⟨hnext, hfound, fun hskip' => absurd hskip' hskip, hname⟩
    obtain ⟨hnext, hfound, hskipped, hname⟩ := hfirst
    obtain ⟨hfull, hrounds, hlater⟩ := ih hrest hnext
    refine ⟨hfull, ⟨.cons (leadsTo_of_followFrom hfollow) hrounds.leads, ?_, ?_⟩, fun name => ?_⟩
    · exact List.forall_mem_cons.mpr ⟨hskipped, hrounds.skipped⟩
    · exact List.forall_mem_cons.mpr ⟨hname, hrounds.named⟩
    · have hfirst := firstOffered_singleton (parameter, offered) name
      rw [hlater, hfound, Option.or_assoc, ← List.singleton_append, firstOffered_append, hfirst]

/-- The shared parameters have their rounds first, and then those of the operation. -/
theorem operationRounds_eq_ok {item : PathItem} {operation : Operation} {shared own : List Round}
    (h : operationRounds job item operation request s = .ok (filled, shared, own) t)
    (hrequest : request.InStep) :
    RoundsOf job (isOverridden operation) item.parameters shared ∧
      RoundsOf job (fun _ => false) operation.parameters own ∧
      ∀ name, filled.fieldNamed name = (request.fieldNamed name).or
        ((firstOffered shared name).or (firstOffered own name)) := by
  simp only [operationRounds, bind_eq_ok, pure_eq_ok] at h
  obtain ⟨⟨next, _⟩, _, hshared, ⟨_, _⟩, _, hown, heq, rfl⟩ := h
  cases heq
  obtain ⟨hnext, hrounds, hfound⟩ := parameterRounds_eq_ok hshared hrequest
  obtain ⟨-, hrounds', hfound'⟩ := parameterRounds_eq_ok hown hnext
  exact ⟨hrounds, hrounds', fun name => by rw [hfound', hfound, Option.or_assoc]⟩

end

/-! ### The request of a method -/

section

variable {job : Job} {parent filled : MessageDraft} {s t : State}

/-- A member that comes in leaves the fields that are there in their places. -/
theorem addMember_prefix {engine : Engine} {name : String} {property : SchemaNode}
    {required : Bool} {comment : Option String}
    (h : addMember engine job parent name property required comment s = .ok filled t) :
    parent.fields <+: filled.fields := by
  rw [addMember_eq] at h
  obtain ⟨⟨nested, offered⟩, u, hoffer, hadd⟩ := bind_eq_ok.mp h
  rw [← offerMember_fields hoffer]
  cases offered with
  | none => exact (pure_eq_ok.mp hadd).1 ▸ List.prefix_rfl
  | some field =>
    rw [(addFieldOrWarn_eq_ok hadd).1]
    exact MessageDraft.fields_prefix_addField _ _

/-- A payload that comes in leaves the fields that are there in their places. -/
theorem addPayload_prefix {engine : Engine} {field : String} {payload : SchemaNode}
    {required : Bool}
    (h : engine.addPayload job parent field payload required s = .ok filled t) :
    parent.fields <+: filled.fields := by
  cases payload with
  | ref reference =>
    simp only [Engine.addPayload] at h
    exact addMember_prefix h
  | inline schema =>
    simp only [Engine.addPayload] at h
    split at h
    · obtain ⟨compiled, u, -, h⟩ := bind_eq_ok.mp h
      cases compiled with
      | none => exact (pure_eq_ok.mp h).1 ▸ List.prefix_rfl
      | some compiled =>
        rw [(pure_eq_ok.mp h).1]
        exact MessageDraft.fields_prefix_merge { parent with comment := _ } compiled
    · exact addMember_prefix h

/-- The request of a method has the fields of the parameters, and those of the body come behind. -/
theorem payloads_eq_ok {name : String} {item : PathItem} {operation : Operation} {hasBody : Bool}
    {request response : MessageDraft}
    (h : job.engine.payloads job name item operation s = .ok (hasBody, request, response) t) :
    ∃ parameters u,
      addParameters job item operation { name := name ++ "Request" } s = .ok parameters u ∧
      parameters.fields <+: request.fields := by
  simp only [Engine.payloads, bind_eq_ok] at h
  obtain ⟨parameters, u, hparameters, body, v, -, h⟩ := h
  refine ⟨parameters, u, hparameters, ?_⟩
  cases body with
  | none =>
    simp only [bind_eq_ok, pure_eq_ok] at h
    obtain ⟨_, _, ⟨rfl, rfl⟩, _, _, -, heq, -⟩ := h
    cases heq
    exact List.prefix_rfl
  | some body =>
    simp only [bind_eq_ok, pure_eq_ok] at h
    obtain ⟨_, _, hbody, _, _, -, heq, -⟩ := h
    cases heq
    obtain ⟨w, hadd, -⟩ := within_eq_ok.mp hbody
    exact addPayload_prefix hadd

/-- A message with members is declared when its name is free. -/
theorem payloadType_declares {message : MessageDraft} {type : String}
    (h : payloadType message s = .ok type t) (hempty : message.isEmpty = false)
    (hfree : s.file.hasType message.name = false) :
    .drafted message ∈ t.file.messages := by
  unfold payloadType at h
  simp only [hempty, Bool.false_eq_true, if_false, bind_eq_ok, get_eq_ok] at h
  obtain ⟨s₀, s₁, ⟨hread, hkept⟩, h⟩ := h
  subst s₀ s₁
  simp only [hfree, Bool.false_eq_true, if_false, bind_eq_ok, updateFile_eq_ok, pure_eq_ok] at h
  obtain ⟨_, _, rfl, -, rfl⟩ := h
  simp [FileDraft.addMessage, hfree]

end

/-- Two parameters of one name and location are offered, one by the path and one by the operation.
No other parameter of the path has the name of their field, and no earlier one of the operation
offers a field of that name. -/
inductive Contested : List Round → List Round → Option FieldDraft → FieldDraft → Prop
  | intro {before after earlier later : List Round} {shared own : Parameter}
      {theirs : Option FieldDraft} {mine : FieldDraft}
      (hname : shared.name = own.name) (hlocation : shared.location = own.location)
      (halone : ∀ round ∈ before ++ after,
        Identifier.fieldName round.1.name ≠ Identifier.fieldName own.name)
      (hfirst : ∀ round ∈ earlier,
        Identifier.fieldName round.1.name = Identifier.fieldName own.name → round.2 = none) :
      Contested (before ++ (shared, theirs) :: after) (earlier ++ (own, some mine) :: later)
        theirs mine

/-- Rounds that offer nothing for a name leave it free. -/
theorem firstOffered_eq_none {rounds : List Round} {name : String}
    (hnamed : ∀ round ∈ rounds, ∀ field ∈ round.2, field.name = Identifier.fieldName round.1.name)
    (h : ∀ round ∈ rounds, Identifier.fieldName round.1.name = name → round.2 = none) :
    firstOffered rounds name = none := by
  refine List.find?_eq_none.mpr fun field hfield hname => ?_
  obtain ⟨round, hround, hoffered⟩ := List.mem_flatMap.mp hfield
  have hfrom : field ∈ round.2 := Option.mem_toList.mp hoffered
  have hnothing := h round hround
    ((hnamed round hround field hfrom).symm.trans (by simpa using hname))
  rw [hnothing] at hfrom
  cases hfrom

/-- The name goes to the field that the path offers, and to that of the operation otherwise. -/
theorem Contested.firstOffered_eq {shared own : List Round} {theirs : Option FieldDraft}
    {mine : FieldDraft} (h : Contested shared own theirs mine)
    (hshared : ∀ round ∈ shared, ∀ field ∈ round.2,
      field.name = Identifier.fieldName round.1.name)
    (hown : ∀ round ∈ own, ∀ field ∈ round.2, field.name = Identifier.fieldName round.1.name) :
    (firstOffered shared mine.name).or (firstOffered own mine.name) =
      theirs.or (some mine) := by
  cases h with
  | @intro before after earlier later shared own theirs mine hname hlocation halone hfirst =>
    rw [List.forall_mem_append, List.forall_mem_cons] at hshared hown
    obtain ⟨hbefore, htheirs, hafter⟩ := hshared
    obtain ⟨hearlier, hmine, -⟩ := hown
    rw [List.forall_mem_append] at halone
    have hmine : mine.name = Identifier.fieldName own.name := hmine mine rfl
    -- on either side no other parameter offers a field of this name first
    have hown : firstOffered (earlier ++ (own, some mine) :: later) mine.name = some mine := by
      rw [← List.singleton_append, firstOffered_append, firstOffered_append,
        firstOffered_singleton, firstOffered_eq_none hearlier (hmine ▸ hfirst)]
      simp
    have hshared : firstOffered (before ++ (shared, theirs) :: after) mine.name = theirs := by
      rw [← List.singleton_append, firstOffered_append, firstOffered_append,
        firstOffered_singleton,
        firstOffered_eq_none hbefore fun round hround hsame =>
          absurd (hsame.trans hmine) (halone.1 round hround),
        firstOffered_eq_none hafter fun round hround hsame =>
          absurd (hsame.trans hmine) (halone.2 round hround)]
      cases theirs with
      | none => rfl
      | some field =>
        have hfield : field.name = mine.name := by
          rw [hmine, ← hname]
          exact htheirs field rfl
        simp [hfield]
    rw [hown, hshared]

/-- Where the path and the operation offer a field for one parameter, the request of the method has
the one of the operation exactly when the path offers no other field. The path offers none when the
operation spells the parameter out. -/
theorem own_parameter_wins_iff {job : Job} {name path : String} {verb : Verb} {item : PathItem}
    {operation : Operation} {method : MethodDraft} {s s' : State}
    (h : methodFor job name path verb item operation s = .ok method s') :
    ∃ parameters shared own t hasBody request response u,
      operationRounds job item operation { name := name ++ "Request" } s =
        .ok (parameters, shared, own) t ∧
      addParameters job item operation { name := name ++ "Request" } s = .ok parameters t ∧
      job.engine.payloads job name item operation s = .ok (hasBody, request, response) u ∧
      parameters.fields <+: request.fields ∧
      (request.isEmpty = false → u.file.hasType request.name = false →
        .drafted request ∈ s'.file.messages) ∧
      RoundsOf job (isOverridden operation) item.parameters shared ∧
      RoundsOf job (fun _ => false) operation.parameters own ∧
      ∀ theirs mine, Contested shared own theirs mine →
        request.fieldNamed mine.name = some (theirs.getD mine) ∧
        (request.fieldNamed mine.name = some mine ↔ ∀ field ∈ theirs, field = mine) := by
  rw [methodFor_eq] at h
  obtain ⟨⟨hasBody, request, response⟩, u, hpayloads, hfinish⟩ := bind_eq_ok.mp h
  obtain ⟨hrequest, hresponse⟩ := payloads_name hpayloads
  obtain ⟨-, -, v, hdeclared, -, hlater⟩ := finishMethod_eq_ok hrequest hresponse hfinish
  obtain ⟨parameters, t, hparameters, hprefix⟩ := payloads_eq_ok hpayloads
  have hmapped := hparameters
  rw [← map_fst_operationRounds] at hmapped
  obtain ⟨⟨_, shared, own⟩, hrounds, rfl⟩ := map_eq_ok.mp hmapped
  have hfresh : MessageDraft.InStep { name := name ++ "Request" } := .of_nil rfl rfl rfl rfl
  obtain ⟨hshared, hown, hfound⟩ := operationRounds_eq_ok hrounds hfresh
  refine ⟨_, shared, own, t, hasBody, request, response, u, hrounds, hparameters, hpayloads,
    hprefix, fun hempty hfree => ?_, hshared, hown, fun theirs mine hcontested => ?_⟩
  · obtain ⟨added, hadded, -⟩ := hlater.messages
    rw [hadded]
    exact List.mem_append_left _ (payloadType_declares hdeclared hempty hfree)
  · -- the parameters decide, since the body takes no name that is taken
    have hfield : request.fieldNamed mine.name = some (theirs.getD mine) := by
      refine MessageDraft.fieldNamed_of_prefix hprefix ?_
      rw [hfound, hcontested.firstOffered_eq hshared.named hown.named]
      cases theirs <;> rfl
    refine ⟨hfield, ?_⟩
    rw [hfield, Option.some_inj]
    cases theirs <;> simp

/-- A limit that is given in the query. -/
def limitOf (schema : SchemaNode) : Parameter :=
  { name := "limit", location := "query", schema := some schema }

/-- The field for a limit. -/
def limitField (type : FieldType) : FieldDraft :=
  { name := "limit", type }

/-- A whole number without a format. -/
def wholeNumberNode : SchemaNode :=
  .inline { shape := .integer none }

/-- An operation that lists items, up to a limit. -/
def listItems (own : Referable Parameter) : Operation :=
  { parameters := [own] }

/-- A path where the limit is a text, unless the operation has its own. -/
def itemsPath (own : Referable Parameter) : PathItem :=
  { parameters := [.inline (limitOf textNode)], get := some (listItems own) }

/-- The description with that path, where components have a limit that is a number. -/
def listing (own : Referable Parameter) : Document :=
  { (default : Document) with
    paths := .ofList [("/items", itemsPath own)]
    components := { (default : OpenApi.Components) with
      parameters := .ofList [("Limit", .inline (limitOf wholeNumberNode))] } }

/-- The state in which the listing is compiled. -/
def listingStart (own : Referable Parameter) : State :=
  { file := startFile (listing own) {} }

/-- What the parameters of the listing offer. -/
def listingRounds (own : Referable Parameter) : M (MessageDraft × List Round × List Round) :=
  operationRounds ⟨listing own, {}⟩ (itemsPath own) (listItems own) { name := "GetItemsRequest" }

/-- The messages of the listing. -/
def listingPayloads (own : Referable Parameter) : M (Bool × MessageDraft × MessageDraft) :=
  (Job.engine ⟨listing own, {}⟩).payloads ⟨listing own, {}⟩ "GetItems" (itemsPath own)
    (listItems own)

/-- The method of the listing. -/
def listingMethod (own : Referable Parameter) : M MethodDraft :=
  methodFor ⟨listing own, {}⟩ "GetItems" "/items" .get (itemsPath own) (listItems own)

/-- What the path and the operation offer for a limit is contested. -/
theorem contested_listing {node : Referable Parameter} {theirs : Option FieldDraft}
    {mine : FieldDraft}
    (h : succeedsWith (listingRounds node) (listingStart node) (fun result _ =>
      result.2.1.map (fun round => (round.1.name, round.1.location, round.2)) ==
          [("limit", "query", theirs)] &&
        result.2.2.map (fun round => (round.1.name, round.1.location, round.2)) ==
          [("limit", "query", some mine)]) = true) :
    ∃ parameters shared own t,
      listingRounds node (listingStart node) = .ok (parameters, shared, own) t ∧
      Contested shared own theirs mine := by
  obtain ⟨⟨parameters, shared, own⟩, t, hrun, hcheck⟩ := exists_of_succeedsWith h
  simp only [Bool.and_eq_true, beq_iff_eq, List.map_eq_singleton_iff, Prod.mk.injEq] at hcheck
  obtain ⟨⟨⟨theirParameter, _⟩, rfl, hname, hlocation, rfl⟩,
    ⟨ownParameter, _⟩, rfl, hname', hlocation', rfl⟩ := hcheck
  exact ⟨_, _, _, _, hrun, @Contested.intro [] [] [] [] _ _ _ _ (hname.trans hname'.symm)
    (hlocation.trans hlocation'.symm) (by simp) (by simp)⟩

/-- Where the operation spells its limit out, the request takes that. -/
theorem own_parameter_wins_iff_listing :
    ∃ method s' hasBody request response u,
      listingMethod (.inline (limitOf wholeNumberNode))
        (listingStart (.inline (limitOf wholeNumberNode))) = .ok method s' ∧
      listingPayloads (.inline (limitOf wholeNumberNode))
        (listingStart (.inline (limitOf wholeNumberNode))) =
          .ok (hasBody, request, response) u ∧
      request.fieldNamed "limit" = some (limitField .int32) := by
  have hcheck : succeedsWith (listingMethod (.inline (limitOf wholeNumberNode)))
      (listingStart (.inline (limitOf wholeNumberNode))) (fun _ _ => true) = true := by
    decide +kernel
  obtain ⟨method, s', hmethod, -⟩ := exists_of_succeedsWith hcheck
  obtain ⟨_, shared, own, t, hasBody, request, response, u, hrounds, -, hpayloads, -, -, -, -,
    hwins⟩ := own_parameter_wins_iff hmethod
  obtain ⟨_, shared', own', t', hrounds', hcontested⟩ :=
    @contested_listing (.inline (limitOf wholeNumberNode)) none (limitField .int32)
      (by decide +kernel)
  cases hrounds'.symm.trans hrounds
  exact ⟨method, s', hasBody, request, response, u, hmethod, hpayloads, (hwins _ _ hcontested).1⟩

/-- Where the operation refers to its limit, the request keeps that of the path. -/
theorem referencedLimit_loses :
    ∃ parameters shared own t hasBody request response u out message field,
      listingRounds (.ref "#/components/parameters/Limit")
        (listingStart (.ref "#/components/parameters/Limit")) = .ok (parameters, shared, own) t ∧
      Contested shared own (some (limitField .string)) (limitField .int32) ∧
      listingPayloads (.ref "#/components/parameters/Limit")
        (listingStart (.ref "#/components/parameters/Limit")) =
          .ok (hasBody, request, response) u ∧
      request.fieldNamed "limit" ≠ some (limitField .int32) ∧
      compile (listing (.ref "#/components/parameters/Limit")) {} = .ok out ∧
      message ∈ out.file.messages ∧ message.name = some "GetItemsRequest" ∧
      field ∈ message.fields ∧ field.name = some "limit" ∧
      field.type = some FieldType.string.code := by
  have hpayloads : succeedsWith (listingPayloads (.ref "#/components/parameters/Limit"))
      (listingStart (.ref "#/components/parameters/Limit"))
      (fun result _ => result.2.1.fieldNamed "limit" != some (limitField .int32)) = true := by
    decide +kernel
  have hcompiles : compilesTo (listing (.ref "#/components/parameters/Limit")) {} (fun s =>
      s.file.build.messages.any fun message => message.name == some "GetItemsRequest" &&
        message.fields.any fun field => field.name == some "limit" &&
          field.type == some FieldType.string.code) = true := by
    decide +kernel
  obtain ⟨parameters, shared, own, t, hrounds, hcontested⟩ :=
    @contested_listing (.ref "#/components/parameters/Limit") (some (limitField .string))
      (limitField .int32) (by decide +kernel)
  obtain ⟨⟨hasBody, request, response⟩, u, hrun, hloses⟩ := exists_of_succeedsWith hpayloads
  obtain ⟨out, s, hout, hfile, -, hcheck⟩ := exists_of_compilesTo hcompiles
  simp only [List.any_eq_true, Bool.and_eq_true, beq_iff_eq] at hcheck
  obtain ⟨message, hmessage, hname, field, hfield, hfieldName, htype⟩ := hcheck
  exact ⟨parameters, shared, own, t, hasBody, request, response, u, out, message, field, hrounds,
    hcontested, hrun, by simpa using hloses, hout, hfile ▸ hmessage, hname, hfield, hfieldName,
    htype⟩

end Compile

end Protoscribe
