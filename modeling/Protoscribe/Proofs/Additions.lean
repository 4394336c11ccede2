import Protoscribe.Proofs.Compile.Passes
import Protoscribe.Proofs.CycleReports

/-!
# `Protoscribe.Proofs.Additions`: what the operations add to a file

When the operations have their turn, every component has become something. A call for a component
then finds that in the state, whatever the call was made for: a reference, or an inline type with
the name of the component. So no call declares anything any more (`Engine.ofLevels_keeps`), and an
operation only adds the request and the response of its method (`addOperation_adds`).

`declareService_adds` says so of the whole pass: what the components left stays as it is, and the
messages behind it are payloads of the methods.
-/

set_option autoImplicit false

namespace Protoscribe.Compile

open OpenApi (Document Operation Parameter PathItem Referable RequestBody SchemaNode Verb)

variable {job : Job} {s t u : State}

/-! ### Additions -/

/-- The names of the messages for a method. -/
def payloadNames (method : MethodDraft) : List String :=
  [method.name ++ "Request", method.name ++ "Response"]

/-- What is declared in the first state stays in its place in the second one. Behind it are messages
for the methods and nothing else, besides imports. -/
structure Adds (methods : List MethodDraft) (s t : State) : Prop where
  schemas : t.schemas = s.schemas
  bodies : t.bodies = s.bodies
  enums : t.file.enums = s.file.enums
  /-- A name that is taken only now is the name of a message for a method. -/
  types : ∀ name, t.file.hasType name = true →
    s.file.hasType name = true ∨ ∃ method ∈ methods, name ∈ payloadNames method
  reserved : t.file.reserved = s.file.reserved
  imports : ∀ file ∈ s.file.dependencies.keys, file ∈ t.file.dependencies.keys
  messages : ∃ added, t.file.messages = s.file.messages ++ added ∧
    ∀ message ∈ added, ∃ method ∈ methods, message.name ∈ payloadNames method

namespace Adds

variable {methods more : List MethodDraft}

/-- Where the tables stay the same, nothing is added. -/
theorem of_sameTables (h : SameTables s t) : Adds methods s t where
  schemas := h.schemas
  bodies := h.bodies
  enums := by rw [h.file]
  types name htaken := .inl (h.file ▸ htaken)
  reserved := by rw [h.file]
  imports := by simp [h.file]
  messages := ⟨[], by simp [h.file], by simp⟩

/-- Nothing is added where nothing happens. -/
theorem refl (s : State) : Adds methods s s :=
  of_sameTables ⟨rfl, rfl, rfl⟩

/-- What is added twice is added. -/
theorem trans (h : Adds methods s t) (h' : Adds methods t u) : Adds methods s u where
  schemas := h'.schemas.trans h.schemas
  bodies := h'.bodies.trans h.bodies
  enums := h'.enums.trans h.enums
  types name htaken := (h'.types name htaken).elim (h.types name) .inr
  reserved := h'.reserved.trans h.reserved
  imports file hfile := h'.imports file (h.imports file hfile)
  messages := by
    obtain ⟨added, hadded, hnames⟩ := h.messages
    obtain ⟨added', hadded', hnames'⟩ := h'.messages
    refine ⟨added ++ added', by rw [hadded', hadded, List.append_assoc], fun message hmem => ?_⟩
    exact (List.mem_append.mp hmem).elim (hnames message) (hnames' message)

/-- More methods may have added it. -/
theorem mono (h : Adds methods s t) (hmore : methods ⊆ more) : Adds more s t :=
  have ⟨added, hadded, hnames⟩ := h.messages
  { h with
    types := fun name htaken => (h.types name htaken).imp_right fun ⟨method, hmethod, hname⟩ =>
      ⟨method, hmore hmethod, hname⟩
    messages := ⟨added, hadded, fun message hmem =>
      have ⟨method, hmethod, hname⟩ := hnames message hmem
      ⟨method, hmore hmethod, hname⟩⟩ }

/-- A step at another place, seen from outside. -/
theorem under {parts : List String} (h : Adds methods { s with scope := parts } t) :
    Adds methods s { t with scope := s.scope } :=
  { h with }

/-- An import may be added at any time. -/
theorem addDependency (s : State) (name : String) :
    Adds methods s { s with file := s.file.addDependency name } where
  schemas := rfl
  bodies := rfl
  enums := rfl
  types _ htaken := .inl htaken
  reserved := rfl
  imports _ himport := Table.mem_keys_insert.mpr (.inr himport)
  messages := ⟨[], by simp [FileDraft.addDependency], by simp⟩

/-- A message for a method comes in, or its name is taken. -/
theorem addMessage (s : State) {draft : MessageDraft} {method : MethodDraft}
    (hmethod : method ∈ methods) (hname : draft.name ∈ payloadNames method) :
    Adds methods s { s with file := s.file.addMessage draft } := by
  unfold FileDraft.addMessage
  split
  · exact refl s
  · have hkept : Adds methods s s := .refl s
    refine
      { hkept with
        types := fun name htaken => ?_
        messages := ⟨[.drafted draft], rfl, fun message hmem => ?_⟩ }
    · rw [FileDraft.hasType, Registry.contains_take, Bool.or_eq_true, beq_iff_eq] at htaken
      rcases htaken with hold | rfl
      · exact .inl hold
      · exact .inr ⟨method, hmethod, hname⟩
    · cases List.mem_singleton.mp hmem
      exact ⟨method, hmethod, hname⟩

/-- Components that are settled stay so when something is added. -/
theorem allKnown (h : Adds methods s t) (hs : AllKnown job s.facts) : AllKnown job t.facts where
  schemas key hkey := by
    simp only [State.facts, h.schemas]
    exact hs.schemas key hkey
  bodies key hkey := by
    simp only [State.facts, h.bodies]
    exact hs.bodies key hkey

end Adds

/-- The progress of a run in which every component is known: nothing but imports is added. -/
def knownProgress (job : Job) : Progress where
  Valid s := AllKnown job s.facts
  Le s t := AllKnown job t.facts ∧ Adds [] s t
  valid_of_le h := h.1
  trans h h' := ⟨h'.1, h.2.trans h'.2⟩
  le_of_same hs h :=
    have hadds := Adds.of_sameTables h
    ⟨hadds.allKnown hs, hadds⟩
  le_addDependency {s} name hs :=
    have hadds := Adds.addDependency s name
    ⟨hadds.allKnown hs, hadds⟩

/-! ### Calls when every component is known -/

/-- A component that is settled is not declared again. -/
theorem declareSchema_of_known {engine : Engine} {key : String} {node : SchemaNode}
    (hs : AllKnown job s.facts) (hnode : job.document.components.schemas.find? key = some node) :
    ∃ result, declareSchema engine job key node s = .ok result s := by
  obtain ⟨result, hresult⟩ := hs.schemas key (Table.mem_keys_of_find?_eq_some hnode)
  refine ⟨result, bind_eq_ok.mpr ⟨s, s, rfl, ?_⟩⟩
  simp only [show s.schemas.lookup key = some result from hresult]
  rfl

/-- A request body that is settled is not declared again. -/
theorem declareBody_of_known {engine : Engine} {key : String} {body : Referable RequestBody}
    (hs : AllKnown job s.facts)
    (hbody : job.document.components.requestBodies.find? key = some body) :
    ∃ result, declareBody engine job key body s = .ok result s := by
  obtain ⟨result, hresult⟩ := hs.bodies key (Table.mem_keys_of_find?_eq_some hbody)
  refine ⟨result, bind_eq_ok.mpr ⟨s, s, rfl, ?_⟩⟩
  simp only [show s.bodies.lookup key = some result from hresult]
  rfl

/-- No call declares anything when every component is known. -/
theorem Engine.ofLevels_keeps (job : Job) (levels : Nat) :
    (Engine.ofLevels job levels).Interrupts job (knownProgress job)
      (Engine.ofLevels job levels) := by
  induction levels with
  | zero => exact .exhausted job _
  | succ levels ih =>
    refine ih.step (fun hnode => ⟨fun {s} hs => .of_advances ?_⟩)
      (fun hbody => ⟨fun {s} hs => .of_advances ?_⟩)
    · obtain ⟨result, hrun⟩ := declareSchema_of_known hs hnode
      rw [stateAfter_of_ok hrun]
      exact ⟨hs, .refl s⟩
    · obtain ⟨result, hrun⟩ := declareBody_of_known hs hbody
      rw [stateAfter_of_ok hrun]
      exact ⟨hs, .refl s⟩

/-! ### Loops -/

/-- What every round keeps, the loop keeps. -/
theorem foldlM_keeps {α γ : Type} {round : α → γ → M α} {P : State → α → Prop}
    (hround : ∀ {a item b s t}, round a item s = .ok b t → P s a → P t b) {items : List γ}
    {init result : α} (h : items.foldlM round init s = .ok result t) (hinit : P s init) :
    P t result := by
  induction items generalizing init s with
  | nil =>
    obtain ⟨rfl, rfl⟩ := foldlM_nil_eq_ok.mp h
    exact hinit
  | cons item rest ih =>
    obtain ⟨next, u, hfirst, hrest⟩ := foldlM_cons_eq_ok.mp h
    exact ih hrest (hround hfirst hinit)

/-! ### Names of payloads -/

section

variable {engine : Engine} {parent filled : MessageDraft}

/-- Taking in a message only nests types, and gives a field of the name that is asked for. -/
theorem takeIn_nests {fieldName : String} {child : MessageDraft} {allowRepeated : Bool}
    {taken : MessageDraft × FieldDraft}
    (h : takeIn engine job parent fieldName child allowRepeated s = .ok taken t) :
    (∃ messages enums, taken.1 = parent.nestAll messages enums) ∧ taken.2.name = fieldName := by
  unfold takeIn at h
  -- in the order of the checks: the carrier of an enum, a wrapper that gives way, any other message
  cases hcarried : child.carriedEnum? with
  | some enum =>
    simp only [hcarried, bind_eq_ok] at h
    obtain ⟨nested, u, -, h⟩ := h
    cases nested with
    | none =>
      rw [(pure_eq_ok.mp h).1]
      exact ⟨⟨[], [], rfl⟩, rfl⟩
    | some name =>
      rw [(pure_eq_ok.mp h).1]
      exact ⟨⟨[], [{ enum with name }], rfl⟩, rfl⟩
  | none =>
    simp only [hcarried] at h
    cases hunwrap : (if (allowRepeated || !child.fields.any (·.repeated)) = true
        then child.unwrap? else none) with
    | some unwrapped =>
      simp only [hunwrap] at h
      rw [(pure_eq_ok.mp h).1]
      exact ⟨⟨unwrapped.messages, unwrapped.enums, rfl⟩, rfl⟩
    | none =>
      simp only [hunwrap, bind_eq_ok] at h
      obtain ⟨nested, u, -, h⟩ := h
      cases nested with
      | none =>
        rw [(pure_eq_ok.mp h).1]
        exact ⟨⟨[], [], rfl⟩, rfl⟩
      | some name =>
        rw [(pure_eq_ok.mp h).1]
        exact ⟨⟨[{ child with name }], [], rfl⟩, rfl⟩

/-- A message keeps its name when a member comes in. -/
theorem addMember_name {name : String} {property : SchemaNode} {required : Bool}
    {comment : Option String}
    (h : addMember engine job parent name property required comment s = .ok filled t) :
    filled.name = parent.name := by
  cases property with
  | ref reference =>
    simp only [addMember, bind_eq_ok] at h
    obtain ⟨result, u, -, h⟩ := h
    cases hfield : fieldTo (some (Identifier.fieldName name)) result with
    | none =>
      simp only [hfield] at h
      rw [(pure_eq_ok.mp h).1]
    | some field =>
      simp only [hfield] at h
      rw [(addFieldOrWarn_eq_ok h).1, MessageDraft.name_addField]
  | inline schema =>
    simp only [addMember, bind_eq_ok] at h
    obtain ⟨compiled, u, -, h⟩ := h
    cases hchild : compiled.filter (!·.isEmpty) with
    | none =>
      simp only [hchild] at h
      rw [(pure_eq_ok.mp h).1]
    | some child =>
      simp only [hchild, bind_eq_ok] at h
      obtain ⟨taken, v, htaken, marked, w, -, h⟩ := h
      obtain ⟨⟨messages, enums, hnested⟩, -⟩ := takeIn_nests htaken
      rw [(addFieldOrWarn_eq_ok h).1, MessageDraft.name_addField, hnested,
        MessageDraft.name_nestAll]

/-- The field of a parameter leaves the name of the request as it is. -/
theorem addParameterField_name {parameter : Parameter}
    (h : engine.addParameterField job parent parameter s = .ok filled t) :
    filled.name = parent.name := by
  unfold Engine.addParameterField at h
  split at h
  · rw [(pure_eq_ok.mp h).1]
  · cases hschema : parameter.schema with
    | none =>
      simp only [hschema, bind_eq_ok, pure_eq_ok] at h
      obtain ⟨_, _, -, _, _, -, rfl, -⟩ := h
      rfl
    | some schema =>
      simp only [hschema] at h
      obtain ⟨u, hadd, -⟩ := within_eq_ok.mp h
      exact addMember_name hadd

/-- The fields of parameters leave the name of the request as it is. -/
theorem addParameters_name {item : PathItem} {operation : Operation}
    (h : engine.addParameters job item operation parent s = .ok filled t) :
    filled.name = parent.name := by
  obtain ⟨shared, u, hshared, h⟩ := bind_eq_ok.mp h
  have hshared : shared.name = parent.name := by
    refine foldlM_keeps (P := fun _ draft => draft.name = parent.name) (fun hround hname => ?_)
      hshared rfl
    obtain ⟨parameter, v, -, hround⟩ := bind_eq_ok.mp hround
    split at hround
    · rwa [(pure_eq_ok.mp hround).1]
    · exact (addParameterField_name hround).trans hname
  refine foldlM_keeps (P := fun _ draft => draft.name = parent.name) (fun hround hname => ?_)
    h hshared
  obtain ⟨parameter, v, -, hround⟩ := bind_eq_ok.mp hround
  exact (addParameterField_name hround).trans hname

/-- The field of a body leaves the name of the message as it is. -/
theorem addPayload_name {field : String} {payload : SchemaNode} {required : Bool}
    (h : engine.addPayload job parent field payload required s = .ok filled t) :
    filled.name = parent.name := by
  cases payload with
  | ref reference =>
    simp only [Engine.addPayload] at h
    exact addMember_name h
  | inline schema =>
    simp only [Engine.addPayload] at h
    split at h
    · obtain ⟨compiled, u, -, h⟩ := bind_eq_ok.mp h
      cases compiled with
      | none => rw [(pure_eq_ok.mp h).1]
      | some compiled => rw [(pure_eq_ok.mp h).1, MessageDraft.name_merge]
    · exact addMember_name h

/-- A response message has the name that it is given. -/
theorem compileResponse_name {name : String} {operation : Operation} {response : MessageDraft}
    (h : engine.compileResponse job name operation s = .ok response t) :
    response.name = name := by
  simp only [Engine.compileResponse, bind_eq_ok] at h
  obtain ⟨success, u, -, h⟩ := h
  cases success with
  | none => rw [(pure_eq_ok.mp h).1]
  | some success =>
    cases hschema : success.content.jsonSchema? with
    | none =>
      simp only [hschema] at h
      rw [(pure_eq_ok.mp h).1]
    | some schema =>
      simp only [hschema] at h
      obtain ⟨v, hadd, -⟩ := within_eq_ok.mp h
      exact addPayload_name hadd

/-- The two messages of a method are named after it. -/
theorem payloads_name {name : String} {item : PathItem} {operation : Operation} {hasBody : Bool}
    {request response : MessageDraft}
    (h : engine.payloads job name item operation s = .ok (hasBody, request, response) t) :
    request.name = name ++ "Request" ∧ response.name = name ++ "Response" := by
  simp only [Engine.payloads, bind_eq_ok] at h
  obtain ⟨parameters, u, hparameters, body, v, -, h⟩ := h
  have hname := addParameters_name hparameters
  cases body with
  | none =>
    simp only [bind_eq_ok, pure_eq_ok] at h
    obtain ⟨_, _, ⟨rfl, rfl⟩, _, _, hresponse, heq, -⟩ := h
    cases heq
    exact ⟨hname, compileResponse_name hresponse⟩
  | some body =>
    simp only [bind_eq_ok, pure_eq_ok] at h
    obtain ⟨_, _, hbody, _, _, hresponse, heq, -⟩ := h
    cases heq
    obtain ⟨w, hadd, -⟩ := within_eq_ok.mp hbody
    exact ⟨(addPayload_name hadd).trans hname, compileResponse_name hresponse⟩

end

/-! ### What an operation adds -/

section

variable {path : String} {verb : Verb} {item : PathItem} {operation : Operation}
  {methods : List MethodDraft} {method : MethodDraft}

/-- A payload that is declared has a name that its method gives. -/
theorem payloadType_adds {message : MessageDraft} {type : String} (hmethod : method ∈ methods)
    (hname : message.name ∈ payloadNames method) (h : payloadType message s = .ok type t) :
    Adds methods s t := by
  unfold payloadType at h
  split at h
  · simp only [bind_eq_ok, updateFile_eq_ok, pure_eq_ok] at h
    obtain ⟨_, _, rfl, -, rfl⟩ := h
    exact .addDependency s _
  · simp only [bind_eq_ok, get_eq_ok] at h
    obtain ⟨s₀, s₁, ⟨hread, hkept⟩, h⟩ := h
    subst s₀ s₁
    split at h
    · simp only [bind_eq_ok, warn_eq_ok, updateFile_eq_ok, pure_eq_ok] at h
      obtain ⟨_, _, rfl, _, _, rfl, -, rfl⟩ := h
      exact { Adds.addMessage s hmethod hname with }
    · simp only [bind_eq_ok, updateFile_eq_ok, pure_eq_ok] at h
      obtain ⟨_, _, rfl, -, rfl⟩ := h
      exact .addMessage s hmethod hname

/-- The request of a method is declared first, and then the response. -/
theorem finishMethod_eq_ok {name : String} {hasBody : Bool} {request response : MessageDraft}
    (hrequest : request.name = name ++ "Request") (hresponse : response.name = name ++ "Response")
    (h : finishMethod job name path verb item operation (hasBody, request, response) s =
      .ok method t) :
    method.name = name ∧ method.http = methodRule job path verb hasBody ∧
      ∃ u, payloadType request s = .ok method.inputType u ∧ Adds [method] s u ∧
        Adds [method] u t := by
  simp only [finishMethod, bind_eq_ok] at h
  obtain ⟨inputType, u, hinput, outputType, v, houtput, h⟩ := h
  -- the last step adds the file of the annotations, or nothing
  have hend : method.name = name ∧ method.http = methodRule job path verb hasBody ∧
      method.inputType = inputType ∧ Adds [method] v t := by
    split at h
    · rename_i hannotated
      simp only [bind_eq_ok, updateFile_eq_ok, pure_eq_ok] at h
      obtain ⟨_, _, rfl, rfl, rfl⟩ := h
      exact ⟨rfl, by rw [methodRule, if_pos hannotated], rfl, .addDependency v _⟩
    · rename_i hplain
      obtain ⟨rfl, rfl⟩ := pure_eq_ok.mp h
      exact ⟨rfl, by rw [methodRule, if_neg hplain], rfl, .refl _⟩
  obtain ⟨hname, hhttp, rfl, hend⟩ := hend
  have hadds : Adds [method] s u :=
    payloadType_adds (List.mem_cons_self ..) (by simp [payloadNames, hrequest, hname]) hinput
  have hadds' : Adds [method] u v :=
    payloadType_adds (List.mem_cons_self ..) (by simp [payloadNames, hresponse, hname]) houtput
  exact ⟨hname, hhttp, u, hinput, hadds, hadds'.trans hend⟩

/-- Both messages of a method are added, and nothing else but an import. -/
theorem finishMethod_adds {name : String} {hasBody : Bool} {request response : MessageDraft}
    (hrequest : request.name = name ++ "Request") (hresponse : response.name = name ++ "Response")
    (h : finishMethod job name path verb item operation (hasBody, request, response) s =
      .ok method t) : method.name = name ∧ Adds [method] s t := by
  obtain ⟨hname, -, _, -, hadds, hadds'⟩ := finishMethod_eq_ok hrequest hresponse h
  exact ⟨hname, hadds.trans hadds'⟩

/-- Where every component is known, the payloads of a method are put together without a new type. -/
theorem payloads_adds {name : String} {payloads : Bool × MessageDraft × MessageDraft}
    (h : job.engine.payloads job name item operation s = .ok payloads t)
    (hs : AllKnown job s.facts) : Adds [] s t :=
  (((payloads_interrupts (Engine.ofLevels_keeps job _) name item operation).inState hs).le_of_ok
    h).2

/-- A method adds its own payloads at most. -/
theorem methodFor_adds {name : String}
    (h : methodFor job name path verb item operation s = .ok method t)
    (hs : AllKnown job s.facts) : method.name = name ∧ Adds [method] s t := by
  rw [methodFor_eq] at h
  obtain ⟨⟨hasBody, request, response⟩, u, hpayloads, h⟩ := bind_eq_ok.mp h
  obtain ⟨hrequest, hresponse⟩ := payloads_name hpayloads
  obtain ⟨hname, hadds⟩ := finishMethod_adds hrequest hresponse h
  exact ⟨hname, ((payloads_adds hpayloads hs).mono (List.nil_subset _)).trans hadds⟩

/-- An operation adds the messages of its method to those that are there for other methods. -/
theorem addOperation_adds {service grown : ServiceDraft} {entry : Verb × Operation} {start : State}
    (h : addOperation job path item service entry s = .ok grown t)
    (hstart : AllKnown job start.facts) (hservice : Adds service.methods start s) :
    Adds grown.methods start t := by
  obtain ⟨verb, operation⟩ := entry
  simp only [addOperation] at h
  split at h
  · obtain ⟨rfl, rfl⟩ := pure_eq_ok.mp h
    exact hservice
  · split at h
    · simp only [bind_eq_ok, warn_eq_ok, pure_eq_ok] at h
      obtain ⟨_, _, rfl, rfl, rfl⟩ := h
      exact { hservice with }
    · rename_i hfree
      simp only [bind_eq_ok, pure_eq_ok] at h
      obtain ⟨method, u, hunder, rfl, rfl⟩ := h
      obtain ⟨v, hmethod, rfl⟩ := under_eq_ok.mp hunder
      have hknown := hservice.allKnown hstart
      obtain ⟨hname, hadds⟩ := methodFor_adds hmethod ⟨hknown.schemas, hknown.bodies⟩
      -- the name of the method is free, so the service takes the method
      rw [ServiceDraft.addMethod, hname, if_neg hfree]
      exact (hservice.mono (List.subset_append_left ..)).trans
        (hadds.under.mono (List.subset_append_right ..))

end

/-! ### The pass over the operations -/

/-- The operations add the payloads of the methods of the service at most. -/
theorem addOperations_adds {service full : ServiceDraft}
    (h : addOperations job service s = .ok full t) (hs : AllKnown job s.facts) :
    Adds full.methods s t :=
  foldlM_keeps (P := fun t service => Adds service.methods s t)
    (fun hround hservice => foldlM_keeps (P := fun t service => Adds service.methods s t)
      (fun hround hservice => addOperation_adds hround hs hservice) hround hservice)
    h (.refl s)

/-- When the components leave every component known and no service, the operations add messages for
the methods of the service, and nothing else. -/
theorem declareService_adds (h : declareService job s = .ok ⟨⟩ t) (hs : AllKnown job s.facts)
    (hjustified : Justified job s) (hnone : s.file.services = []) :
    Adds (t.file.services.flatMap (·.methods)) s t := by
  obtain ⟨service, u, hadd, rfl⟩ := declareService_eq_ok h
  have hadds := addOperations_adds hadd hs
  split
  · rename_i hmethods
    rw [hmethods] at hadds
    exact hadds.mono (List.nil_subset _)
  · have hreached := (addOperations_sound hadd hjustified rfl rfl rfl).reached
    have hadded : (u.file.addService service) = { u.file with services := [service] } := by
      simp [FileDraft.addService, FileDraft.hasService, hreached.later.services.trans hnone]
    rw [hadded]
    exact { hadds.mono (by simp) with }

/-- The operations only add to what the components have left: their pass keeps every message, every
enum, every kept name, and what each component became, all in their places. Behind the messages it
adds requests and responses of methods of the service, and imports stay. -/
theorem operations_only_add {document : Document} {config : Config} {s t : State}
    (hcomponents : declareComponents ⟨document, config⟩ { file := startFile document config } =
      .ok ⟨⟩ s)
    (hoperations : declareService ⟨document, config⟩ s = .ok ⟨⟩ t) :
    Adds (t.file.services.flatMap (·.methods)) s t := by
  obtain ⟨reserved, hgrown, hschemas, hbodies⟩ :=
    declareComponents_sound hcomponents (justified_start ⟨document, config⟩)
  exact declareService_adds hoperations ⟨hschemas, hbodies⟩ hgrown.justified
    (hgrown.later.services.trans (startFile_prebuilt document config).services)

/-- A pet, and an operation that takes one by reference and another one under the name of the
component. -/
def adoption : Document :=
  { descriptionOf [("Pet", objectNode [("name", textNode)])] with
    paths := .ofList
      [("/adoptions", {
          post := some (operationWith (objectNode
            [("friend", .ref "#/components/schemas/Pet"),
             ("pet", objectNode [("age", textNode)])])) })] }

/-- The operation adds its request to the component, although an inline type has its name. -/
theorem operations_only_add_adoption :
    ∃ s t, declareComponents ⟨adoption, {}⟩ { file := startFile adoption {} } = .ok ⟨⟩ s ∧
      declareService ⟨adoption, {}⟩ s = .ok ⟨⟩ t ∧
      t.file.messages.map FileMessage.name = ["Pet", "PostAdoptionsRequest"] ∧
      Adds (t.file.services.flatMap (·.methods)) s t := by
  have hcompiles : compilesTo adoption {}
      (fun t => t.file.messages.map FileMessage.name == ["Pet", "PostAdoptionsRequest"]) =
        true := by
    decide +kernel
  obtain ⟨_, t, -, -, hrun, hnames⟩ := exists_of_compilesTo hcompiles
  obtain ⟨_, s, hcomponents, hoperations⟩ := bind_eq_ok.mp hrun
  have hoperations : declareService ⟨adoption, {}⟩ s = .ok ⟨⟩ t := hoperations
  exact ⟨s, t, hcomponents, hoperations, eq_of_beq hnames,
    operations_only_add hcomponents hoperations⟩

end Protoscribe.Compile
