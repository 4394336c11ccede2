import Protoscribe.Proofs.Compile.Filled
import Protoscribe.Proofs.Compile.Linked

/-!
# `Protoscribe.Proofs.EmptyMessages`: what becomes of messages without fields

No message without fields gets into a file, at any depth: what compiles to nothing is left out, and
a method with an empty payload refers to the empty message. That reference is written as a relative
name. It leads to the empty message exactly when no scope of the package declares a type of that
name (`HidesEmpty`). `emptiness_suppressed_iff` states both.
-/

set_option autoImplicit false

namespace Protoscribe

/-- Some scope of the package declares a type with the name of the empty message. -/
def FileDescriptor.HidesEmpty (file : FileDescriptor) : Prop :=
  ∃ around ∈ Link.scopes file.root.toList, around ≠ [] ∧
    Link.qualify (String.ofList around) Compile.emptyMessage ∈ file.typeNames

/-- A type for a payload: that of an empty payload is the empty message, exactly when that is not
hidden, and any other payload has its own type in the package. -/
structure FileDescriptor.SuitsPayload (file : FileDescriptor) (payload : MessageDraft)
    (type : Option String) : Prop where
  empty : payload.isEmpty = true → (type = some ".google.protobuf.Empty" ↔ ¬ file.HidesEmpty)
  named : payload.isEmpty = false →
    type = some (Link.qualify file.root payload.name) ∧
      Link.qualify file.root payload.name ∈ file.typeNames

namespace Compile

open OpenApi (Document Endpoint Operation SchemaNode)

/-- A method of a file has the name for an endpoint, and its types suit the payloads that the
endpoint was compiled to. -/
structure SuitsEndpoint (job : Job) (facts : Facts) (file : FileDescriptor) (endpoint : Endpoint)
    (method : MethodDescriptor) : Prop where
  name : method.name = some (job.methodName endpoint.path endpoint.verb)
  types : ∃ request response, PayloadsOf job facts endpoint request response ∧
    file.SuitsPayload request method.inputType ∧ file.SuitsPayload response method.outputType

variable {job : Job} {s : State}

/-- Both payloads of an endpoint have been put together. -/
theorem PayloadsOf.payloads {facts : Facts} {endpoint : Endpoint}
    {request response : MessageDraft} (h : PayloadsOf job facts endpoint request response) :
    Payload job facts request ∧ Payload job facts response := by
  obtain ⟨hitem, hoperation, hstart, hrequest, hresponse, hlater⟩ := h
  obtain ⟨hgrown, hfrom⟩ := requestMessage_sound hrequest hstart
  obtain ⟨hgrown', hfrom'⟩ := compileResponse_sound hresponse hgrown.justified
  have hlaterRequest := Facts.le_trans hgrown'.later.facts_le hlater
  exact ⟨(PayloadFrom.request hitem hoperation (hfrom.mono hlaterRequest)).payload,
    (PayloadFrom.response hitem hoperation (hfrom'.mono hlater)).payload⟩

/-- Only an empty payload has the name of the empty message. -/
theorem Payload.payloadName_eq_iff {facts : Facts} {payload : MessageDraft}
    (h : Payload job facts payload) :
    payloadName payload = emptyMessage ↔ payload.isEmpty = true := by
  constructor
  · intro hname
    by_contra hempty
    rw [payloadName, if_neg hempty] at hname
    exact not_plain_of_mem_wellKnownNames _ (List.mem_cons_self ..)
      (hname ▸ (h.everywhere (wellNamed_stable job facts)).here.name)
  · exact fun hempty => if_pos hempty

/-- From the root, the name of a type of the file is looked up to that type. -/
theorem Outcome.resolve_of_hasType (h : Outcome job s) {name : String} (hname : Plain name)
    (hdeclared : s.file.hasType name = true) :
    Link.resolve s.file.build.typeNames s.file.build.root name =
        Link.qualify s.file.build.root name ∧
      Link.qualify s.file.build.root name ∈ s.file.build.typeNames := by
  obtain ⟨kind, hdeclares⟩ :=
    FileDraft.declares_of_mem_typeNames (h.justified.inStep.hasType_iff.mp hdeclared)
  have hmem : Link.qualify s.file.build.root name ∈ s.file.build.typeNames :=
    FileDescriptor.mem_typeNames.mpr ⟨[name], kind, FileDraft.declares_build.mpr hdeclares, rfl⟩
  exact ⟨Link.resolve_of_mem (Link.head?_ne_dot hname.dot_not_mem) hmem, hmem⟩

/-- The name of a payload is looked up to the type of the payload; that of an empty one is looked up
to the empty message exactly when that is not hidden. -/
theorem Outcome.suitsPayload_resolve (h : Outcome job s) {payload : MessageDraft}
    (hpayload : Payload job s.facts payload) (htype : PayloadType job s (payloadName payload)) :
    s.file.build.SuitsPayload payload
      (some (Link.resolve s.file.build.typeNames s.file.build.root (payloadName payload))) where
  empty hempty := by
    rw [payloadName, if_pos hempty, Option.some_inj,
      show ".google.protobuf.Empty" = "." ++ emptyMessage from rfl,
      Link.resolve_eq_absolute_iff (by decide), FileDescriptor.HidesEmpty]
    simp only [not_exists, not_and]
  named hempty := by
    have hplain : Plain payload.name :=
      (hpayload.everywhere (wellNamed_stable job s.facts)).here.name
    have hdeclared : s.file.hasType (payloadName payload) = true := by
      rcases htype with heq | ⟨hhas, -⟩
      · simp [hempty, hpayload.payloadName_eq_iff] at heq
      · exact hhas
    rw [payloadName, if_neg (by simp [hempty])] at hdeclared ⊢
    obtain ⟨hresolved, hmem⟩ := h.resolve_of_hasType hplain hdeclared
    exact ⟨congrArg some hresolved, hmem⟩

/-- Every message of a compiled file has fields, unless it was handed in. -/
theorem Outcome.fields_ne_nil (h : Outcome job s) {path : List String}
    {message : MessageDescriptor} (hplaced : (path, message) ∈ s.file.build.placed) :
    message.fields ≠ [] ∨
      s.file.build.IsFinished job.config.additionalMessages path message := by
  rcases FileDraft.mem_placed_build_cases hplaced with
    ⟨draft, hdraft, hfields⟩ | ⟨descriptor, original, hfinished, hmem, heq⟩
  · obtain ⟨outer, houter, hwithin⟩ := FileDraft.mem_placed.mp hdraft
    have hdrafted : draft.fields ≠ [] :=
      (h.justified.messages outer houter).hasFields.of_mem_placed hwithin
    refine .inl fun hnone => hdrafted ?_
    rw [hnone] at hfields
    exact List.forall₂_nil_right_iff.mp hfields
  · exact .inr ⟨descriptor, h.justified.finished descriptor hfinished, original, hmem, heq⟩

/-- The types of a drafted method are looked up to types that suit the payloads of its endpoint. -/
theorem Outcome.suitsEndpoint (h : Outcome job s) {endpoint : Endpoint} {method : MethodDraft}
    (htyped : MethodTyped job s endpoint method) :
    SuitsEndpoint job s.facts s.file.build endpoint
      (Link.inMethod s.file.build.typeNames s.file.build.root method.build) := by
  obtain ⟨request, response, hpayloads, hinput, houtput⟩ := htyped.payloads
  obtain ⟨hrequest, hresponse⟩ := hpayloads.payloads
  refine ⟨congrArg some htyped.name, request, response, hpayloads, ?_, ?_⟩
  · have hsuits := h.suitsPayload_resolve hrequest (hinput ▸ htyped.input)
    rwa [← hinput] at hsuits
  · have hsuits := h.suitsPayload_resolve hresponse (houtput ▸ htyped.output)
    rwa [← houtput] at hsuits

/-- Messages without fields are suppressed: a message of the compiled file has fields, unless it was
handed in. The methods are those of the endpoints that are served, one for each, and the type of a
method for an empty payload is the empty message, exactly when no scope of the package hides
that. -/
theorem emptiness_suppressed_iff {document : Document} {config : Config} {out : Output}
    (h : compile document config = .ok out) :
    (∀ path message, (path, message) ∈ out.file.placed →
      message.fields ≠ [] ∨ out.file.IsFinished config.additionalMessages path message) ∧
    ∃ s, compileDocument ⟨document, config⟩ { file := startFile document config } = .ok ⟨⟩ s ∧
      out.file = s.file.build ∧
      ∀ service ∈ out.file.services,
        List.Forall₂ (SuitsEndpoint ⟨document, config⟩ s.facts out.file)
          (Job.servedAmong ⟨document, config⟩ document.endpoints) service.methods := by
  obtain ⟨s, hrun, hs, hfile⟩ := compile_eq_ok h
  rw [hfile]
  refine ⟨fun path message hplaced => hs.fields_ne_nil hplaced, s, hrun, rfl, ?_⟩
  intro service hservice
  rw [FileDraft.linkedServices_build] at hservice
  obtain ⟨source, hsource, rfl⟩ := List.mem_map.mp hservice
  have hoperations := hs.operations source (FileDraft.mem_sortByName.mp hsource)
  rw [FileDescriptor.linkedService, List.forall₂_map_right_iff]
  exact hoperations.imp fun _ _ htyped => hs.suitsEndpoint htyped

/-- A component without members, and an operation with a request and no response. -/
def doorbell : Document :=
  { descriptionOf [("Bell", objectNode [("tone", textNode)]), ("Silence", objectNode [])] with
    paths := .ofList
      [("/ring", { post := some (operationWith (objectNode [("times", textNode)])) })] }

/-- Messages without fields are suppressed in the file for the doorbell. -/
theorem emptiness_suppressed_iff_doorbell :
    ∃ out, compile doorbell {} = .ok out ∧
      (∀ path message, (path, message) ∈ out.file.placed →
        message.fields ≠ [] ∨ out.file.IsFinished [] path message) ∧
      ∃ s, compileDocument ⟨doorbell, {}⟩ { file := startFile doorbell {} } = .ok ⟨⟩ s ∧
        out.file = s.file.build ∧
        ∀ service ∈ out.file.services,
          List.Forall₂ (SuitsEndpoint ⟨doorbell, {}⟩ s.facts out.file)
            (Job.servedAmong ⟨doorbell, {}⟩ doorbell.endpoints) service.methods := by
  have hcompiles : compilesTo doorbell {} (fun _ => true) = true := by decide +kernel
  obtain ⟨out, -, hout, -⟩ := exists_of_compilesTo hcompiles
  exact ⟨out, hout, emptiness_suppressed_iff hout⟩

/-- A component that is called `Empty`, and an operation without a request. -/
def ownEmpty : Document :=
  { descriptionOf [("Empty", objectNode [("reason", textNode)])] with
    paths := .ofList [("/ping", { get := some {} })] }

/-- A package that ends like the one of the empty message. -/
def nestedPackage : Config :=
  { package := some "acme.google.protobuf" }

/-- In such a package, an operation without a request takes the component for the empty message. -/
theorem ownEmpty_hides_empty :
    ∃ out s, compile ownEmpty nestedPackage = .ok out ∧
      compileDocument ⟨ownEmpty, nestedPackage⟩ { file := startFile ownEmpty nestedPackage } =
        .ok ⟨⟩ s ∧
      ∃ service ∈ out.file.services, ∃ method ∈ service.methods,
      ∃ endpoint ∈ Job.servedAmong ⟨ownEmpty, nestedPackage⟩ ownEmpty.endpoints,
      ∃ request response,
        method.name = some (Job.methodName ⟨ownEmpty, nestedPackage⟩ endpoint.path endpoint.verb) ∧
        PayloadsOf ⟨ownEmpty, nestedPackage⟩ s.facts endpoint request response ∧
        request.isEmpty = true ∧ method.inputType = some ".acme.google.protobuf.Empty" := by
  have hcompiles : compilesTo ownEmpty nestedPackage (fun s =>
      s.file.services.any fun service => service.methods.any fun method =>
        method.inputType == emptyMessage &&
          Link.resolve s.file.build.typeNames s.file.build.root emptyMessage ==
            ".acme.google.protobuf.Empty") = true := by
    decide +kernel
  obtain ⟨out, s, hout, hfile, hrun, hcheck⟩ := exists_of_compilesTo hcompiles
  simp only [Bool.and_eq_true, List.any_eq_true, beq_iff_eq] at hcheck
  obtain ⟨source, hsource, drafted, hdrafted, hinput, hlooked⟩ := hcheck
  obtain ⟨_, hrun', hs, -⟩ := compile_eq_ok hout
  cases hrun.symm.trans hrun'
  obtain ⟨endpoint, hendpoint, htyped⟩ := hs.methods hsource hdrafted
  obtain ⟨request, response, hpayloads, hname, -⟩ := htyped.payloads
  obtain ⟨service, hservice, hmethod⟩ :=
    FileDraft.mem_methods_build.mpr ⟨source, hsource, drafted, hdrafted, rfl⟩
  refine ⟨out, s, hout, hrun, service, hfile ▸ hservice, _, hmethod, endpoint, hendpoint, request,
    response, congrArg some htyped.name, hpayloads, ?_, ?_⟩
  -- its type is that of an empty message, so the request is empty
  · exact hpayloads.payloads.1.payloadName_eq_iff.mp (hname.symm.trans hinput)
  · show some (Link.resolve _ _ drafted.inputType) = _
    rw [hinput, hlooked]

end Compile

end Protoscribe
