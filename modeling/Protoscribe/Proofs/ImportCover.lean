import Protoscribe.Proofs.Additions
import Protoscribe.Proofs.Compile.FaithfulPasses
import Protoscribe.Proofs.Compile.Linked
import Protoscribe.Proofs.Operations

/-!
# `Protoscribe.Proofs.ImportCover`: a file imports what it uses

Three files may come into the imports besides the configured ones: the one with the messages that
hold a scalar, the one with the empty message, and the one with the option for REST mappings. Each
is added where a type or an option is written down, deep in the recursion or at the end of an
operation, and stays. `FileDescriptor.ImportsCover` says of the finished file that every use is
covered, and that the last one of the three is not there without a use.

* A field of a holder was marked when the import was added, and keeps its type wherever it moves
  (`wellTyped_stable`). Other names of types are plain, so they are not looked up to a holder that
  the file does not declare (`Outcome.holder_or_plain`).
* `ServiceCovered` is the invariant of the pass over the operations, with `finishMethod_covered` for
  what one operation adds.
-/

set_option autoImplicit false

namespace Protoscribe

namespace Compile

/-- The messages that hold a scalar. -/
def holderNames : List String :=
  ["DoubleValue", "FloatValue", "Int64Value", "UInt64Value", "Int32Value", "UInt32Value",
    "BoolValue", "StringValue", "BytesValue"].map ("google.protobuf." ++ ·)

end Compile

open Compile (holderNames emptyMessage wrappersFile emptyFile annotationsFile) in
/-- The imports of a file cover what it uses. -/
structure FileDescriptor.ImportsCover (file : FileDescriptor) (config : Compile.Config) :
    Prop where
  /-- The imports are sorted, each is there once. -/
  ascending : file.dependencies.Pairwise (· < ·)
  configured : config.dependencies ⊆ file.dependencies
  /-- A field holds a scalar in a message that the file does not declare itself. -/
  holders : ∀ path message, (path, message) ∈ file.placed → ∀ field ∈ message.fields,
    ∀ holder ∈ holderNames, field.typeName = some ("." ++ holder) →
      "." ++ holder ∉ file.typeNames → wrappersFile ∈ file.dependencies
  /-- A method takes or gives the empty message. -/
  empty : ∀ service ∈ file.services, ∀ method ∈ service.methods,
    method.inputType = some ("." ++ emptyMessage) ∨
      method.outputType = some ("." ++ emptyMessage) → emptyFile ∈ file.dependencies
  /-- A method has a REST mapping. -/
  annotations : annotationsFile ∉ config.dependencies →
    (annotationsFile ∈ file.dependencies ↔
      ∃ service ∈ file.services, ∃ method ∈ service.methods, method.http.isSome = true)

namespace Compile

open OpenApi (Document Operation PathItem Verb)

variable {job : Job} {s t : State}

/-! ### Imports at the start and at the end -/

/-- The imports are those that are added and those that are there. -/
theorem mem_imports_foldl_addDependency {names : List String} {file : FileDraft} {name : String} :
    name ∈ (names.foldl FileDraft.addDependency file).dependencies.keys ↔
      name ∈ names ∨ name ∈ file.dependencies.keys := by
  induction names generalizing file with
  | nil => simp
  | cons first rest ih =>
    rw [List.foldl_cons, ih, FileDraft.addDependency, Table.mem_keys_insert, List.mem_cons]
    tauto

/-- Finished messages import nothing. -/
theorem dependencies_foldl_addFinished (finished : List MessageDescriptor) (file : FileDraft) :
    (finished.foldl FileDraft.addFinished file).dependencies = file.dependencies := by
  induction finished generalizing file with
  | nil => rfl
  | cons first rest ih =>
    rw [List.foldl_cons, ih]
    unfold FileDraft.addFinished
    split <;> rfl

/-- At the start, the configured files are imported and no other ones. -/
theorem mem_imports_startFile {document : Document} {config : Config} {name : String} :
    name ∈ (startFile document config).dependencies.keys ↔ name ∈ config.dependencies := by
  unfold startFile
  rw [dependencies_foldl_addFinished, mem_imports_foldl_addDependency]
  simp

/-! ### Types that hold a scalar -/

/-- A type name is plain, or it names a holder, and then the file with the holders is imported. -/
theorem Outcome.holder_or_plain (h : Outcome job s)
    (hnone : job.config.additionalMessages = []) {path : List String} {draft : MessageDraft}
    (hplaced : (path, draft) ∈ s.file.placed) {field : FieldDraft} (hfield : field ∈ draft.fields)
    {name : String} (hname : field.typeName = some name) :
    ((∃ type, holder? type = some name) ∧ wrappersFile ∈ s.facts.imports) ∨ Plain name := by
  have htyped := h.of_mem_placed (wellTyped_stable job s.facts) hplaced field hfield
  rw [hname] at htyped
  generalize field.type = type at htyped
  cases htyped with
  | holder hholder himport => exact .inl ⟨⟨_, hholder⟩, himport⟩
  | nested _ hnested =>
    obtain ⟨kind, hdeclares⟩ := FileDraft.declares_of_mem_nested hplaced hnested
    refine .inr (h.plain_of_declares hnone (FileDraft.declares_build.mpr hdeclares) name ?_)
    exact List.mem_append_right _ (List.mem_singleton_self name)
  | component hresult hkind =>
    obtain ⟨around, kind, -, hdeclares⟩ :=
      h.inScope_of_lookup path hresult (hkind.imp And.left And.left)
    exact .inr (h.plain_of_declares hnone hdeclares name (by simp))
  | borrowed hcomponent => exact .inr (Job.plain_of_mem_componentNames hcomponent)

/-- The types that wrap scalars are well-known ones. -/
theorem holderNames_subset : holderNames ⊆ wellKnownNames := by
  decide

/-- A field of the compiled file is of a holder that the file does not declare only when the file
with the holders is imported. -/
theorem Outcome.holders_imported (h : Outcome job s)
    (hnone : job.config.additionalMessages = []) {path : List String}
    {message : MessageDescriptor} (hplaced : (path, message) ∈ s.file.build.placed)
    {linked : FieldDescriptor} (hlinked : linked ∈ message.fields) {holder : String}
    (hholder : holder ∈ holderNames) (htype : linked.typeName = some ("." ++ holder))
    (hforeign : "." ++ holder ∉ s.file.build.typeNames) : wrappersFile ∈ s.facts.imports := by
  obtain ⟨draft, hdraft, hfields⟩ :=
    FileDraft.exists_of_mem_placed_build (h.not_finished hnone) hplaced
  obtain ⟨field, hfield, hfrom⟩ := (exists_of_forall₂ hfields).2 _ hlinked
  rw [hfrom.typeName, Option.map_eq_some_iff] at htype
  obtain ⟨name, hname, hlooked⟩ := htype
  refine ((h.holder_or_plain hnone hdraft hfield hname).imp_left And.right).resolve_right
    fun hplain => ?_
  -- a plain name is looked up to a type of the file, or to itself, which is no holder
  rcases s.file.build.lookUp_mem_or path (Link.head?_ne_dot hplain.dot_not_mem) with
    hmem | habsolute
  · exact hforeign (hlooked ▸ hmem)
  · have hsame : name = holder := by
      rw [habsolute] at hlooked
      simpa [String.ext_iff] using hlooked
    exact not_plain_of_mem_wellKnownNames holder (holderNames_subset hholder) (hsame ▸ hplain)

/-! ### Types of methods -/

/-- What a name is looked up to ends with the name. -/
theorem suffix_resolve (known : List String) (scope name : String) :
    name.toList <:+ (Link.resolve known scope name).toList := by
  have hqualify (around : String) : name.toList <:+ (Link.qualify around name).toList := by
    rw [Link.toList_qualify]
    exact ⟨around.toList ++ ['.'], by simp⟩
  unfold Link.resolve
  split
  · exact List.suffix_rfl
  · cases hfind : ((Link.scopes scope.toList).map fun around =>
        Link.qualify (String.ofList around) name).find? known.contains with
    | some found =>
      obtain ⟨around, -, rfl⟩ := List.mem_map.mp (List.mem_of_find?_eq_some hfind)
      exact hqualify _
    | none => exact hqualify ""

/-- The type of a method is the empty message, and that is imported, or it is the message for the
payload. -/
def TypeCovered (imports : List String) (type payload : String) : Prop :=
  type = emptyMessage ∧ emptyFile ∈ imports ∨ type = payload

/-- The types of a method and its REST mapping are covered by imports. -/
structure MethodCovered (imports : List String) (method : MethodDraft) : Prop where
  input : TypeCovered imports method.inputType (method.name ++ "Request")
  output : TypeCovered imports method.outputType (method.name ++ "Response")
  http : method.http.isSome = true → annotationsFile ∈ imports

/-- What is covered by imports is covered by more of them. -/
theorem TypeCovered.mono {imports more : List String} {type payload : String}
    (h : TypeCovered imports type payload) (hmore : imports ⊆ more) :
    TypeCovered more type payload :=
  h.imp_left fun ⟨htype, hempty⟩ => ⟨htype, hmore hempty⟩

/-- A method that is covered by imports is covered by more of them. -/
theorem MethodCovered.mono {imports more : List String} {method : MethodDraft}
    (h : MethodCovered imports method) (hmore : imports ⊆ more) : MethodCovered more method :=
  ⟨h.input.mono hmore, h.output.mono hmore, fun hhttp => hmore (h.http hhttp)⟩

/-- A type of a method is looked up to the empty message only when that is imported: the messages
for payloads have other names. -/
theorem TypeCovered.empty_imported {imports known : List String} {root type payload : String}
    (h : TypeCovered imports type payload)
    (hpayload : ¬ payload.toList <:+ ("." ++ emptyMessage).toList)
    (hlooked : Link.resolve known root type = "." ++ emptyMessage) : emptyFile ∈ imports := by
  rcases h with ⟨-, hempty⟩ | rfl
  · exact hempty
  · exact absurd (hlooked ▸ suffix_resolve known root type) hpayload

/-- The name of a payload is not that of the empty message. -/
theorem not_suffix_empty {name suffix : String}
    (hsuffix : suffix = "Request" ∨ suffix = "Response") :
    ¬ (name ++ suffix).toList <:+ ("." ++ emptyMessage).toList := by
  intro h
  have hend : suffix.toList <:+ ("." ++ emptyMessage).toList := by
    refine List.IsSuffix.trans ⟨name.toList, ?_⟩ h
    rw [String.toList_append]
  rcases hsuffix with rfl | rfl <;> revert hend <;> decide

/-- If the empty message is used, its file is imported. -/
theorem payloadType_covered {message : MessageDraft} {type : String}
    (h : payloadType message s = .ok type t) :
    s.facts.imports ⊆ t.facts.imports ∧ TypeCovered t.facts.imports type message.name := by
  unfold payloadType at h
  split at h
  · simp only [bind_eq_ok, updateFile_eq_ok, pure_eq_ok] at h
    obtain ⟨_, _, rfl, rfl, rfl⟩ := h
    exact ⟨fun file hfile => Table.mem_keys_insert.mpr (.inr hfile),
      .inl ⟨rfl, Table.mem_keys_insert.mpr (.inl rfl)⟩⟩
  · have hadd := s.file.dependencies_addMessage message
    -- a message that is declared changes no import, whether its name is taken or not
    have hsame : t.facts.imports = s.facts.imports ∧ type = message.name := by
      simp only [bind_eq_ok, get_eq_ok] at h
      obtain ⟨s₀, s₁, ⟨hread, hkept⟩, h⟩ := h
      subst s₀ s₁
      split at h
      · simp only [bind_eq_ok, warn_eq_ok, updateFile_eq_ok, pure_eq_ok] at h
        obtain ⟨_, _, rfl, _, _, rfl, rfl, rfl⟩ := h
        exact ⟨congrArg Table.keys hadd, rfl⟩
      · simp only [bind_eq_ok, updateFile_eq_ok, pure_eq_ok] at h
        obtain ⟨_, _, rfl, rfl, rfl⟩ := h
        exact ⟨congrArg Table.keys hadd, rfl⟩
    exact ⟨by rw [hsame.1]; exact List.Subset.refl _, .inr hsame.2⟩

section

variable {path : String} {verb : Verb} {item : PathItem} {operation : Operation}
  {method : MethodDraft}

/-- A finished method is covered, and the option for REST mappings is imported only for it. -/
theorem finishMethod_covered {name : String} {hasBody : Bool} {request response : MessageDraft}
    (hrequest : request.name = name ++ "Request") (hresponse : response.name = name ++ "Response")
    (h : finishMethod job name path verb item operation (hasBody, request, response) s =
      .ok method t) :
    MethodCovered t.facts.imports method ∧
      (annotationsFile ∈ t.facts.imports → annotationsFile ∈ s.facts.imports ∨
        method.http.isSome = true) := by
  simp only [finishMethod, bind_eq_ok] at h
  obtain ⟨inputType, u, hinput, outputType, v, houtput, h⟩ := h
  obtain ⟨-, hinputCovered⟩ := payloadType_covered hinput
  obtain ⟨hmore, houtputCovered⟩ := payloadType_covered houtput
  rw [hrequest] at hinputCovered
  rw [hresponse] at houtputCovered
  have hinputCovered := hinputCovered.mono hmore
  -- payloads import no file but that of the empty message
  have hnew : annotationsFile ∈ v.facts.imports → annotationsFile ∈ s.facts.imports := by
    intro hfile
    have hpayload (message : MessageDraft) :
        Faithful job.document [emptyFile] (payloadType message) :=
      payloadType_faithful (List.mem_singleton_self _) message
    have hu := ((hpayload response).imports (by rwa [stateAfter_of_ok houtput])).resolve_right
      (by decide)
    exact ((hpayload request).imports (by rwa [stateAfter_of_ok hinput])).resolve_right
      (by decide)
  split at h
  · simp only [bind_eq_ok, updateFile_eq_ok, pure_eq_ok] at h
    obtain ⟨_, _, rfl, rfl, rfl⟩ := h
    have hadded : v.facts.imports ⊆ ({ v with file := v.file.addDependency annotationsFile } :
        State).facts.imports := fun file hfile => Table.mem_keys_insert.mpr (.inr hfile)
    exact ⟨⟨hinputCovered.mono hadded, houtputCovered.mono hadded,
      fun _ => Table.mem_keys_insert.mpr (.inl rfl)⟩, fun _ => .inr rfl⟩
  · obtain ⟨rfl, rfl⟩ := pure_eq_ok.mp h
    exact ⟨⟨hinputCovered, houtputCovered, fun hhttp => by cases hhttp⟩,
      fun hfile => .inl (hnew hfile)⟩

/-- Compiling the messages of a method imports holders at most. -/
theorem methodFor_covered (hitem : (path, item) ∈ job.document.paths.entries)
    (hoperation : (verb, operation) ∈ item.operations)
    (h : methodFor job (job.methodName path verb) path verb item operation s = .ok method t) :
    MethodCovered t.facts.imports method ∧
      (annotationsFile ∈ t.facts.imports → annotationsFile ∈ s.facts.imports ∨
        method.http.isSome = true) := by
  rw [methodFor_eq] at h
  obtain ⟨⟨hasBody, request, response⟩, u, hpayloads, hfinish⟩ := bind_eq_ok.mp h
  obtain ⟨hrequest, hresponse⟩ := payloads_name hpayloads
  obtain ⟨hcovered, hannotations⟩ := finishMethod_covered hrequest hresponse hfinish
  refine ⟨hcovered, fun hfile => (hannotations hfile).imp_left fun hu => ?_⟩
  have hfaithful : Faithful job.document [wrappersFile]
      (job.engine.payloads job (job.methodName path verb) item operation) :=
    payloads_faithful (Engine.ofLevels_faithful job (List.mem_singleton_self _) _) _ hitem
      hoperation
  exact (hfaithful.imports (by rwa [stateAfter_of_ok hpayloads])).resolve_right (by decide)

end

/-! ### The service -/

/-- All methods of a service are covered. The option for REST mappings was imported at the start, or
for one of the methods. -/
structure ServiceCovered (start : List String) (s : State) (service : ServiceDraft) : Prop where
  methods : ∀ method ∈ service.methods, MethodCovered s.facts.imports method
  annotations : annotationsFile ∈ s.facts.imports →
    annotationsFile ∈ start ∨ ∃ method ∈ service.methods, method.http.isSome = true

/-- An operation imports what its method uses. -/
theorem addOperation_covered {start : List String} {path : String} {item : PathItem}
    {service grown : ServiceDraft} {entry : Verb × Operation}
    (hitem : (path, item) ∈ job.document.paths.entries) (hentry : entry ∈ item.operations)
    (h : addOperation job path item service entry s = .ok grown t) (hs : Justified job s)
    (hservice : ServiceCovered start s service) :
    Reached job s t ∧ ServiceCovered start t grown := by
  have hreached := addOperation_reached hitem hentry h hs
  refine ⟨hreached, ?_⟩
  obtain ⟨verb, operation⟩ := entry
  simp only [addOperation] at h
  split at h
  · obtain ⟨rfl, rfl⟩ := pure_eq_ok.mp h
    exact hservice
  · split at h
    · simp only [bind_eq_ok, warn_eq_ok, pure_eq_ok] at h
      obtain ⟨_, _, rfl, rfl, rfl⟩ := h
      exact { hservice with }
    · rename_i hfree
      simp only [bind_eq_ok, pure_eq_ok] at h
      obtain ⟨method, u, hunder, rfl, rfl⟩ := h
      obtain ⟨v, hmethod, rfl⟩ := under_eq_ok.mp hunder
      obtain ⟨hcovered, hannotations⟩ := methodFor_covered hitem hentry hmethod
      have hname := (methodFor_eq_ok hmethod).1
      -- the name of the method is free, so the service takes the method
      rw [ServiceDraft.addMethod, hname, if_neg hfree]
      refine ⟨?_, fun hfile => ?_⟩
      · intro other hother
        rcases List.mem_append.mp hother with hold | hnew
        · exact (hservice.methods other hold).mono hreached.later.imports
        · cases List.mem_singleton.mp hnew
          exact hcovered
      · rcases hannotations hfile with hbefore | hhttp
        · rcases hservice.annotations hbefore with hconfigured | ⟨other, hother, hhttp⟩
          · exact .inl hconfigured
          · exact .inr ⟨other, List.mem_append_left _ hother, hhttp⟩
        · exact .inr ⟨method, List.mem_append_right _ (List.mem_singleton_self _), hhttp⟩

/-- All operations import what their methods use. -/
theorem addOperations_covered {start : List String} {service full : ServiceDraft}
    (h : addOperations job service s = .ok full t) (hs : Justified job s)
    (hservice : ServiceCovered start s service) :
    Reached job s t ∧ ServiceCovered start t full :=
  foldlM_sound (P := ServiceCovered start)
    (fun hitem hround hs hservice =>
      foldlM_sound (P := ServiceCovered start)
        (fun hentry hround hs hservice => addOperation_covered hitem hentry hround hs hservice)
        hround hs hservice)
    h hs hservice

/-! ### The whole run -/

/-- What the imports of a state say about its methods. -/
structure RunCovered (job : Job) (s : State) : Prop where
  configured : job.config.dependencies ⊆ s.facts.imports
  methods : ∀ service ∈ s.file.services, ∀ method ∈ service.methods,
    MethodCovered s.facts.imports method
  annotations : annotationsFile ∈ s.facts.imports → annotationsFile ∈ job.config.dependencies ∨
    ∃ service ∈ s.file.services, ∃ method ∈ service.methods, method.http.isSome = true

/-- The components import holders at most, and there is no method yet. -/
theorem declareComponents_covered
    (h : declareComponents job { file := startFile job.document job.config } = .ok ⟨⟩ t) :
    RunCovered job t := by
  obtain ⟨reserved, hgrown, -⟩ := declareComponents_sound h (justified_start job)
  have hnone : t.file.services = [] :=
    hgrown.later.services.trans (startFile_prebuilt job.document job.config).services
  have hfaithful : Faithful job.document [wrappersFile] (declareComponents job) :=
    declareComponents_faithful (Engine.ofLevels_faithful job (List.mem_singleton_self _) job.levels)
  refine ⟨fun file hfile => hgrown.later.imports file (mem_imports_startFile.mpr hfile),
    by simp [hnone], fun hfile => .inl ?_⟩
  have hstart := (hfaithful.imports (by rwa [stateAfter_of_ok h])).resolve_right (by decide)
  exact mem_imports_startFile.mp hstart

/-- The service imports what its methods use. -/
theorem declareService_covered (h : declareService job s = .ok ⟨⟩ t) (hs : Justified job s)
    (hnone : s.file.services = []) (hcovered : RunCovered job s) : RunCovered job t := by
  obtain ⟨service, u, hadd, rfl⟩ := declareService_eq_ok h
  have hstart : ServiceCovered job.config.dependencies s
      { name := job.messageName (lastPart s.file.package) ++ "Service" } := by
    refine ⟨by simp, fun hfile => (hcovered.annotations hfile).imp_right ?_⟩
    simp [hnone]
  obtain ⟨hgrown, hservice⟩ := addOperations_covered hadd hs hstart
  have hconfigured : job.config.dependencies ⊆ u.facts.imports := fun file hfile =>
    hgrown.later.imports file (hcovered.configured hfile)
  have hnone : u.file.services = [] := hgrown.later.services.trans hnone
  -- a service without methods is left out
  split
  · rename_i hmethods
    refine ⟨hconfigured, by simp [hnone], fun hfile => .inl ?_⟩
    simpa [hmethods] using hservice.annotations hfile
  · have hadded : u.file.addService service = { u.file with services := [service] } := by
      simp [FileDraft.addService, FileDraft.hasService, hnone]
    rw [hadded]
    refine ⟨hconfigured, fun other hother => ?_, fun hfile => ?_⟩
    · cases List.mem_singleton.mp hother
      exact hservice.methods
    · exact (hservice.annotations hfile).imp_right fun hmapped =>
        ⟨service, List.mem_singleton_self _, hmapped⟩

/-- A whole run imports what it uses. -/
theorem compileDocument_covered
    (h : compileDocument job { file := startFile job.document job.config } = .ok ⟨⟩ t) :
    RunCovered job t := by
  obtain ⟨_, s, hcomponents, h⟩ := bind_eq_ok.mp h
  have hcovered := declareComponents_covered hcomponents
  split at h
  · obtain ⟨reserved, hgrown, -⟩ := declareComponents_sound hcomponents (justified_start job)
    exact declareService_covered h hgrown.justified
      (hgrown.later.services.trans (startFile_prebuilt job.document job.config).services) hcovered
  · obtain ⟨-, rfl⟩ := pure_eq_ok.mp h
    exact hcovered

/-- The imports of a compiled file without finished messages cover what it uses. They are sorted and
hold the configured files; those with the holders and with the empty message are there when a field
or a method needs them, and the one with the option for REST mappings, unless it is configured,
exactly when a method has a mapping. -/
theorem imports_cover_use {document : Document} {config : Config} {out : Output}
    (hnone : config.additionalMessages = []) (h : compile document config = .ok out) :
    out.file.ImportsCover config := by
  obtain ⟨s, hrun, hs, hfile⟩ := compile_eq_ok h
  obtain ⟨hconfigured, hmethods, hannotations⟩ := compileDocument_covered hrun
  have himports : out.file.dependencies = s.facts.imports := by rw [hfile]; rfl
  rw [hfile] at himports ⊢
  have hbuilt {service : ServiceDescriptor} {method : MethodDescriptor}
      (hservice : service ∈ s.file.build.services) (hmethod : method ∈ service.methods) :=
    FileDraft.mem_methods_build.mp ⟨service, hservice, hmethod⟩
  constructor
  case ascending => exact s.file.dependencies.pairwise_keys
  case configured => exact hconfigured
  case holders =>
    intro path message hplaced field hfield holder hholder htype hforeign
    exact hs.holders_imported hnone hplaced hfield hholder htype hforeign
  case empty =>
    intro service hservice method hmethod htypes
    obtain ⟨source, hsource, drafted, hdrafted, rfl⟩ := hbuilt hservice hmethod
    have hcovered := hmethods source hsource drafted hdrafted
    rcases htypes with hinput | houtput
    · exact hcovered.input.empty_imported (not_suffix_empty (.inl rfl)) (Option.some.inj hinput)
    · exact hcovered.output.empty_imported (not_suffix_empty (.inr rfl)) (Option.some.inj houtput)
  case annotations =>
    -- a rule of the file is one of a drafted method, and the other way round
    intro hnot
    constructor
    · intro hfile
      obtain ⟨source, hsource, drafted, hdrafted, hhttp⟩ :=
        (hannotations hfile).resolve_left hnot
      obtain ⟨service, hservice, hmethod⟩ :=
        FileDraft.mem_methods_build.mpr ⟨source, hsource, drafted, hdrafted, rfl⟩
      exact ⟨service, hservice, _, hmethod, by
        show drafted.build.http.isSome = true
        rwa [MethodDraft.http_build]⟩
    · rintro ⟨service, hservice, method, hmethod, hhttp⟩
      obtain ⟨source, hsource, drafted, hdrafted, rfl⟩ := hbuilt hservice hmethod
      have hhttp : drafted.build.http.isSome = true := hhttp
      rw [MethodDraft.http_build] at hhttp
      exact (hmethods source hsource drafted hdrafted).http hhttp

/-- An operation that takes a component with a text that need not be there, and gives nothing. -/
def ferry : Document :=
  { descriptionOf [("Ticket", objectNode [("deck", textNode)])] with
    paths := .ofList
      [("/crossings", { post := some (operationWith (.ref "#/components/schemas/Ticket")) })] }

/-- Scalars are held by messages, methods are mapped, and one import is configured. -/
def holdingAndMapped : Config :=
  { wrapPrimitives := true, useAnnotation := true, dependencies := ["docks/base.proto"] }

/-- The ferry uses all three files. -/
theorem imports_cover_use_ferry :
    ∃ out, compile ferry holdingAndMapped = .ok out ∧
      holdingAndMapped.additionalMessages = [] ∧ out.file.ImportsCover holdingAndMapped ∧
      out.file.dependencies =
        ["docks/base.proto", annotationsFile, emptyFile, wrappersFile] := by
  have hcompiles : compilesTo ferry holdingAndMapped (fun s => s.facts.imports ==
      ["docks/base.proto", annotationsFile, emptyFile, wrappersFile]) = true := by
    decide +kernel
  obtain ⟨out, s, hout, hfile, -, himports⟩ := exists_of_compilesTo hcompiles
  refine ⟨out, hout, rfl, imports_cover_use rfl hout, ?_⟩
  rw [hfile]
  exact eq_of_beq himports

end Compile

end Protoscribe
