import Protoscribe.Proofs.Compile.Sources
import Protoscribe.Proofs.Draft.Registry

/-!
# `Protoscribe.Proofs.Compile.Growth`: what stays true while a run goes on

* `Extends`: a later state keeps what components became, and the types, imports, and names of the
  file. It has the breadcrumb and the chain of the earlier one, and what a component in that chain
  becomes is not settled in between.
* `Justified`: everything in a state has a derivation. A component that became something was
  derived from its own node with the facts that were known before it; so the order of the entries
  is the order in which the components were finished. Every drafted message and every enum of the
  file was derived, no two types of the file share a name, and the registry of the file has the
  names of these types and no others (`FileDraft.InStep`).
* `Grown`: both at once, the relation between the states before and after a step. A step also keeps
  to schemas that the description offers (`AllSourced`).
-/

set_option autoImplicit false

namespace Protoscribe

/-- The names of the types that a file declares. -/
def FileDraft.typeNames (file : FileDraft) : List String :=
  file.messages.map FileMessage.name ++ file.enums.map (·.name)

/-- The registry of a file has the names of the types that the file declares. -/
def FileDraft.InStep (file : FileDraft) : Prop :=
  file.takenTypes.Registers file.typeNames

/-- A message that is added adds its name. -/
theorem FileDraft.perm_typeNames_message (file : FileDraft) (message : FileMessage) :
    (typeNames { file with messages := file.messages ++ [message] }).Perm
      (message.name :: file.typeNames) := by
  simp only [typeNames, List.map_append, List.map_cons, List.map_nil, List.append_assoc]
  exact List.perm_middle

/-- An enum that is added adds its name. -/
theorem FileDraft.perm_typeNames_enum (file : FileDraft) (enum : EnumDraft) :
    (typeNames { file with enums := file.enums ++ [enum] }).Perm
      (enum.name :: file.typeNames) := by
  simp only [typeNames, List.map_append, List.map_cons, List.map_nil, ← List.append_assoc]
  exact List.perm_append_singleton _ _

/-- A name counts as taken exactly when the file declares a type of this name. -/
theorem FileDraft.InStep.hasType_iff {file : FileDraft} (h : file.InStep) {name : String} :
    file.hasType name = true ↔ name ∈ file.typeNames :=
  h name

/-- The name of a message that comes in is taken, whether the message is refused or not. -/
theorem FileDraft.hasType_addMessage (file : FileDraft) (draft : MessageDraft) :
    (file.addMessage draft).hasType draft.name = true := by
  unfold FileDraft.addMessage
  split
  · assumption
  · simp [FileDraft.hasType]

/-- The name of an enum that comes in is taken, whether the enum is refused or not. -/
theorem FileDraft.hasType_addEnum (file : FileDraft) (enum : EnumDraft) :
    (file.addEnum enum).hasType enum.name = true := by
  unfold FileDraft.addEnum
  split
  · assumption
  · simp [FileDraft.hasType]

/-- The names that were taken stay taken when a message comes in. -/
theorem FileDraft.hasType_addMessage_of {file : FileDraft} {name : String}
    (h : file.hasType name = true) (draft : MessageDraft) :
    (file.addMessage draft).hasType name = true := by
  unfold FileDraft.addMessage
  split
  · exact h
  · rw [FileDraft.hasType, Registry.contains_take, ← FileDraft.hasType, h, Bool.true_or]

/-- The names that were taken stay taken when an enum comes in. -/
theorem FileDraft.hasType_addEnum_of {file : FileDraft} {name : String}
    (h : file.hasType name = true) (enum : EnumDraft) :
    (file.addEnum enum).hasType name = true := by
  unfold FileDraft.addEnum
  split
  · exact h
  · rw [FileDraft.hasType, Registry.contains_take, ← FileDraft.hasType, h, Bool.true_or]

/-- The name of a message that comes in is taken. -/
theorem FileDraft.InStep.addMessage {file : FileDraft} (h : file.InStep) (draft : MessageDraft) :
    (file.addMessage draft).InStep := by
  unfold FileDraft.addMessage
  split
  · exact h
  · refine Registry.Registers.take h fun name => ?_
    exact (file.perm_typeNames_message (.drafted draft)).mem_iff.trans (List.mem_cons.trans or_comm)

/-- The name of a finished message that is handed in is taken. -/
theorem FileDraft.InStep.addFinished {file : FileDraft} (h : file.InStep)
    (descriptor : MessageDescriptor) : (file.addFinished descriptor).InStep := by
  unfold FileDraft.addFinished
  split
  · exact h
  · refine Registry.Registers.take h fun name => ?_
    exact (file.perm_typeNames_message (.finished descriptor)).mem_iff.trans
      (List.mem_cons.trans or_comm)

/-- The name of an enum that comes in is taken. -/
theorem FileDraft.InStep.addEnum {file : FileDraft} (h : file.InStep) (enum : EnumDraft) :
    (file.addEnum enum).InStep := by
  unfold FileDraft.addEnum
  split
  · exact h
  · refine Registry.Registers.take h fun name => ?_
    exact (file.perm_typeNames_enum enum).mem_iff.trans (List.mem_cons.trans or_comm)

/-- A message leaves the imports as they are. -/
@[simp] theorem FileDraft.dependencies_addMessage (file : FileDraft) (draft : MessageDraft) :
    (file.addMessage draft).dependencies = file.dependencies := by
  unfold FileDraft.addMessage
  split <;> rfl

/-- An enum leaves the imports as they are. -/
@[simp] theorem FileDraft.dependencies_addEnum (file : FileDraft) (enum : EnumDraft) :
    (file.addEnum enum).dependencies = file.dependencies := by
  unfold FileDraft.addEnum
  split <;> rfl

/-- A service leaves the imports as they are. -/
@[simp] theorem FileDraft.dependencies_addService (file : FileDraft) (service : ServiceDraft) :
    (file.addService service).dependencies = file.dependencies := by
  unfold FileDraft.addService
  split <;> rfl

namespace Compile

open OpenApi (Referable RequestBody Schema SchemaNode Section)

/-! ### Later states -/

/-- The state `s'` may be reached from `s`, and has the same surrounding. -/
structure Extends (s s' : State) : Prop where
  schemas : ∃ added, s'.schemas = s.schemas ++ added ∧ ∀ entry ∈ added, entry.1 ∉ s.chain
  bodies : ∃ added, s'.bodies = s.bodies ++ added ∧
    ∀ entry ∈ added, "requestBodies." ++ entry.1 ∉ s.chain
  messages : s.file.messages <+: s'.file.messages
  enums : s.file.enums <+: s'.file.enums
  types : ∀ name, s.file.hasType name = true → s'.file.hasType name = true
  imports : ∀ file ∈ s.file.dependencies.keys, file ∈ s'.file.dependencies.keys
  package : s'.file.package = s.file.package
  services : s'.file.services = s.file.services
  reserved : s'.file.reserved = s.file.reserved
  chain : s'.chain = s.chain
  scope : s'.scope = s.scope

namespace Extends

/-- A state has everything that it has. -/
theorem refl (s : State) : Extends s s :=
  ⟨⟨[], by simp, by simp⟩, ⟨[], by simp, by simp⟩, List.prefix_rfl, List.prefix_rfl,
    fun _ h => h, fun _ h => h, rfl, rfl, rfl, rfl, rfl⟩

/-- What is kept twice is kept. -/
theorem trans {s t u : State} (hst : Extends s t) (htu : Extends t u) : Extends s u := by
  obtain ⟨schemas, hschemas, hfree⟩ := hst.schemas
  obtain ⟨schemas', hschemas', hfree'⟩ := htu.schemas
  obtain ⟨bodies, hbodies, hbodyFree⟩ := hst.bodies
  obtain ⟨bodies', hbodies', hbodyFree'⟩ := htu.bodies
  -- both steps run inside the same components
  rw [hst.chain] at hfree' hbodyFree'
  refine
    { schemas := ⟨schemas ++ schemas', by rw [hschemas', hschemas, List.append_assoc], ?_⟩
      bodies := ⟨bodies ++ bodies', by rw [hbodies', hbodies, List.append_assoc], ?_⟩
      messages := hst.messages.trans htu.messages
      enums := hst.enums.trans htu.enums
      types := fun name h => htu.types name (hst.types name h)
      imports := fun file h => htu.imports file (hst.imports file h)
      package := htu.package.trans hst.package
      services := htu.services.trans hst.services
      reserved := htu.reserved.trans hst.reserved
      chain := htu.chain.trans hst.chain
      scope := htu.scope.trans hst.scope }
  · intro entry hentry
    rcases List.mem_append.mp hentry with hentry | hentry
    · exact hfree entry hentry
    · exact hfree' entry hentry
  · intro entry hentry
    rcases List.mem_append.mp hentry with hentry | hentry
    · exact hbodyFree entry hentry
    · exact hbodyFree' entry hentry

/-- A later state knows all that was found out before. -/
theorem facts_le {s s' : State} (h : Extends s s') : s.facts ≤ s'.facts := by
  obtain ⟨schemas, hschemas, -⟩ := h.schemas
  obtain ⟨bodies, hbodies, -⟩ := h.bodies
  exact ⟨⟨schemas, hschemas.symm⟩, ⟨bodies, hbodies.symm⟩, h.imports⟩

/-- A step in a longer breadcrumb, seen from outside. -/
theorem within {s s' : State} {part : String}
    (h : Extends { s with scope := s.scope ++ [part] } s') :
    Extends s { s' with scope := s'.scope.dropLast } :=
  { h with scope := by simp [h.scope] }

/-- A step at another place, seen from outside. -/
theorem under {s s' : State} {parts : List String} (h : Extends { s with scope := parts } s') :
    Extends s { s' with scope := s.scope } :=
  { h with scope := rfl }

/-- A step inside a component, seen from outside. -/
theorem entering {s s' : State} {key : String}
    (h : Extends { s with chain := s.chain ++ [key] } s') :
    Extends s { s' with chain := s'.chain.dropLast } := by
  obtain ⟨schemas, hschemas, hfree⟩ := h.schemas
  obtain ⟨bodies, hbodies, hbodyFree⟩ := h.bodies
  exact
    { h with
      schemas := ⟨schemas, hschemas, fun entry hentry hmem =>
        hfree entry hentry (List.mem_append_left _ hmem)⟩
      bodies := ⟨bodies, hbodies, fun entry hentry hmem =>
        hbodyFree entry hentry (List.mem_append_left _ hmem)⟩
      chain := by simp [h.chain] }

/-- A component of the chain is still unsettled when the step inside it is done. -/
theorem lookup_schemas_eq_none {s s' : State} {key : String} (h : Extends s s')
    (hchain : key ∈ s.chain) (hkey : s.schemas.lookup key = none) :
    s'.schemas.lookup key = none := by
  obtain ⟨added, hadded, hfree⟩ := h.schemas
  rw [hadded, List.lookup_append, hkey, Option.none_or, List.lookup_eq_none_iff]
  intro entry hentry
  rw [bne_iff_ne]
  rintro rfl
  exact hfree entry hentry hchain

/-- A request body that is being compiled stays unsettled until it is done. -/
theorem lookup_bodies_eq_none {s s' : State} {key : String} (h : Extends s s')
    (hchain : "requestBodies." ++ key ∈ s.chain) (hkey : s.bodies.lookup key = none) :
    s'.bodies.lookup key = none := by
  obtain ⟨added, hadded, hfree⟩ := h.bodies
  rw [hadded, List.lookup_append, hkey, Option.none_or, List.lookup_eq_none_iff]
  intro entry hentry
  rw [bne_iff_ne]
  rintro rfl
  exact hfree entry hentry hchain

end Extends

/-! ### Where everything in a state comes from -/

/-- A type of the file is declared for what a component became. -/
def Declared (file : FileDraft) : ComponentType → Prop
  | .message name => file.hasType name = true
  | .enum name => file.hasType name = true
  | .nothing => True

/-- What a compiled schema became when it was declared. -/
inductive Became (file : FileDraft) : Option MessageDraft → ComponentType → Prop
  | nothing {compiled : Option MessageDraft} (hempty : compiled.filter (!·.isEmpty) = none) :
      Became file compiled .nothing
  | enum {draft : MessageDraft} {enum : EnumDraft} (hempty : draft.isEmpty = false)
      (hcarried : draft.carriedEnum? = some enum) (htype : file.hasType enum.name = true) :
      Became file (some draft) (.enum enum.name)
  | message {draft : MessageDraft} (hempty : draft.isEmpty = false)
      (hcarried : draft.carriedEnum? = none) (htype : file.hasType draft.name = true) :
      Became file (some draft) (.message draft.name)

/-- What a component became is declared. -/
theorem Became.declared {file : FileDraft} {compiled : Option MessageDraft}
    {result : ComponentType} (h : Became file compiled result) : Declared file result := by
  cases h with
  | nothing _ => trivial
  | enum _ _ htype => exact htype
  | message _ _ htype => exact htype

/-- What is declared stays declared when more names are taken. -/
theorem Declared.mono {file later : FileDraft} {result : ComponentType}
    (h : Declared file result)
    (hmore : ∀ name, file.hasType name = true → later.hasType name = true) :
    Declared later result := by
  cases result with
  | message name => exact hmore name h
  | enum name => exact hmore name h
  | nothing => trivial

/-- What a component became stays true when more names are taken. -/
theorem Became.mono {file later : FileDraft} {compiled : Option MessageDraft}
    {result : ComponentType} (h : Became file compiled result)
    (hmore : ∀ name, file.hasType name = true → later.hasType name = true) :
    Became later compiled result := by
  cases h with
  | nothing hempty => exact .nothing hempty
  | enum hempty hcarried htype => exact .enum hempty hcarried (hmore _ htype)
  | message hempty hcarried htype => exact .message hempty hcarried (hmore _ htype)

/-- A request or response message that is being put together. -/
inductive Payload (job : Job) (facts : Facts) : MessageDraft → Prop
  | start {path suffix : String} {verb : OpenApi.Verb}
      (hsuffix : suffix = "Request" ∨ suffix = "Response") :
      Payload job facts { name := job.methodName path verb ++ suffix }
  | described {draft : MessageDraft} (comment : Option String) (h : Payload job facts draft) :
      Payload job facts { draft with comment }
  | member {draft filled : MessageDraft} {name : String} {required : Bool}
      {comment : Option String} {node : SchemaNode} (h : Payload job facts draft)
      (hslot : Derives job facts (.slot draft (.property name required comment) node)
        (some filled)) :
      Payload job facts filled
  | merged {draft compiled : MessageDraft} {schema : Schema} (h : Payload job facts draft)
      (hobject : schema.isObject = true)
      (hschema : Derives job facts (.schema draft.name schema) (some compiled)) :
      Payload job facts (draft.merge compiled)

/-- Where a message of the file comes from. -/
inductive Emitted (job : Job) (facts : Facts) : MessageDraft → Prop
  | component {draft : MessageDraft} {hint : String} {node : SchemaNode}
      (h : Derives job facts (.node hint node) (some draft)) (hempty : draft.isEmpty = false)
      (hcarried : draft.carriedEnum? = none) : Emitted job facts draft
  | body {draft : MessageDraft} {hint : String} {schema : Schema} (comment : Option String)
      (h : Derives job facts (.schema hint schema) (some draft)) (hempty : draft.isEmpty = false)
      (hcarried : draft.carriedEnum? = none) : Emitted job facts { draft with comment }
  | payload {draft : MessageDraft} (h : Payload job facts draft) (hempty : draft.isEmpty = false) :
      Emitted job facts draft

/-- What a payload was put together from stays true later. -/
theorem Payload.mono {job : Job} {facts later : Facts} {draft : MessageDraft}
    (h : Payload job facts draft) (hle : facts ≤ later) : Payload job later draft := by
  induction h with
  | start hsuffix => exact .start hsuffix
  | described comment _ ih => exact .described comment ih
  | member _ hslot ih => exact .member ih (hslot.mono hle)
  | merged _ hobject hschema ih => exact .merged ih hobject (hschema.mono hle)

/-- What a message of the file was put together from stays true later. -/
theorem Emitted.mono {job : Job} {facts later : Facts} {draft : MessageDraft}
    (h : Emitted job facts draft) (hle : facts ≤ later) : Emitted job later draft := by
  cases h with
  | component h hempty hcarried => exact .component (h.mono hle) hempty hcarried
  | body comment h hempty hcarried => exact .body comment (h.mono hle) hempty hcarried
  | payload h hempty => exact .payload (h.mono hle) hempty

/-- Everything in a state has a derivation. -/
structure Justified (job : Job) (s : State) : Prop where
  schemas : ∀ before key result after, s.schemas = before ++ (key, result) :: after →
    ∃ node compiled facts, job.document.components.schemas.find? key = some node ∧
      facts ≤ s.facts ∧ facts.schemas = before ∧
      Derives job facts (.node (job.messageName key) node) compiled ∧
      Became s.file compiled result
  bodies : ∀ entry ∈ s.bodies, Declared s.file entry.2
  messages : ∀ draft, .drafted draft ∈ s.file.messages → Emitted job s.facts draft
  finished : ∀ descriptor, .finished descriptor ∈ s.file.messages →
    descriptor ∈ job.config.additionalMessages
  enums : ∀ enum ∈ s.file.enums, ∃ hint node draft,
    Derives job s.facts (.node hint node) (some draft) ∧ draft.carriedEnum? = some enum
  names : s.file.typeNames.Nodup
  inStep : s.file.InStep

/-- The slots for parameters are those of properties. -/
theorem exists_of_mem_parameterSlots {parameter : OpenApi.Parameter} {entry : Slot × SchemaNode}
    (h : entry ∈ parameterSlots parameter) :
    ∃ required, entry.1 = .property parameter.name required parameter.description ∧
      parameter.schema = some entry.2 := by
  unfold parameterSlots at h
  split at h
  · cases h
  · next node hschema =>
    split at h
    · cases List.mem_singleton.mp h
      exact ⟨_, rfl, hschema⟩
    · cases h

/-- Every slot for the parameters of an operation is that of a property. -/
theorem ParameterSlots.exists_property {document : OpenApi.Document} {item : OpenApi.PathItem}
    {operation : OpenApi.Operation} {entries : List (Slot × SchemaNode)}
    (h : ParameterSlots document item operation entries) :
    ∀ entry ∈ entries, ∃ name required comment, entry.1 = .property name required comment := by
  obtain ⟨-, -⟩ := h
  intro entry hentry
  rcases List.mem_append.mp hentry with hshared | hown
  · obtain ⟨parameter, -, hslot⟩ := List.mem_flatMap.mp hshared
    split at hslot
    · cases hslot
    · obtain ⟨required, hproperty, -⟩ := exists_of_mem_parameterSlots hslot
      exact ⟨_, _, _, hproperty⟩
  · obtain ⟨parameter, -, hslot⟩ := List.mem_flatMap.mp hown
    obtain ⟨required, hproperty, -⟩ := exists_of_mem_parameterSlots hslot
    exact ⟨_, _, _, hproperty⟩

section payload

variable {job : Job} {facts : Facts} {draft : MessageDraft}

/-- The fields of properties come into a payload one after the other. -/
theorem Payload.slots {entries : List (Slot × SchemaNode)} {start : MessageDraft}
    (h : Payload job facts start)
    (hentries : ∀ entry ∈ entries, ∃ name required comment,
      entry.1 = .property name required comment)
    (hslots : Derives job facts (.slots start entries) (some draft)) : Payload job facts draft := by
  induction entries generalizing start with
  | nil =>
    cases hslots
    exact h
  | cons entry rest ih =>
    obtain ⟨hfirst, hrest⟩ := List.forall_mem_cons.mp hentries
    cases hslots with
    | slotsCons hslot hslots =>
      obtain ⟨name, required, comment, ⟨⟩⟩ := hfirst
      exact ih (.member h hslot) hrest hslots

/-- What a payload is lent leaves it one. -/
theorem Payload.lends {message : MessageDraft} {field : String} {required : Bool}
    {node : SchemaNode} (h : Payload job facts message)
    (hlends : Lends job facts message field required node draft) : Payload job facts draft := by
  cases hlends with
  | member _ hslot => exact .member h hslot
  | nothing => exact h
  | merged hobject hschema => exact .merged (.described _ h) hobject hschema

/-- Without its sources, a payload is one. -/
theorem PayloadFrom.payload {endpoint : OpenApi.Endpoint}
    (h : PayloadFrom job facts endpoint draft) : Payload job facts draft := by
  cases h with
  | request _ _ h =>
    cases h with
    | bodiless hentries hslots _ =>
      exact (Payload.start (.inl rfl)).slots hentries.exists_property hslots
    | body hentries hslots _ _ hlends =>
      exact ((Payload.start (.inl rfl)).slots hentries.exists_property hslots).lends hlends
  | response _ _ h =>
    cases h with
    | bodiless comment _ => exact .described comment (.start (.inr rfl))
    | body _ _ hlends => exact (Payload.described _ (.start (.inr rfl))).lends hlends

end payload

/-- A state that a run of the job may reach from another one. -/
structure Reached (job : Job) (s s' : State) : Prop where
  later : Extends s s'
  justified : Justified job s'

/-- A state that a part of a run may reach that declares no payloads: new types come from
components. -/
structure Grown (job : Job) (s s' : State) : Prop extends Reached job s s' where
  sourced : ∀ {among : OpenApi.Endpoint → Prop}, AllSourced job among s → AllSourced job among s'

/-- A state that is reached from a reached one is reached. -/
theorem Reached.trans {job : Job} {s t u : State} (hst : Reached job s t) (htu : Reached job t u) :
    Reached job s u :=
  ⟨hst.later.trans htu.later, htu.justified⟩

/-- A justified state is reached from itself. -/
theorem Reached.refl {job : Job} {s : State} (h : Justified job s) : Reached job s s :=
  ⟨.refl s, h⟩

/-- A state that has grown out of a grown one has grown out of the first one. -/
theorem Grown.trans {job : Job} {s t u : State} (hst : Grown job s t) (htu : Grown job t u) :
    Grown job s u where
  toReached := hst.toReached.trans htu.toReached
  sourced hs := htu.sourced (hst.sourced hs)

/-- A justified state has grown out of itself. -/
theorem Grown.refl {job : Job} {s : State} (h : Justified job s) : Grown job s s where
  toReached := .refl h
  sourced := id

namespace Justified

variable {job : Job} {s s' : State}

/-- Only the types, the imports, and what components became count. -/
theorem of_same (h : Justified job s) (hmessages : s'.file.messages = s.file.messages)
    (henums : s'.file.enums = s.file.enums)
    (htaken : s'.file.takenTypes = s.file.takenTypes)
    (hdependencies : s'.file.dependencies = s.file.dependencies)
    (hschemas : s'.schemas = s.schemas) (hbodies : s'.bodies = s.bodies) : Justified job s' := by
  have hfacts : s'.facts = s.facts := by
    simp only [State.facts, hschemas, hbodies, hdependencies]
  have htypes : s'.file.typeNames = s.file.typeNames := by
    simp only [FileDraft.typeNames, hmessages, henums]
  have hmore : ∀ name, s.file.hasType name = true → s'.file.hasType name = true := by
    intro name hname
    rwa [FileDraft.hasType, htaken]
  -- component by component, with the same facts and the same taken names
  refine ⟨?_, ?_, ?_, ?_, ?_, ?_, ?_⟩
  · intro before key result after hsplit
    obtain ⟨node, compiled, facts, hnode, hle, hbefore, hderives, hbecame⟩ :=
      h.schemas before key result after (hschemas ▸ hsplit)
    exact ⟨node, compiled, facts, hnode, hfacts ▸ hle, hbefore, hderives, hbecame.mono hmore⟩
  · intro entry hentry
    exact (h.bodies entry (hbodies ▸ hentry)).mono hmore
  · intro draft hdraft
    exact hfacts ▸ h.messages draft (hmessages ▸ hdraft)
  · intro descriptor hdescriptor
    exact h.finished descriptor (hmessages ▸ hdescriptor)
  · intro enum henum
    exact hfacts ▸ h.enums enum (henums ▸ henum)
  · exact htypes ▸ h.names
  · rw [FileDraft.InStep, htaken, htypes]
    exact h.inStep

/-- The place of the run does not count, nor do the warnings. -/
theorem of_eq (h : Justified job s) (hfile : s'.file = s.file) (hschemas : s'.schemas = s.schemas)
    (hbodies : s'.bodies = s.bodies) : Justified job s' :=
  h.of_same (by rw [hfile]) (by rw [hfile]) (by rw [hfile]) (by rw [hfile]) hschemas hbodies

end Justified

/-- A part of a run at another place, seen from outside. -/
theorem Reached.under {job : Job} {s s' : State} {parts : List String}
    (h : Reached job { s with scope := parts } s') :
    Reached job s { s' with scope := s.scope } :=
  ⟨h.later.under, h.justified.of_eq rfl rfl rfl⟩

namespace Grown

variable {job : Job} {s s' : State}

/-- A step in a longer breadcrumb, seen from outside. -/
theorem within {part : String} (h : Grown job { s with scope := s.scope ++ [part] } s') :
    Grown job s { s' with scope := s'.scope.dropLast } where
  later := h.later.within
  justified := h.justified.of_eq rfl rfl rfl
  sourced hs :=
    (h.sourced (hs.of_same (Facts.le_refl _) rfl rfl)).of_same (Facts.le_refl _) rfl rfl

/-- A step at another place, seen from outside. -/
theorem under {parts : List String} (h : Grown job { s with scope := parts } s') :
    Grown job s { s' with scope := s.scope } where
  toReached := h.toReached.under
  sourced hs :=
    (h.sourced (hs.of_same (Facts.le_refl _) rfl rfl)).of_same (Facts.le_refl _) rfl rfl

/-- A step inside a component, seen from outside. -/
theorem entering {key : String} (h : Grown job { s with chain := s.chain ++ [key] } s') :
    Grown job s { s' with chain := s'.chain.dropLast } where
  later := h.later.entering
  justified := h.justified.of_eq rfl rfl rfl
  sourced hs :=
    (h.sourced (hs.of_same (Facts.le_refl _) rfl rfl)).of_same (Facts.le_refl _) rfl rfl

end Grown

namespace Justified

variable {job : Job} {s s' : State}

/-- A component that a reference names is declared. -/
theorem declared_of_lookup (h : Justified job s) {key : String} {result : ComponentType}
    (hkey : s.schemas.lookup key = some result) : Declared s.file result := by
  obtain ⟨before, after, hsplit⟩ := List.append_of_mem (Table.mem_of_lookup_eq_some hkey)
  obtain ⟨_, _, _, _, _, _, _, hbecame⟩ := h.schemas before key result after hsplit
  exact hbecame.declared

/-- New types and imports keep a state justified when the types are derived from schemas of the
description. -/
theorem reached_file {file : FileDraft} (h : Justified job s)
    (hlater : Extends s { s with file })
    (hmessages : ∀ message ∈ file.messages, message ∈ s.file.messages ∨
      ∃ draft, message = .drafted draft ∧ Emitted job s.facts draft)
    (henums : ∀ enum ∈ file.enums, enum ∈ s.file.enums ∨
      ∃ hint node draft, Derives job s.facts (.node hint node) (some draft) ∧
        draft.carriedEnum? = some enum)
    (hnames : file.typeNames.Nodup) (hstep : file.InStep) : Reached job s { s with file } := by
  have hle : s.facts ≤ State.facts { s with file } := hlater.facts_le
  -- what was there stays justified as the facts grow; the premises justify what is new
  refine ⟨hlater, ?_⟩
  refine
    { schemas := ?_
      bodies := fun entry hentry => (h.bodies entry hentry).mono hlater.types
      messages := ?_
      finished := ?_
      enums := ?_
      names := hnames
      inStep := hstep }
  · intro before key result after hsplit
    obtain ⟨node, compiled, facts, hnode, hfacts, hbefore, hderives, hbecame⟩ :=
      h.schemas before key result after hsplit
    exact ⟨node, compiled, facts, hnode, Facts.le_trans hfacts hle, hbefore, hderives,
      hbecame.mono hlater.types⟩
  · intro draft hdraft
    rcases hmessages _ hdraft with hold | ⟨_, heq, hnew⟩
    · exact (h.messages draft hold).mono hle
    · cases heq
      exact hnew.mono hle
  · intro descriptor hdescriptor
    rcases hmessages _ hdescriptor with hold | ⟨_, heq, -⟩
    · exact h.finished descriptor hold
    · cases heq
  · intro enum henum
    rcases henums enum henum with hold | ⟨hint, node, draft, hderives, hcarried⟩
    · obtain ⟨hint, node, draft, hderives, hcarried⟩ := h.enums enum hold
      exact ⟨hint, node, draft, hderives.mono hle, hcarried⟩
    · exact ⟨hint, node, draft, hderives.mono hle, hcarried⟩

/-- Warnings do not count. -/
theorem grown_warn (h : Justified job s) (warnings : List Warning) :
    Grown job s { s with warnings } where
  later := { Extends.refl s with }
  justified := h.of_eq rfl rfl rfl
  sourced hs := hs.of_same (Facts.le_refl _) rfl rfl

/-- A new import changes no type. -/
theorem grown_addDependency (h : Justified job s) (name : String) :
    Grown job s { s with file := s.file.addDependency name } where
  toReached := h.reached_file
    { Extends.refl s with
      imports := fun _ himport => Table.mem_keys_insert.mpr (.inr himport) }
    (fun _ hdraft => .inl hdraft) (fun _ henum => .inl henum) h.names h.inStep
  sourced hs := hs.of_same
    ⟨List.prefix_rfl, List.prefix_rfl, fun _ himport => Table.mem_keys_insert.mpr (.inr himport)⟩
    rfl rfl

/-- A message that comes in needs a derivation, whether or not its name is taken. -/
theorem reached_addMessage (h : Justified job s) {draft : MessageDraft}
    (hdraft : Emitted job s.facts draft) :
    Reached job s { s with file := s.file.addMessage draft } := by
  by_cases htaken : s.file.hasType draft.name = true
  · rw [FileDraft.addMessage, if_pos htaken]
    exact .refl h
  · have hmore : ∀ name, s.file.hasType name = true →
        (s.file.addMessage draft).hasType name = true :=
      fun _ hname => FileDraft.hasType_addMessage_of hname draft
    have hstep := h.inStep.addMessage draft
    rw [FileDraft.addMessage, if_neg htaken] at hmore hstep ⊢
    refine h.reached_file
      { Extends.refl s with messages := List.prefix_append _ _, types := hmore } ?_
      (fun _ henum => .inl henum) ?_ hstep
    · intro other hother
      rcases List.mem_append.mp hother with hold | hnew
      · exact .inl hold
      · exact .inr ⟨draft, List.mem_singleton.mp hnew, hdraft⟩
    -- a name that comes in is new, so names stay different
    · have hfree : draft.name ∉ s.file.typeNames := by
        rwa [h.inStep.hasType_iff] at htaken
      refine (s.file.perm_typeNames_message (.drafted draft)).nodup_iff.mpr ?_
      exact List.nodup_cons.mpr ⟨hfree, h.names⟩

/-- An enum that comes in needs a carrier that is derived. -/
theorem reached_addEnum (h : Justified job s) {enum : EnumDraft} {hint : String}
    {node : SchemaNode} {draft : MessageDraft}
    (hderives : Derives job s.facts (.node hint node) (some draft))
    (hcarried : draft.carriedEnum? = some enum) :
    Reached job s { s with file := s.file.addEnum enum } := by
  -- an enum whose name is taken is left out
  by_cases htaken : s.file.hasType enum.name = true
  · rw [FileDraft.addEnum, if_pos htaken]
    exact .refl h
  · have hmore : ∀ name, s.file.hasType name = true →
        (s.file.addEnum enum).hasType name = true :=
      fun _ hname => FileDraft.hasType_addEnum_of hname enum
    have hstep := h.inStep.addEnum enum
    rw [FileDraft.addEnum, if_neg htaken] at hmore hstep ⊢
    refine h.reached_file
      { Extends.refl s with enums := List.prefix_append _ _, types := hmore }
      (fun _ hdraft => .inl hdraft) ?_ ?_ hstep
    · intro other hother
      rcases List.mem_append.mp hother with hold | hnew
      · exact .inl hold
      · cases List.mem_singleton.mp hnew
        exact .inr ⟨hint, node, draft, hderives, hcarried⟩
    · have hfree : enum.name ∉ s.file.typeNames := by
        rwa [h.inStep.hasType_iff] at htaken
      refine (s.file.perm_typeNames_enum enum).nodup_iff.mpr ?_
      exact List.nodup_cons.mpr ⟨hfree, h.names⟩

end Justified

namespace AllSourced

variable {job : Job} {among : OpenApi.Endpoint → Prop} {s : State}

/-- A message that comes in needs a source. -/
theorem addMessage (h : AllSourced job among s) {draft : MessageDraft}
    (hdraft : Sourced job s.facts among draft) :
    AllSourced job among { s with file := s.file.addMessage draft } := by
  unfold FileDraft.addMessage
  split
  · exact h
  · refine h.later (Facts.le_refl _) (fun message hmessage => ?_) fun _ henum => .inl henum
    refine (List.mem_append.mp hmessage).imp_right fun hnew => ?_
    exact ⟨draft, List.mem_singleton.mp hnew, hdraft⟩

/-- An enum that comes in needs a carrier with a source. -/
theorem addEnum (h : AllSourced job among s) {draft : MessageDraft} {enum : EnumDraft}
    (hdraft : Sourced job s.facts among draft) (hcarried : draft.carriedEnum? = some enum) :
    AllSourced job among { s with file := s.file.addEnum enum } := by
  unfold FileDraft.addEnum
  split
  · exact h
  · refine h.later (Facts.le_refl _) (fun _ hmessage => .inl hmessage) fun other hother => ?_
    refine (List.mem_append.mp hother).imp_right fun hnew => ?_
    cases List.mem_singleton.mp hnew
    exact ⟨draft, hdraft, hcarried⟩

end AllSourced

namespace Justified

variable {job : Job} {s s' : State}

/-- A finished component is noted, together with the derivation of what it became. -/
theorem grown_schema (h : Justified job s) {key : String} {node : SchemaNode}
    {compiled : Option MessageDraft} {result : ComponentType} {facts : Facts}
    (hfree : key ∉ s.chain) (hnode : job.document.components.schemas.find? key = some node)
    (hfacts : facts ≤ s.facts) (hbefore : facts.schemas = s.schemas)
    (hderives : Derives job facts (.node (job.messageName key) node) compiled)
    (hbecame : Became s.file compiled result) :
    Grown job s { s with schemas := s.schemas ++ [(key, result)] } := by
  have hlater : Extends s { s with schemas := s.schemas ++ [(key, result)] } :=
    { Extends.refl s with
      schemas := ⟨[(key, result)], rfl, fun entry hentry => by
        cases List.mem_singleton.mp hentry
        exact hfree⟩ }
  refine ⟨⟨hlater, { h with schemas := ?_, messages := ?_, enums := ?_ }⟩,
    fun hs => hs.of_same hlater.facts_le rfl rfl⟩
  · intro before key' result' after hsplit
    rcases List.eq_nil_or_concat after with rfl | ⟨init, last, rfl⟩
    · -- the entry is the new one
      obtain ⟨hinit, hlast⟩ := List.append_inj' hsplit rfl
      cases hlast
      exact ⟨node, compiled, facts, hnode, Facts.le_trans hfacts hlater.facts_le,
        hbefore.trans hinit, hderives, hbecame⟩
    -- the entry is an old one, and the new one stands at the end
    · have hinit : s.schemas = before ++ (key', result') :: init := by
        have hsplit' : s.schemas ++ [(key, result)] =
            (before ++ (key', result') :: init) ++ [last] :=
          calc s.schemas ++ [(key, result)]
            _ = before ++ (key', result') :: init.concat last := hsplit
            _ = (before ++ (key', result') :: init) ++ [last] := by simp
        exact (List.append_inj' hsplit' rfl).1
      obtain ⟨node, compiled, facts, hnode, hfacts, hbefore, hderives, hbecame⟩ :=
        h.schemas before key' result' init hinit
      exact ⟨node, compiled, facts, hnode, Facts.le_trans hfacts hlater.facts_le, hbefore,
        hderives, hbecame⟩
  · intro draft hdraft
    exact (h.messages draft hdraft).mono hlater.facts_le
  · intro enum henum
    obtain ⟨hint, node, draft, hderives, hcarried⟩ := h.enums enum henum
    exact ⟨hint, node, draft, hderives.mono hlater.facts_le, hcarried⟩

/-- A request body that is not being compiled may be settled with a declared type. -/
theorem grown_body (h : Justified job s) {key : String} {result : ComponentType}
    (hfree : "requestBodies." ++ key ∉ s.chain) (hresult : Declared s.file result) :
    Grown job s { s with bodies := s.bodies ++ [(key, result)] } := by
  -- the new result is for a body that is not in progress
  have hlater : Extends s { s with bodies := s.bodies ++ [(key, result)] } :=
    { Extends.refl s with
      bodies := ⟨[(key, result)], rfl, fun entry hentry => by
        cases List.mem_singleton.mp hentry
        exact hfree⟩ }
  refine ⟨⟨hlater, { h with schemas := ?_, bodies := ?_, messages := ?_, enums := ?_ }⟩,
    fun hs => hs.of_same hlater.facts_le rfl rfl⟩
  · intro before key result after hsplit
    obtain ⟨node, compiled, facts, hnode, hfacts, hbefore, hderives, hbecame⟩ :=
      h.schemas before key result after hsplit
    exact ⟨node, compiled, facts, hnode, Facts.le_trans hfacts hlater.facts_le, hbefore, hderives,
      hbecame⟩
  · intro entry hentry
    rcases List.mem_append.mp hentry with hold | hnew
    · exact h.bodies entry hold
    · cases List.mem_singleton.mp hnew
      exact hresult
  · intro draft hdraft
    exact (h.messages draft hdraft).mono hlater.facts_le
  · intro enum henum
    obtain ⟨hint, node, draft, hderives, hcarried⟩ := h.enums enum henum
    exact ⟨hint, node, draft, hderives.mono hlater.facts_le, hcarried⟩

end Justified

end Compile

end Protoscribe
