import Protoscribe.Proofs.Compile.Needs
import Protoscribe.Proofs.Compile.Interruption
import Protoscribe.Proofs.OpenApi.Texts

/-!
# `Protoscribe.Proofs.Compile.Faithful`: what a step may report and import

Besides its result, a step may leave two things that reach the outside from any depth: the error
that it fails with, and the files that it imports. `Faithful` bounds both. An error has to say
something true of the description (`Truthful`): a reference that it names stands in the description
and leads nowhere, and an order that it rejects stands in a schema and is no list of texts. Imports
have to be among given files.

For that, every schema that a step goes into has to stand in the description (`Stands`). The schemas
inside such a schema do, and so do the components that references lead to. So every function
between two levels of calls is faithful over an engine that is (`Engine.Faithful.step`), and the
engines of all levels are (`Engine.ofLevels_faithful`).
-/

set_option autoImplicit false

namespace Protoscribe.Compile

open OpenApi (Document Parameter Referable RequestBody Response Schema SchemaNode Section Shape)

variable {α β : Type}

/-! ### Nodes of a description -/

/-- A schema, or a reference in its place, stands somewhere in a description. -/
inductive Stands (document : Document) : SchemaNode → Prop
  | component {key : String} {node : SchemaNode}
      (h : document.components.schemas.find? key = some node) : Stands document node
  | parameter {parameter : Parameter} {node : SchemaNode}
      (h : .inline parameter ∈ document.parameters) (hschema : parameter.schema = some node) :
      Stands document node
  | body {body : RequestBody} {type : String} {node : SchemaNode}
      (h : .inline body ∈ document.requestBodies)
      (hschema : (type, ⟨some node⟩) ∈ body.content.entries) : Stands document node
  | response {response : Response} {type : String} {node : SchemaNode}
      (h : .inline response ∈ document.responses)
      (hschema : (type, ⟨some node⟩) ∈ response.content.entries) : Stands document node
  | part {schema : Schema} {part : Place × SchemaNode} (h : Stands document (.inline schema))
      (hpart : part ∈ parts schema.shape) : Stands document part.2

/-- A reference stands in the description, where a reference into the section is expected. -/
def StandsFor (document : Document) (reference : String) : Section → Prop
  | .schemas => Stands document (.ref reference)
  | .parameters => .ref reference ∈ document.parameters
  | .requestBodies => .ref reference ∈ document.requestBodies
  | .responses => .ref reference ∈ document.responses

/-- The keys of a section. -/
def sectionKeys (document : Document) : Section → List String
  | .schemas => document.components.schemas.keys
  | .parameters => document.components.parameters.keys
  | .requestBodies => document.components.requestBodies.keys
  | .responses => document.components.responses.keys

/-- A reference leads nowhere in a section. -/
inductive Dangles (document : Document) (part : Section) (reference : String) : Prop
  /-- It does not start with the pointer of the section. -/
  | elsewhere (h : ¬ part.pointer.toList <+: reference.toList)
  /-- Nothing follows the pointer. -/
  | nameless (h : reference.toList = part.pointer.toList)
  /-- More than one segment follows the pointer. -/
  | deeper {segment : List Char} (h : reference.toList = part.pointer.toList ++ segment)
      (hslash : '/' ∈ segment)
  /-- No component of the section has the key. -/
  | absent {segment : List Char} (h : reference.toList = part.pointer.toList ++ segment)
      (hkey : String.ofList (OpenApi.Reference.unescape segment) ∉ sectionKeys document part)

/-- The value is a list of texts. -/
def IsTextList (order : Value) : Prop :=
  ∃ items, order = .list items ∧ ∀ item ∈ items, ∃ text, item.untagged = .text text

/-- What an error says is true of a description. An engine may also say that it has no level
left. -/
inductive Truthful (document : Document) : CompileError → Prop
  | unresolvedReference {part : Section} {reference place : String}
      (hstands : StandsFor document reference part) (hdangles : Dangles document part reference) :
      Truthful document (.unresolvedReference reference place)
  | cycle {name : String} {chain : List String} : Truthful document (.cycle name chain)
  | invalidPropertyOrder {schema : Schema} {order : Value} {place : String}
      (hstands : Stands document (.inline schema)) (horder : schema.propertyOrder = some order)
      (hinvalid : ¬ IsTextList order) : Truthful document (.invalidPropertyOrder place)
  | exhausted : Truthful document .exhausted

/-- A list of which not all items are read has one that is not. -/
theorem exists_of_mapM_eq_none {γ : Type} {f : α → Option γ} {items : List α}
    (h : items.mapM f = none) : ∃ item ∈ items, f item = none := by
  induction items with
  | nil => simp at h
  | cons item rest ih =>
    cases hitem : f item with
    | none => exact ⟨item, List.mem_cons_self .., hitem⟩
    | some value =>
      have hrest : rest.mapM f = none := by
        rw [List.mapM_cons, hitem] at h
        cases hvalues : rest.mapM f with
        | none => rfl
        | some values => simp [hvalues] at h
      obtain ⟨other, hother, hnone⟩ := ih hrest
      exact ⟨other, List.mem_cons_of_mem _ hother, hnone⟩

/-- A reference that gives no key of a section leads nowhere in it. -/
theorem Section.dangles_of_key?_eq_none {document : Document} {part : Section}
    {reference : String} (h : part.key? reference = none) : Dangles document part reference := by
  simp only [Section.key?, OpenApi.Reference.key?, Option.map_eq_none_iff] at h
  unfold OpenApi.Reference.segment? at h
  cases hpointer : List.isPrefixOf? part.pointer.toList reference.toList with
  | none =>
    refine .elsewhere fun ⟨segment, hsegment⟩ => ?_
    rw [List.isPrefixOf?_eq_some_iff_append_eq.mpr hsegment] at hpointer
    cases hpointer
  | some segment =>
    have hsplit := List.isPrefixOf?_eq_some_iff_append_eq.mp hpointer
    simp only [hpointer, ite_eq_left_iff, reduceCtorEq, imp_false, Decidable.not_not,
      Bool.or_eq_true, List.isEmpty_iff, List.contains_iff_mem] at h
    rcases h with rfl | hslash
    · exact .nameless (by rw [← hsplit, List.append_nil])
    · exact .deeper hsplit.symm hslash

/-- A reference to a key that a section does not have leads nowhere in it. -/
theorem Section.dangles_of_not_mem {document : Document} {part : Section} {reference key : String}
    (h : part.key? reference = some key) (hkey : key ∉ sectionKeys document part) :
    Dangles document part reference := by
  simp only [Section.key?, OpenApi.Reference.key?, Option.map_eq_some_iff] at h
  obtain ⟨segment, hsegment, rfl⟩ := h
  unfold OpenApi.Reference.segment? at hsegment
  cases hpointer : List.isPrefixOf? part.pointer.toList reference.toList with
  | none => simp [hpointer] at hsegment
  | some rest =>
    simp only [hpointer, Option.ite_none_left_eq_some, Option.some.injEq] at hsegment
    obtain ⟨-, rfl⟩ := hsegment
    exact .absent (List.isPrefixOf?_eq_some_iff_append_eq.mp hpointer).symm hkey

/-! ### Faithful steps -/

/-- Every error of a step is truthful, and the step imports no file besides the given ones. -/
structure Faithful (document : Document) (files : List String) (step : M α) : Prop where
  error : ∀ {s error t}, step s = .error error t → Truthful document error
  imports : ∀ {s file}, file ∈ (stateAfter step s).facts.imports →
    file ∈ s.facts.imports ∨ file ∈ files

namespace Faithful

variable {document : Document} {files : List String} {step : M α}

/-- A step that succeeds and leaves the imports as they are. -/
theorem of_ok (h : ∀ s, ∃ a t, step s = .ok a t ∧ t.facts.imports = s.facts.imports) :
    Faithful document files step where
  error {s _ _} herror := by
    obtain ⟨a, t, hok, -⟩ := h s
    cases hok.symm.trans herror
  imports {s file} hfile := by
    obtain ⟨a, t, hok, heq⟩ := h s
    rw [stateAfter_of_ok hok, heq] at hfile
    exact .inl hfile

/-- The second step only counts for the results that the first one may have. -/
theorem bind_of_result {next : α → M β} (h : Faithful document files step)
    (hnext : ∀ {a s t}, step s = .ok a t → Faithful document files (next a)) :
    Faithful document files (step >>= next) where
  error {s error t} herror := by
    -- the error comes from the second step when the first one succeeds
    cases hrun : step s with
    | ok a u =>
      rw [bind_of_ok hrun] at herror
      exact (hnext hrun).error herror
    | error error' u =>
      rw [bind_of_error hrun] at herror
      cases herror
      exact h.error hrun
  imports {s file} hfile := by
    cases hrun : step s with
    | ok a u =>
      rw [stateAfter_bind_of_ok hrun] at hfile
      rcases (hnext hrun).imports hfile with hfile | hfile
      · exact h.imports (by rwa [stateAfter_of_ok hrun])
      · exact .inr hfile
    | error error' u =>
      rw [stateAfter_bind_of_error hrun] at hfile
      exact h.imports (by rwa [stateAfter_of_error hrun])

/-- One faithful step after the other. -/
theorem bind {next : α → M β} (h : Faithful document files step)
    (hnext : ∀ a, Faithful document files (next a)) : Faithful document files (step >>= next) :=
  h.bind_of_result fun _ => hnext _

/-- A result that is given back at once reports and imports nothing. -/
theorem pure (a : α) : Faithful document files (Pure.pure a : M α) :=
  .of_ok fun s => ⟨a, s, rfl, rfl⟩

/-- A step that fails with a true error is faithful. -/
theorem throw {error : CompileError} (h : Truthful document error) :
    Faithful document files (MonadExcept.throw error : M α) where
  error herror := by
    cases herror
    exact h
  imports hfile := .inl hfile

/-- Looking at the state reports and imports nothing. -/
theorem read : Faithful document files (get : M State) :=
  .of_ok fun s => ⟨s, s, rfl, rfl⟩

/-- A change that leaves the imports as they are. -/
theorem changing {change : State → State}
    (h : ∀ s, (change s).facts.imports = s.facts.imports) :
    Faithful document files (modify change : M PUnit) :=
  .of_ok fun s => ⟨⟨⟩, change s, rfl, h s⟩

/-- What becomes of a result afterwards reports and imports nothing. -/
theorem map (f : α → β) (h : Faithful document files step) :
    Faithful document files (f <$> step) := by
  rw [map_eq_pure_bind]
  exact h.bind fun a => .pure (f a)

/-- A choice between faithful steps. -/
theorem ite {condition : Prop} [Decidable condition] {other : M α}
    (h : Faithful document files step) (hother : Faithful document files other) :
    Faithful document files (if condition then step else other) := by
  split
  · exact h
  · exact hother

/-- A warning is neither an error nor an import. -/
theorem warn (warning : Warning) : Faithful document files (Compile.warn warning) :=
  .of_ok fun _ => ⟨⟨⟩, _, rfl, rfl⟩

/-- Reading the place of the run reports and imports nothing. -/
theorem place : Faithful document files Compile.place :=
  .bind .read fun _ => .pure _

/-- An import has to be among the files that are given. -/
theorem addDependency {name : String} (h : name ∈ files) :
    Faithful document files (updateFile (·.addDependency name)) where
  error herror := by cases herror
  imports hfile := by
    rcases Table.mem_keys_insert.mp hfile with rfl | hfile
    · exact .inr h
    · exact .inl hfile

/-- A reference may be reported as unresolved if it stands in the description and leads nowhere. -/
theorem dangling {part : Section} {reference : String}
    (hstands : StandsFor document reference part) (hdangles : Dangles document part reference) :
    Faithful document files (Compile.dangling reference : M α) :=
  .bind .place fun _ => .throw (.unresolvedReference hstands hdangles)

/-! ### Steps in a changed surrounding -/

/-- What is put back afterwards must leave the imports alone. -/
theorem restoring {restore : State → State}
    (hrestore : ∀ s, (restore s).facts.imports = s.facts.imports)
    (h : Faithful document files step) :
    Faithful document files (Compile.restoring restore step) where
  error {s error t} herror := by
    unfold Compile.restoring at herror
    cases hrun : step s with
    | ok a u => simp [hrun] at herror
    | error error' u =>
      simp only [hrun, EStateM.Result.error.injEq] at herror
      exact herror.1 ▸ h.error hrun
  imports hfile := by
    rw [stateAfter_restoring, hrestore] at hfile
    exact h.imports hfile

/-- A step inside a part of the description. -/
theorem within (part : String) (h : Faithful document files step) :
    Faithful document files (Compile.within part step) :=
  .bind (.changing fun _ => rfl) fun _ => h.restoring fun _ => rfl

/-- A step at another place of the description. -/
theorem under (parts : List String) (h : Faithful document files step) :
    Faithful document files (Compile.under parts step) :=
  .bind .read fun _ => .bind (.changing fun _ => rfl) fun _ => h.restoring fun _ => rfl

/-- A step inside a component. -/
theorem entering (key : String) (h : Faithful document files step) :
    Faithful document files (Compile.entering key step) := by
  refine .bind .read fun state => ?_
  dsimp only
  split
  · exact .bind (.throw .cycle) fun _ =>
      .bind (.changing fun _ => rfl) fun _ => h.restoring fun _ => rfl
  · exact .bind (.changing fun _ => rfl) fun _ => h.restoring fun _ => rfl

/-! ### Loops -/

/-- A loop is faithful if all its rounds are. -/
theorem foldlM {γ : Type} {round : α → γ → M α} {items : List γ}
    (hround : ∀ item ∈ items, ∀ a, Faithful document files (round a item)) (init : α) :
    Faithful document files (items.foldlM round init) := by
  induction items generalizing init with
  | nil => exact .pure init
  | cons item rest ih =>
    rw [List.foldlM_cons]
    exact .bind (hround item (List.mem_cons_self ..) init)
      (ih fun other hother => hround other (List.mem_cons_of_mem _ hother))

/-- A loop without a result is faithful if all its rounds are. -/
theorem forM {γ : Type} {round : γ → M PUnit} {items : List γ}
    (hround : ∀ item ∈ items, Faithful document files (round item)) :
    Faithful document files (items.forM round) := by
  induction items with
  | nil => exact .pure _
  | cons item rest ih =>
    exact .bind (hround item (List.mem_cons_self ..)) fun _ =>
      ih fun other hother => hround other (List.mem_cons_of_mem _ hother)

end Faithful

/-! ### Engines -/

/-- Every call of an engine is faithful, when it is about what stands in the description. A field
may have the types imported that hold a scalar. -/
structure Engine.Faithful (job : Job) (files : List String) (engine : Engine) : Prop where
  holders : wrappersFile ∈ files
  node : ∀ hint {node}, Stands job.document node →
    Compile.Faithful job.document files (engine.node hint node)
  schema : ∀ hint {schema}, Stands job.document (.inline schema) →
    Compile.Faithful job.document files (engine.schema hint schema)
  absorb : ∀ draft {node}, Stands job.document node →
    Compile.Faithful job.document files (engine.absorb draft node)
  component : ∀ {key node}, job.document.components.schemas.find? key = some node →
    Compile.Faithful job.document files (engine.component key node)
  requestBody : ∀ {key body}, job.document.components.requestBodies.find? key = some body →
    Compile.Faithful job.document files (engine.requestBody key body)

/-- An engine without levels only says so. -/
theorem Engine.Faithful.exhausted {job : Job} {files : List String} (h : wrappersFile ∈ files) :
    Engine.exhausted.Faithful job files where
  holders := h
  node _ _ _ := .throw .exhausted
  schema _ _ _ := .throw .exhausted
  absorb _ _ _ := .throw .exhausted
  component _ := .throw .exhausted
  requestBody _ := .throw .exhausted

section

variable {job : Job} {files : List String} {engine : Engine}

/-! ### Steps that make no call -/

/-- Literals become an enum without an error and without an import. -/
theorem enumCarrier_faithful (name : String) (schema : Schema) (literals : List Value) :
    Faithful job.document files (enumCarrier job name schema literals) := by
  refine .of_ok fun s => ?_
  obtain ⟨draft, t, hrun⟩ := infallible_enumCarrier job name schema literals s
  obtain ⟨-, warnings, rfl⟩ := enumCarrier_eq_ok hrun
  exact ⟨draft, _, hrun, rfl⟩

/-- A schema that describes a scalar has a field type, so none is missing. -/
theorem scalarMessage_faithful (name : String) {schema : Schema}
    (h : (scalarType? schema.shape).isSome = true) :
    Faithful job.document files (scalarMessage name schema) := by
  refine .of_ok fun s => ?_
  obtain ⟨draft, t, hrun⟩ := infallible_scalarMessage name h s
  obtain ⟨_, -, -, rfl⟩ := scalarMessage_eq_ok hrun
  exact ⟨draft, _, hrun, rfl⟩

/-- A field that is refused is not an error. -/
theorem addFieldOrWarn_faithful (parent : MessageDraft) (field : FieldDraft)
    (warning : String → String → Warning) :
    Faithful job.document files (addFieldOrWarn parent field warning) := by
  refine .of_ok fun s => ?_
  obtain ⟨filled, t, hrun⟩ := infallible_addFieldOrWarn parent field warning s
  obtain ⟨-, warnings, rfl⟩ := addFieldOrWarn_eq_ok hrun
  exact ⟨filled, _, hrun, rfl⟩

/-- Marking a field as optional imports the wrapper types at most. -/
theorem markPresence_faithful (h : wrappersFile ∈ files) (field : FieldDraft) (schema : Schema)
    (required : Bool) : Faithful job.document files (markPresence job field schema required) := by
  unfold markPresence
  split
  · exact .pure _
  · dsimp only
    split
    · exact .bind (.addDependency h) fun _ => .pure _
    · exact .pure _

/-- A name that is taken is not an error. -/
theorem declareType_faithful (compiled : Option MessageDraft) :
    Faithful job.document files (declareType compiled) := by
  have hadd : ∀ {change : FileDraft → FileDraft} {result : ComponentType},
      (∀ file, (change file).dependencies = file.dependencies) →
      Faithful job.document files (do updateFile change; pure result) := fun hchange =>
    .bind (.changing fun s => congrArg Table.keys (hchange s.file)) fun _ => .pure _
  unfold declareType
  split
  · exact .pure _
  · split
    · exact hadd fun file => file.dependencies_addEnum _
    · exact hadd fun file => file.dependencies_addMessage _

/-- An order is only rejected when it is no list of texts. -/
theorem reorder_faithful (draft : MessageDraft) {schema : Schema} {order : Value}
    (hstands : Stands job.document (.inline schema)) (horder : schema.propertyOrder = some order) :
    Faithful job.document files (reorder draft order) := by
  have hreject (hinvalid : ¬ IsTextList order) : Faithful job.document files
      (do throw (.invalidPropertyOrder (← place)) : M MessageDraft) :=
    .bind .place fun _ => .throw (.invalidPropertyOrder hstands horder hinvalid)
  unfold reorder
  split
  · rename_i items
    split
    · exact .pure _
    · rename_i hnames
      -- one of the items is no text
      refine hreject fun ⟨_, heq, htexts⟩ => ?_
      cases heq
      obtain ⟨item, hitem, hnone⟩ := exists_of_mapM_eq_none hnames
      obtain ⟨text, htext⟩ := htexts item hitem
      simp [htext] at hnone
  · rename_i hlist
    exact hreject fun ⟨items, heq, _⟩ => hlist items heq

/-- A reference that stands in the description is reported only if it leads nowhere. -/
theorem findSchema_faithful {reference : String}
    (hstands : Stands job.document (.ref reference)) :
    Faithful job.document files (findSchema job reference) := by
  have hexpected : StandsFor job.document reference .schemas := hstands
  unfold findSchema
  split
  · rename_i hkey
    exact .dangling hexpected (Section.dangles_of_key?_eq_none hkey)
  · rename_i key hkey
    split
    · rename_i hnone
      exact .dangling hexpected
        (Section.dangles_of_not_mem hkey (Table.not_mem_keys_of_find?_eq_none hnone))
    · exact .pure _

/-- Following references into a section is faithful when `P` holds of the node and of all nodes of
the section, and says that they stand in the description. -/
theorem follow_faithful {part : Section} {table : Table (Referable α)}
    (hkeys : sectionKeys job.document part = table.keys) {P : Referable α → Prop}
    (hstands : ∀ {reference}, P (.ref reference) → StandsFor job.document reference part)
    (htable : ∀ {key target}, table.find? key = some target → P target) {node : Referable α}
    (hnode : P node) : Faithful job.document files (follow part table node) := by
  unfold follow
  -- by induction on the references that may still be followed, from any node with `P`
  generalize table.size + 1 = fuel
  generalize ([] : List String) = seen
  induction fuel generalizing seen node with
  | zero =>
    cases node with
    | inline item => exact .pure _
    | ref reference => exact .throw .exhausted
  | succ fuel ih =>
    cases node with
    | inline item => exact .pure _
    | ref reference =>
      unfold followFrom
      split
      · rename_i hkey
        exact .dangling (hstands hnode) (Section.dangles_of_key?_eq_none hkey)
      · rename_i key hkey
        split
        · exact .throw .cycle
        · split
          · rename_i hnone
            refine .dangling (hstands hnode) (Section.dangles_of_not_mem hkey ?_)
            rw [hkeys]
            exact Table.not_mem_keys_of_find?_eq_none hnone
          · rename_i target htarget
            exact ih (htable htarget) _

/-- A chain of request bodies is reported at the reference that leads nowhere. -/
theorem followBody_faithful {body : Referable RequestBody}
    (hbody : body ∈ job.document.requestBodies) :
    Faithful job.document files
      (follow .requestBodies job.document.components.requestBodies body) :=
  follow_faithful rfl (P := (· ∈ job.document.requestBodies)) id
    Document.mem_requestBodies_of_find? hbody

/-! ### Members -/

/-- The type of a reference is found faithfully if the reference stands in the description. -/
theorem referencedType_faithful (h : engine.Faithful job files) {reference : String}
    (hstands : Stands job.document (.ref reference)) :
    Faithful job.document files (referencedType engine job reference) :=
  .bind_of_result (findSchema_faithful hstands) fun hfind =>
    h.component (findSchema_eq_ok hfind).2.1

/-- The message for a shared name comes from a component, which stands in the description. -/
theorem standIn_faithful (h : engine.Faithful job files) (name : String) :
    Faithful job.document files (standIn engine job name) := by
  unfold standIn
  dsimp only
  cases hschema : job.document.components.schemas.entries.find? fun entry =>
      job.messageName entry.1 == name with
  | some entry =>
    refine .bind (.bind .read fun _ => .pure _) fun inProgress => ?_
    cases inProgress with
    | true => exact .bind (.pure _) fun _ => .pure _
    | false =>
      exact .bind ((h.component (find?_messageName hschema).1).map _) fun _ => .pure _
  | none =>
    cases hbody : job.document.components.requestBodies.entries.find? fun entry =>
        job.messageName entry.1 == name with
    | some entry =>
      refine .bind (.bind .read fun _ => .pure _) fun inProgress => ?_
      cases inProgress with
      | true => exact .bind (.pure _) fun _ => .pure _
      | false =>
        exact .bind ((h.requestBody (find?_messageName hbody).1).map _) fun _ => .pure _
    | none => exact .bind (.pure _) fun _ => .pure _

/-- A name for a nested type may call a component, faithfully. -/
theorem nestingName_faithful (h : engine.Faithful job files) (parent : MessageDraft)
    (name : String) (isEnum : Bool) :
    Faithful job.document files (nestingName engine job parent name isEnum) := by
  refine .bind .read fun state => ?_
  split
  · exact .pure _
  · refine .bind (standIn_faithful h name) fun stand => ?_
    cases stand with
    | none => exact .pure _
    | some resolved =>
      refine .ite (.pure _) ?_
      exact .bind .read fun _ => .bind .place fun _ => .bind (.warn _) fun _ => .pure _

/-- Taking in a child adds no error of its own. -/
theorem takeIn_faithful (h : engine.Faithful job files) (parent : MessageDraft)
    (fieldName : String) (child : MessageDraft) (allowRepeated : Bool) :
    Faithful job.document files (takeIn engine job parent fieldName child allowRepeated) := by
  unfold takeIn
  split
  · refine .bind (nestingName_faithful h _ _ _) fun nested => ?_
    split <;> exact .pure _
  · dsimp only
    split
    · exact .pure _
    · refine .bind (nestingName_faithful h _ _ _) fun nested => ?_
      split <;> exact .pure _

/-- A property is compiled faithfully if its schema stands in the description. -/
theorem addMember_faithful (h : engine.Faithful job files) (parent : MessageDraft) (name : String)
    {property : SchemaNode} (hproperty : Stands job.document property) (required : Bool)
    (comment : Option String) :
    Faithful job.document files (addMember engine job parent name property required comment) := by
  cases property with
  | ref reference =>
    refine .bind (referencedType_faithful h hproperty) fun _ => ?_
    split
    · exact .pure _
    · exact addFieldOrWarn_faithful _ _ _
  | inline schema =>
    refine .bind (h.schema _ hproperty) fun compiled => ?_
    split
    · exact .pure _
    · exact .bind (takeIn_faithful h _ _ _ _) fun _ =>
        .bind (markPresence_faithful h.holders _ _ _) fun _ => addFieldOrWarn_faithful _ _ _

/-- The properties of an object are compiled faithfully if their schemas stand in the
description. -/
theorem addMembers_faithful (h : engine.Faithful job files) (parent : MessageDraft)
    {properties : List (String × SchemaNode)}
    (hproperties : ∀ property ∈ properties, Stands job.document property.2)
    (required : List String) :
    Faithful job.document files (addMembers engine job parent properties required) :=
  .foldlM (fun property hproperty _ =>
    (addMember_faithful h _ _ (hproperties property hproperty) _ _).within _) _

/-- A schema without a name of its own is compiled faithfully if it stands in the description. -/
theorem unnamedMember_faithful (h : engine.Faithful job files) (parent : MessageDraft)
    (fieldName : Option String) (fallback : String) {node : SchemaNode}
    (hnode : Stands job.document node) :
    Faithful job.document files (unnamedMember engine job parent fieldName fallback node) := by
  cases node with
  | ref reference => exact .bind (referencedType_faithful h hnode) fun _ => .pure _
  | inline schema =>
    refine .bind (h.schema _ hnode) fun compiled => ?_
    split
    · exact .pure _
    · exact .bind (takeIn_faithful h _ _ _ _) fun _ => .pure _

/-- A union is compiled faithfully if its variants stand in the description. -/
theorem unionMessage_faithful (h : engine.Faithful job files) (name : String) (schema : Schema)
    (label : String) {variants : List SchemaNode}
    (hvariants : ∀ variant ∈ variants, Stands job.document variant) :
    Faithful job.document files (unionMessage engine job name schema label variants) := by
  refine .foldlM (fun variant hvariant parent => ?_) _
  have hstands : Stands job.document variant.2 := by
    obtain ⟨indexed, hindexed, rfl⟩ := List.mem_map.mp hvariant
    exact hvariants _ (List.fst_mem_of_mem_zipIdx hindexed)
  refine .bind ((unnamedMember_faithful h _ _ _ hstands).within _) fun given => ?_
  obtain ⟨grown, field?⟩ := given
  cases field? with
  | none => exact .pure _
  | some field => exact addFieldOrWarn_faithful _ _ _

/-- What `allOf` combines is compiled faithfully if its variants and properties stand in the
description. -/
theorem combinedMessage_faithful (h : engine.Faithful job files) (name : String) (schema : Schema)
    {variants : List SchemaNode} {properties : List (String × SchemaNode)}
    (hvariants : ∀ variant ∈ variants, Stands job.document variant)
    (hproperties : ∀ property ∈ properties, Stands job.document property.2)
    (required : List String) :
    Faithful job.document files
      (combinedMessage engine job name schema variants properties required) :=
  .bind (.foldlM (fun _ hvariant _ =>
      (h.absorb _ (hvariants _ (List.fst_mem_of_mem_zipIdx hvariant))).within _) _) fun _ =>
    addMembers_faithful h _ hproperties _

/-- A list at the top level is compiled faithfully if its items stand in the description. -/
theorem listWrapper_faithful (h : engine.Faithful job files) (name : String) (schema : Schema)
    {items : Option SchemaNode} (hitems : ∀ node ∈ items, Stands job.document node) :
    Faithful job.document files (listWrapper engine job name schema items) := by
  cases items with
  | none => exact .pure _
  | some node =>
    refine .bind ((unnamedMember_faithful h _ _ _ (hitems node rfl)).within _) fun given => ?_
    obtain ⟨grown, field?⟩ := given
    cases field? <;> exact .pure _

/-! ### Schemas -/

/-- A shape is compiled faithfully, as the parts of a schema stand where the schema does. -/
theorem messageOfShape_faithful (h : engine.Faithful job files) (name : String) {schema : Schema}
    (hstands : Stands job.document (.inline schema)) :
    Faithful job.document files (messageOfShape engine job name schema) := by
  have hparts (part : Place × SchemaNode) (hpart : part ∈ parts schema.shape) :
      Stands job.document part.2 := hstands.part hpart
  unfold messageOfShape
  -- the nodes of each shape are parts of the schema, so they stand in the description as it does
  cases hshape : schema.shape with
  | map value =>
    rw [hshape] at hparts
    exact (h.node _ (hparts (.inPlace, value) (List.mem_singleton_self _))).within _
  | enum literals => exact (enumCarrier_faithful _ _ _).map _
  | oneOf variants =>
    rw [hshape] at hparts
    exact (unionMessage_faithful h _ _ _ fun variant hvariant =>
      hparts _ (List.mem_map_of_mem hvariant)).map _
  | anyOf variants =>
    rw [hshape] at hparts
    exact (unionMessage_faithful h _ _ _ fun variant hvariant =>
      hparts _ (List.mem_map_of_mem hvariant)).map _
  | allOf variants properties required =>
    rw [hshape] at hparts
    exact (combinedMessage_faithful h _ _
      (fun variant hvariant => hparts _ (List.mem_append_left _ (List.mem_map_of_mem hvariant)))
      (fun property hproperty => hparts _ (List.mem_append_right _
        (List.mem_map_of_mem (f := fun property => (Place.member, property.2)) hproperty)))
      _).map _
  | array items =>
    rw [hshape] at hparts
    exact listWrapper_faithful h _ _ fun node hnode =>
      hparts _ (List.mem_map_of_mem (Option.mem_toList.mpr hnode))
  | object properties required =>
    rw [hshape] at hparts
    exact (addMembers_faithful h _ (fun property hproperty => hparts _
      (List.mem_map_of_mem (f := fun property => (Place.member, property.2)) hproperty)) _).map _
  | any => exact .pure _
  | _ => exact (scalarMessage_faithful _ (by simp [scalarType?, hshape])).map _

/-- An order is rejected only if it stands in the schema and is no list of texts. -/
theorem messageOfSchema_faithful (h : engine.Faithful job files) (hint : String) {schema : Schema}
    (hstands : Stands job.document (.inline schema)) :
    Faithful job.document files (messageOfSchema engine job hint schema) := by
  refine .bind (messageOfShape_faithful h _ hstands) fun shaped => ?_
  split
  · rename_i draft order horder
    exact (reorder_faithful draft hstands horder).map _
  · exact .pure _

/-- A component that a reference leads to stands in the description. -/
theorem stands_of_findSchema {reference : String} {found : String × SchemaNode} {s t : State}
    (h : findSchema job reference s = .ok found t) : Stands job.document found.2 :=
  .component (findSchema_eq_ok h).2.1

/-- A node is compiled faithfully wherever its references lead. -/
theorem messageOfNode_faithful (h : engine.Faithful job files) (hint : String) {node : SchemaNode}
    (hnode : Stands job.document node) :
    Faithful job.document files (messageOfNode engine job hint node) := by
  cases node with
  | inline schema => exact h.schema _ hnode
  | ref reference =>
    exact .bind_of_result (findSchema_faithful hnode) fun hfind =>
      (h.node _ (stands_of_findSchema hfind)).entering _

/-- A variant is absorbed faithfully if it stands in the description. -/
theorem absorb_faithful (h : engine.Faithful job files) (draft : MessageDraft) {node : SchemaNode}
    (hnode : Stands job.document node) :
    Faithful job.document files (absorb engine job draft node) := by
  cases node with
  | inline schema =>
    show Faithful job.document files (if !schema.isObject then _ else _)
    split
    · exact .bind .place fun _ => .bind (.warn _) fun _ => .pure _
    · refine .bind (h.schema _ hnode) fun compiled => ?_
      split <;> exact .pure _
  | ref reference =>
    exact .bind_of_result (findSchema_faithful hnode) fun hfind =>
      (h.absorb _ (stands_of_findSchema hfind)).entering _

/-! ### Components -/

/-- A component is declared faithfully, as it stands in the description. -/
theorem declareSchema_faithful (h : engine.Faithful job files) {key : String} {node : SchemaNode}
    (hnode : job.document.components.schemas.find? key = some node) :
    Faithful job.document files (declareSchema engine job key node) := by
  refine .bind .read fun state => ?_
  split
  · exact .pure _
  · exact .bind (((h.node _ (.component hnode)).under _).entering _) fun _ =>
      .bind (declareType_faithful _) fun _ => .bind (.changing fun _ => rfl) fun _ => .pure _

/-- The schema for JSON stands where the content does. -/
theorem Stands.of_jsonSchema {document : Document} {body : RequestBody} {node : SchemaNode}
    (h : .inline body ∈ document.requestBodies) (hschema : body.content.jsonSchema? = some node) :
    Stands document node := by
  obtain ⟨⟨_⟩, hmedia, rfl⟩ := Option.bind_eq_some_iff.mp hschema
  exact .body h (Table.find?_eq_some_iff.mp hmedia)

/-- The type of a shared request body is found faithfully. -/
theorem typeOfBody_faithful (h : engine.Faithful job files) (key : String)
    {body : Referable RequestBody} (hbody : body ∈ job.document.requestBodies) :
    Faithful job.document files (typeOfBody engine job key body) := by
  refine .bind_of_result (followBody_faithful hbody) fun {content _ _} hfollow => ?_
  have hcontent : .inline content ∈ job.document.requestBodies :=
    (leadsTo_of_followFrom hfollow).keeps (P := (· ∈ job.document.requestBodies)) hbody
      Document.mem_requestBodies_of_find?
  split
  · exact .pure _
  · rename_i reference hschema
    exact referencedType_faithful h (.of_jsonSchema hcontent hschema)
  · rename_i schema hschema
    exact .bind (h.schema _ (.of_jsonSchema hcontent hschema)) fun _ => declareType_faithful _

/-- A shared request body is declared faithfully. -/
theorem declareBody_faithful (h : engine.Faithful job files) {key : String}
    {body : Referable RequestBody}
    (hbody : job.document.components.requestBodies.find? key = some body) :
    Faithful job.document files (declareBody engine job key body) := by
  refine .bind .read fun state => ?_
  split
  · exact .pure _
  · exact .bind (((typeOfBody_faithful h _
      (Document.mem_requestBodies_of_find? hbody)).under _).entering _) fun _ =>
      .bind (.changing fun _ => rfl) fun _ => .pure _

/-- One more level keeps an engine faithful. -/
theorem Engine.Faithful.step (h : engine.Faithful job files) :
    (Engine.step job engine).Faithful job files where
  holders := h.holders
  node := messageOfNode_faithful h
  schema := messageOfSchema_faithful h
  absorb := absorb_faithful h
  component := declareSchema_faithful h
  requestBody := declareBody_faithful h

end

/-- All engines are faithful if the file of the wrapper types may be imported. -/
theorem Engine.ofLevels_faithful (job : Job) {files : List String} (h : wrappersFile ∈ files)
    (levels : Nat) : (Engine.ofLevels job levels).Faithful job files := by
  induction levels with
  | zero => exact .exhausted h
  | succ levels ih => exact ih.step

end Protoscribe.Compile
