import Protoscribe.Compile.Levels
import Protoscribe.Proofs.Draft.Uncommented
import Protoscribe.Proofs.OpenApi.Undescribed

/-!
# `Protoscribe.Proofs.Compile.Mirrored`: no schema is compiled by its prose

The prose of a description ends up in comments of drafts. Two runs are compared here: one over a
description, and one over the description without its prose. When the second one starts without the
comments of the first one, it does what the first one does, without the comments (`Mirrors`): it
fails where the first one fails, warns of the same and builds the same drafts.

The functions between two levels of calls are mirrored one by one, so every engine is mirrored by
the engine over the description without prose (`Engine.ofLevels_mirrors`).
-/

set_option autoImplicit false

namespace Protoscribe.Compile

open OpenApi (Referable RequestBody Schema SchemaNode undescribedNode)

variable {α α' β β' : Type}

/-- The state without the comments in its file. -/
def State.uncommented (state : State) : State :=
  { state with file := state.file.uncommented }

/-- The job over the description without prose. -/
def Job.undescribed (job : Job) : Job :=
  { job with document := job.document.undescribed }

/-- A step is mirrored by another one: in the state without comments, the other one comes to the
same result without comments, be it a value or an error. `erase` takes the comments out of a
value. -/
def Mirrors (erase : α → α') (step : M α) (other : M α') : Prop :=
  ∀ s, other s.uncommented =
    match step s with
    | .ok a t => .ok (erase a) t.uncommented
    | .error e t => .error e t.uncommented

namespace Mirrors

/-- A result that is given back at once is mirrored by the same result without comments. -/
theorem pure {erase : α → α'} {a : α} {other : α'} (h : other = erase a) :
    Mirrors erase (Pure.pure a) (Pure.pure other) :=
  fun s => congrArg (EStateM.Result.ok · s.uncommented) h

/-- An error mentions no prose, so the run without prose fails with the same one. -/
theorem throw {erase : α → α'} (error : CompileError) :
    Mirrors erase (throw error) (throw error) :=
  fun _ => rfl

/-- A step that looks at the state sees the same state without its comments. -/
theorem get : Mirrors State.uncommented get get :=
  fun _ => rfl

/-- A change of the state is mirrored by a change that does the same to the state without
comments. -/
theorem modify {change other : State → State}
    (h : ∀ s, other s.uncommented = (change s).uncommented) :
    Mirrors id (modify change : M PUnit) (modify other) :=
  fun s => congrArg (EStateM.Result.ok PUnit.unit) (h s)

/-- One step after the other is mirrored by the mirrors of both, one after the other. -/
theorem bind {erase : α → α'} {eraseNext : β → β'} {step : M α} {other : M α'} {next : α → M β}
    {otherNext : α' → M β'} (hstep : Mirrors erase step other)
    (hnext : ∀ a, Mirrors eraseNext (next a) (otherNext (erase a))) :
    Mirrors eraseNext (step >>= next) (other >>= otherNext) := by
  intro s
  show EStateM.bind other otherNext s.uncommented = _
  rw [EStateM.bind, hstep s]
  show _ = match EStateM.bind step next s with | .ok a t => _ | .error e t => _
  rw [EStateM.bind]
  cases step s with
  | ok a t => exact hnext a t
  | error e t => rfl

/-- A function of the result may follow on either side, if it agrees with taking the comments
out. -/
theorem map {erase : α → α'} {eraseNext : β → β'} {step : M α} {other : M α'} {f : α → β}
    {g : α' → β'} (hstep : Mirrors erase step other) (h : ∀ a, g (erase a) = eraseNext (f a)) :
    Mirrors eraseNext (f <$> step) (g <$> other) :=
  hstep.bind fun a => .pure (h a)

/-- A choice is mirrored branch by branch. Its condition is the same on both sides. -/
theorem ite {erase : α → α'} {p : Prop} [Decidable p] {step step' : M α} {other other' : M α'}
    (hpos : p → Mirrors erase step other) (hneg : ¬p → Mirrors erase step' other') :
    Mirrors erase (if p then step else step') (if p then other else other') := by
  split
  · exact hpos ‹p›
  · exact hneg ‹¬p›

/-- Putting something back afterwards is mirrored, whether the step fails or not. -/
theorem restoring {erase : α → α'} {restore other : State → State} {step : M α} {mirror : M α'}
    (hstep : Mirrors erase step mirror)
    (h : ∀ s, other s.uncommented = (restore s).uncommented) :
    Mirrors erase (restoring restore step) (Compile.restoring other mirror) := by
  intro s
  rw [Compile.restoring, Compile.restoring, hstep s]
  cases step s with
  | ok a t => exact congrArg (EStateM.Result.ok (erase a)) (h t)
  | error e t => exact congrArg (EStateM.Result.error e) (h t)

/-! ### Steps of a compilation -/

/-- The place that warnings give holds no prose. -/
theorem place : Mirrors id place place :=
  .bind get fun _ => .pure rfl

/-- Warnings hold no prose, so both runs give the same one. -/
theorem warn (warning : Warning) : Mirrors id (warn warning) (warn warning) :=
  .modify fun _ => rfl

/-- A reference to nothing is reported alike. -/
theorem dangling {erase : α → α'} (reference : String) :
    Mirrors erase (dangling reference) (dangling reference) :=
  .bind place fun _ => .throw _

/-- A change of the file that does not look at comments. -/
theorem updateFile {change other : FileDraft → FileDraft}
    (h : ∀ file, other file.uncommented = (change file).uncommented) :
    Mirrors id (updateFile change) (updateFile other) :=
  .modify fun s => congrArg (fun file => { s with file }) (h s.file)

section

variable {erase : α → α'} {step : M α} {other : M α'}

/-- A step inside a part of the description. -/
theorem within (part : String) (h : Mirrors erase step other) :
    Mirrors erase (within part step) (within part other) :=
  .bind (.modify fun _ => rfl) fun _ => h.restoring fun _ => rfl

/-- A step at another place of the description. -/
theorem under (parts : List String) (h : Mirrors erase step other) :
    Mirrors erase (under parts step) (under parts other) :=
  .bind get fun _ => .bind (.modify fun _ => rfl) fun _ => h.restoring fun _ => rfl

/-- A step inside a component. -/
theorem entering (key : String) (h : Mirrors erase step other) :
    Mirrors erase (entering key step) (entering key other) := by
  -- the step behind the check for a circle stands there twice, once behind the error
  refine .bind get fun s => .ite (fun _ => .bind (@throw Unit Unit id _) fun _ => ?_) fun _ => ?_
  all_goals exact .bind (.modify fun _ => rfl) fun _ => h.restoring fun _ => rfl

end

/-- A loop is mirrored by a loop whose rounds mirror its own. -/
theorem foldlM {γ γ' : Type} {erase : α → α'} {eraseItem : γ → γ'} {round : α → γ → M α}
    {other : α' → γ' → M α'}
    (hround : ∀ a item, Mirrors erase (round a item) (other (erase a) (eraseItem item)))
    (items : List γ) (init : α) :
    Mirrors erase (items.foldlM round init) ((items.map eraseItem).foldlM other (erase init)) := by
  induction items generalizing init with
  | nil => exact .pure rfl
  | cons item rest ih =>
    rw [List.map_cons, List.foldlM_cons, List.foldlM_cons]
    exact .bind (hround init item) ih

/-- A loop is mirrored round by round, over the items without their prose. -/
theorem forM {γ γ' : Type} {eraseItem : γ → γ'} {round : γ → M PUnit} {other : γ' → M PUnit}
    (hround : ∀ item, Mirrors id (round item) (other (eraseItem item))) (items : List γ) :
    Mirrors id (items.forM round) ((items.map eraseItem).forM other) := by
  induction items with
  | nil => exact .pure rfl
  | cons item rest ih => exact .bind (hround item) fun _ => ih

end Mirrors

/-! ### References -/

section

variable {job : Job}

/-- A schema component of the description without prose is the component without prose. -/
theorem findSchema_mirrors (reference : String) :
    Mirrors (fun found => (found.1, undescribedNode found.2)) (findSchema job reference)
      (findSchema job.undescribed reference) := by
  unfold findSchema
  cases OpenApi.Section.schemas.key? reference with
  | none => exact .dangling reference
  | some key =>
    have hfind : job.undescribed.document.components.schemas.find? key =
        (job.document.components.schemas.find? key).map undescribedNode :=
      Table.find?_map undescribedNode _ key
    dsimp only
    rw [hfind]
    cases job.document.components.schemas.find? key with
    | none => exact .dangling reference
    | some node => exact .pure rfl

/-- Prose decides neither where references lead nor whether they lead in a circle. -/
theorem followFrom_mirrors (part : OpenApi.Section) {erase : α → α'} (table : Table (Referable α))
    (fuel : Nat) (seen : List String) (node : Referable α) :
    Mirrors erase (followFrom part table fuel seen node)
      (followFrom part (table.map (·.map erase)) fuel seen (node.map erase)) := by
  -- references are the same on both sides, only the definitions differ
  induction fuel generalizing seen node with
  | zero =>
    cases node with
    | inline item => exact .pure rfl
    | ref reference => exact .throw _
  | succ fuel ih =>
    cases node with
    | inline item => exact .pure rfl
    | ref reference =>
      rw [Referable.map, followFrom, followFrom]
      cases part.key? reference with
      | none => exact .dangling reference
      | some key =>
        dsimp only
        split
        · exact .throw _
        · rw [Table.find?_map]
          cases table.find? key with
          | none => exact .dangling reference
          | some node => exact ih _ node

/-- A reference is followed to the same definition, with its prose or without. -/
theorem follow_mirrors (part : OpenApi.Section) {erase : α → α'} (table : Table (Referable α))
    (node : Referable α) :
    Mirrors erase (follow part table node)
      (follow part (table.map (·.map erase)) (node.map erase)) := by
  rw [follow, follow, Table.size_map]
  exact followFrom_mirrors part table _ _ node

end

/-- The calls of one engine are mirrored by those of another one. -/
structure Engine.Mirrors (engine other : Engine) : Prop where
  node : ∀ hint node,
    Compile.Mirrors (Option.map MessageDraft.uncommented) (engine.node hint node)
      (other.node hint (undescribedNode node))
  schema : ∀ hint (schema : Schema),
    Compile.Mirrors (Option.map MessageDraft.uncommented) (engine.schema hint schema)
      (other.schema hint schema.undescribed)
  absorb : ∀ draft node,
    Compile.Mirrors MessageDraft.uncommented (engine.absorb draft node)
      (other.absorb draft.uncommented (undescribedNode node))
  component : ∀ key node,
    Compile.Mirrors id (engine.component key node) (other.component key (undescribedNode node))
  requestBody : ∀ key (body : Referable RequestBody),
    Compile.Mirrors id (engine.requestBody key body)
      (other.requestBody key (body.map RequestBody.undescribed))

/-- Where no calls are left, every call fails in the same way. -/
theorem Engine.exhausted_mirrors : Engine.exhausted.Mirrors Engine.exhausted where
  node _ _ := .throw _
  schema _ _ := .throw _
  absorb _ _ := .throw _
  component _ _ := .throw _
  requestBody _ _ := .throw _

section

variable {job : Job} {engine other : Engine}

/-! ### Members -/

/-- A reference in a field names the same type in both descriptions. -/
theorem referencedType_mirrors (h : engine.Mirrors other) (reference : String) :
    Mirrors id (referencedType engine job reference)
      (referencedType other job.undescribed reference) :=
  .bind (findSchema_mirrors reference) fun found => h.component found.1 found.2

/-- The first component with a message name has this name without its prose too. -/
theorem find?_schemas_undescribed (job : Job) (name : String) :
    (job.undescribed.document.components.schemas.entries.find? fun entry =>
        job.undescribed.messageName entry.1 == name) =
      (job.document.components.schemas.entries.find? fun entry =>
        job.messageName entry.1 == name).map fun entry => (entry.1, undescribedNode entry.2) :=
  List.find?_map

/-- The first request body with a message name has this name without its prose too. -/
theorem find?_bodies_undescribed (job : Job) (name : String) :
    (job.undescribed.document.components.requestBodies.entries.find? fun entry =>
        job.undescribed.messageName entry.1 == name) =
      (job.document.components.requestBodies.entries.find? fun entry =>
        job.messageName entry.1 == name).map fun entry =>
          (entry.1, entry.2.map RequestBody.undescribed) :=
  List.find?_map

/-- Both runs have entered the same components. -/
theorem inProgress_mirrors (key : String) :
    Mirrors id (do pure ((← get).chain.contains key)) (do pure ((← get).chain.contains key)) :=
  .bind .get fun _ => .pure rfl

/-- The message that stands in for a shared name is put together from the same component. -/
theorem standIn_mirrors (h : engine.Mirrors other) (name : String) :
    Mirrors id (standIn engine job name) (standIn other job.undescribed name) := by
  unfold standIn
  dsimp only
  rw [find?_schemas_undescribed, find?_bodies_undescribed]
  cases job.document.components.schemas.entries.find? fun entry =>
      job.messageName entry.1 == name with
  | some entry =>
    refine .bind (inProgress_mirrors entry.1) fun inProgress => ?_
    cases inProgress with
    | true => exact .pure rfl
    | false => exact .bind ((h.component _ _).map fun _ => rfl) fun _ => .pure rfl
  | none =>
    cases job.document.components.requestBodies.entries.find? fun entry =>
        job.messageName entry.1 == name with
    | some entry =>
      refine .bind (inProgress_mirrors ("requestBodies." ++ entry.1)) fun inProgress => ?_
      cases inProgress with
      | true => exact .pure rfl
      | false => exact .bind ((h.requestBody _ _).map fun _ => rfl) fun _ => .pure rfl
    | none => exact .pure rfl

/-- A name is free in a file or a message whatever the comments say. -/
theorem freeTypeName_uncommented (file : FileDraft) (parent : MessageDraft)
    (name suffix : String) :
    freeTypeName file.uncommented parent.uncommented name suffix =
      freeTypeName file parent name suffix := by
  have htypes : parent.uncommented.takenTypes = parent.takenTypes := by
    rw [MessageDraft.uncommented_eq]
  have hreserved (candidate : String) :
      file.uncommented.isReserved candidate = file.isReserved candidate := rfl
  unfold freeTypeName
  simp only [FileDraft.hasType_uncommented, MessageDraft.hasNestedType_uncommented, htypes,
    hreserved]
  rfl

/-- The name that a type is nested under does not depend on comments. -/
theorem nestingName_mirrors (h : engine.Mirrors other) (parent : MessageDraft) (name : String)
    (isEnum : Bool) :
    Mirrors id (nestingName engine job parent name isEnum)
      (nestingName other job.undescribed parent.uncommented name isEnum) := by
  refine .bind .get fun s => .ite (fun _ => .pure rfl) fun _ =>
    .bind (standIn_mirrors h name) fun resolved => ?_
  cases resolved with
  | none => exact .pure rfl
  | some resolved =>
    refine .ite (fun _ => .pure rfl) fun _ => .bind .get fun s => .bind .place fun part => ?_
    rw [State.uncommented, freeTypeName_uncommented]
    exact .bind (.warn _) fun _ => .pure rfl

/-- A child is taken in as it is without comments, and its field says the same. -/
theorem takeIn_mirrors (h : engine.Mirrors other) (parent : MessageDraft) (fieldName : String)
    (child : MessageDraft) (allowRepeated : Bool) :
    Mirrors (Prod.map MessageDraft.uncommented FieldDraft.uncommented)
      (takeIn engine job parent fieldName child allowRepeated)
      (takeIn other job.undescribed parent.uncommented fieldName child.uncommented
        allowRepeated) := by
  have hrepeated : child.uncommented.fields.any (·.repeated) = child.fields.any (·.repeated) := by
    rw [MessageDraft.fields_uncommented, List.any_map]
    rfl
  unfold takeIn
  -- neither what a child is nor what it holds depends on comments, so both runs take the same way
  rw [MessageDraft.carriedEnum?_uncommented, hrepeated, MessageDraft.unwrap?_uncommented]
  cases child.carriedEnum? with
  | some enum =>
    refine .bind (nestingName_mirrors h parent enum.name true) fun name => ?_
    cases name with
    | none => exact .pure rfl
    | some name =>
      exact .pure (congrArg (·, _) (parent.addEnum_uncommented { enum with name }))
  | none =>
    have hunwrapped :
        (if allowRepeated || !child.fields.any (·.repeated) then
          child.unwrap?.map Unwrapped.uncommented else none) =
        (if allowRepeated || !child.fields.any (·.repeated) then child.unwrap? else none).map
          Unwrapped.uncommented := by
      split <;> rfl
    dsimp only [Option.map_none]
    rw [hunwrapped]
    cases if allowRepeated || !child.fields.any (·.repeated) then child.unwrap? else none with
    | some unwrapped =>
      exact .pure (congrArg (·, _) (parent.nestAll_uncommented _ _))
    | none =>
      dsimp only [Option.map_none]
      rw [MessageDraft.name_uncommented]
      refine .bind (nestingName_mirrors h parent child.name false) fun name => ?_
      cases name with
      | none => exact .pure rfl
      | some name =>
        have hnested := (congrArg _ (child.rename_uncommented name)).trans
          (parent.addMessage_uncommented { child with name })
        exact .pure (congrArg (·, _) hnested)

/-- Whether a field is marked as optional is settled by its schema without the prose. -/
theorem markPresence_mirrors (field : FieldDraft) (schema : Schema) (required : Bool) :
    Mirrors FieldDraft.uncommented (markPresence job field schema required)
      (markPresence job.undescribed field.uncommented schema.undescribed required) := by
  have hwrapper :
      (if job.undescribed.config.wrapPrimitives then holder? field.uncommented.type else none) =
        if job.config.wrapPrimitives then holder? field.type else none := rfl
  refine .ite (fun _ => .pure rfl) fun _ => ?_
  dsimp only
  rw [hwrapper]
  cases if job.config.wrapPrimitives then holder? field.type else none with
  | some wrapper =>
    exact .bind (.updateFile fun _ => rfl) fun _ => .pure rfl
  | none =>
    refine .pure ?_
    rw [schema.nullable_undescribed]
    split <;> rfl

/-- A field is refused for its name, and never for its comment. -/
theorem addFieldOrWarn_mirrors (parent : MessageDraft) (field : FieldDraft)
    (warning : String → String → Warning) :
    Mirrors MessageDraft.uncommented (addFieldOrWarn parent field warning)
      (addFieldOrWarn parent.uncommented field.uncommented warning) := by
  have hadd := parent.addField_uncommented field
  unfold addFieldOrWarn
  rw [MessageDraft.hasField_uncommented]
  refine .ite (fun _ => ?_) fun _ => .pure hadd
  exact .bind .place fun _ => .bind (.warn _) fun _ => .pure hadd

/-- Comments do not keep a message from being empty. -/
theorem filter_uncommented (compiled : Option MessageDraft) :
    ((compiled.map MessageDraft.uncommented).filter fun draft => !draft.isEmpty) =
      (compiled.filter fun draft => !draft.isEmpty).map MessageDraft.uncommented := by
  cases compiled with
  | none => rfl
  | some draft =>
    rw [Option.map_some, Option.filter_some, Option.filter_some, MessageDraft.isEmpty_uncommented]
    split <;> rfl

/-- A field that only names a type has no comment to lose. -/
theorem fieldTo_uncommented (fieldName : Option String) (type : ComponentType) :
    (fieldTo fieldName type).map FieldDraft.uncommented = fieldTo fieldName type := by
  cases type <;> rfl

/-- A comment that is given for a member does not count. -/
theorem addMember_mirrors (h : engine.Mirrors other) (parent : MessageDraft) (name : String)
    (property : SchemaNode) (required : Bool) (comment : Option String) :
    Mirrors MessageDraft.uncommented (addMember engine job parent name property required comment)
      (addMember other job.undescribed parent.uncommented name (undescribedNode property) required
        none) := by
  cases property with
  | ref reference =>
    refine .bind (referencedType_mirrors h reference) fun type => ?_
    dsimp only [id]
    cases hfield : fieldTo (some (Identifier.fieldName name)) type with
    | none => exact .pure rfl
    | some field => exact addFieldOrWarn_mirrors parent { field with comment } _
  | inline schema =>
    rw [undescribedNode]
    refine .bind (h.schema _ schema) fun compiled => ?_
    rw [filter_uncommented]
    cases compiled.filter fun draft => !draft.isEmpty with
    | none => exact .pure rfl
    | some child =>
      refine .bind (takeIn_mirrors h parent _ child true) fun taken => ?_
      refine .bind (markPresence_mirrors taken.2 schema required) fun field => ?_
      rw [schema.description_undescribed]
      exact addFieldOrWarn_mirrors taken.1
        { field with comment := comment <|> schema.description } _

/-- The properties of an object become the same fields. -/
theorem addMembers_mirrors (h : engine.Mirrors other) (parent : MessageDraft)
    (properties : List (String × SchemaNode)) (required : List String) :
    Mirrors MessageDraft.uncommented (addMembers engine job parent properties required)
      (addMembers other job.undescribed parent.uncommented
        (OpenApi.undescribedProperties properties) required) := by
  rw [OpenApi.undescribedProperties_eq_map]
  exact .foldlM (fun parent entry => (addMember_mirrors h parent entry.1 entry.2 _ none).within _)
    properties parent

/-- A schema without a name of its own becomes the same field. -/
theorem unnamedMember_mirrors (h : engine.Mirrors other) (parent : MessageDraft)
    (fieldName : Option String) (fallback : String) (node : SchemaNode) :
    Mirrors (Prod.map MessageDraft.uncommented (Option.map FieldDraft.uncommented))
      (unnamedMember engine job parent fieldName fallback node)
      (unnamedMember other job.undescribed parent.uncommented fieldName fallback
        (undescribedNode node)) := by
  cases node with
  | ref reference =>
    refine .bind (referencedType_mirrors h reference) fun type => .pure ?_
    exact congrArg (_, ·) (fieldTo_uncommented fieldName type).symm
  | inline schema =>
    rw [undescribedNode, unnamedMember, unnamedMember, schema.title_undescribed]
    refine .bind (h.schema _ schema) fun compiled => ?_
    rw [filter_uncommented]
    cases compiled.filter fun draft => !draft.isEmpty with
    | none => exact .pure rfl
    | some child =>
      dsimp only [Option.map_some]
      rw [MessageDraft.name_uncommented]
      exact .bind (takeIn_mirrors h parent _ child false) fun _ => .pure rfl

/-! ### Kinds of schemas -/

/-- A literal becomes the same value of an enum. -/
theorem addLiteral_mirrors (start : String) (draft : EnumDraft) (literal : Value) :
    Mirrors EnumDraft.uncommented (addLiteral job start draft literal)
      (addLiteral job.undescribed start draft.uncommented literal) := by
  have hadd (name : String) :
      draft.uncommented.addValue name = (draft.addValue name).uncommented := by
    have htaken : draft.uncommented.hasValue name = draft.hasValue name := rfl
    rw [EnumDraft.addValue, EnumDraft.addValue, htaken]
    split <;> rfl
  unfold addLiteral
  cases literalText? literal with
  | none => exact .bind .place fun _ => .bind (.warn _) fun _ => .pure rfl
  | some text =>
    refine .ite (fun _ => ?_) fun _ => .pure (hadd _)
    exact .bind .place fun _ => .bind (.warn _) fun _ => .pure (hadd _)

/-- Literals become the same enum. The description of the schema is the comment of the enum. -/
theorem enumCarrier_mirrors (name : String) (schema : Schema) (literals : List Value) :
    Mirrors MessageDraft.uncommented (enumCarrier job name schema literals)
      (enumCarrier job.undescribed name schema.undescribed literals) := by
  have hloop (draft : EnumDraft) :
      Mirrors EnumDraft.uncommented
        (literals.foldlM (addLiteral job (Identifier.enumValueName name)) draft)
        ((literals.map id).foldlM (addLiteral job.undescribed (Identifier.enumValueName name))
          draft.uncommented) :=
    .foldlM (fun draft literal => addLiteral_mirrors _ draft literal) literals draft
  unfold enumCarrier
  rw [schema.description_undescribed]
  rw [List.map_id] at hloop
  exact .bind (hloop _) fun _ => .pure rfl

/-- A variant of a union becomes the same member of the oneof group. -/
theorem addVariant_mirrors (h : engine.Mirrors other) (name label : String) (group : Int32)
    (parent : MessageDraft) (variant : Nat × SchemaNode) :
    Mirrors MessageDraft.uncommented (addVariant engine job name label group parent variant)
      (addVariant other job.undescribed name label group parent.uncommented
        (variant.1, undescribedNode variant.2)) := by
  refine .bind ((unnamedMember_mirrors h parent none _ variant.2).within _) fun added => ?_
  obtain ⟨parent, field?⟩ := added
  cases field? with
  | none => exact .pure rfl
  | some field => exact addFieldOrWarn_mirrors parent { field with oneof := some group } _

/-- The nodes without prose have the places of those with it. -/
theorem zipIdx_undescribedNodes (nodes : List SchemaNode) :
    (OpenApi.undescribedNodes nodes).zipIdx =
      nodes.zipIdx.map fun entry => (undescribedNode entry.1, entry.2) := by
  rw [OpenApi.undescribedNodes_eq_map, List.zipIdx_map]
  rfl

/-- A union becomes the same message, with the same groups. -/
theorem unionMessage_mirrors (h : engine.Mirrors other) (name : String) (schema : Schema)
    (label : String) (variants : List SchemaNode) :
    Mirrors MessageDraft.uncommented (unionMessage engine job name schema label variants)
      (unionMessage other job.undescribed name schema.undescribed label
        (OpenApi.undescribedNodes variants)) := by
  have hvariants :
      ((OpenApi.undescribedNodes variants).zipIdx.map fun variant => (variant.2, variant.1)) =
        (variants.zipIdx.map fun variant => (variant.2, variant.1)).map fun variant =>
          (variant.1, undescribedNode variant.2) := by
    rw [zipIdx_undescribedNodes, List.map_map, List.map_map]
    rfl
  unfold unionMessage
  rw [schema.description_undescribed, hvariants]
  exact .foldlM (addVariant_mirrors h name label _) _
    (({ name, comment := schema.description } : MessageDraft).addOneof (Identifier.fieldName name))

/-- What `allOf` combines comes to the same message. -/
theorem combinedMessage_mirrors (h : engine.Mirrors other) (name : String) (schema : Schema)
    (variants : List SchemaNode) (properties : List (String × SchemaNode))
    (required : List String) :
    Mirrors MessageDraft.uncommented
      (combinedMessage engine job name schema variants properties required)
      (combinedMessage other job.undescribed name schema.undescribed
        (OpenApi.undescribedNodes variants) (OpenApi.undescribedProperties properties)
        required) := by
  unfold combinedMessage
  rw [schema.description_undescribed, zipIdx_undescribedNodes]
  refine .bind ?_ fun merged => addMembers_mirrors h merged properties required
  exact .foldlM (fun draft variant => (h.absorb draft variant.1).within _) variants.zipIdx
    { name, comment := schema.description }

/-- The scalar type of a shape can be seen without prose. -/
theorem scalarType?_undescribed (shape : OpenApi.Shape SchemaNode) :
    scalarType? (OpenApi.undescribedShape shape) = scalarType? shape := by
  cases shape with
  | array items => cases items <;> rfl
  | _ => rfl

/-- A scalar at the top level is wrapped in the same message. -/
theorem scalarMessage_mirrors (name : String) (schema : Schema) :
    Mirrors MessageDraft.uncommented (scalarMessage name schema)
      (scalarMessage name schema.undescribed) := by
  unfold scalarMessage
  rw [schema.shape_undescribed, scalarType?_undescribed]
  cases scalarType? schema.shape with
  | none => exact .bind .place fun _ => .throw _
  | some type =>
    refine .pure ?_
    rw [scalarWrapper, scalarWrapper, schema.description_undescribed]
    rfl

/-- A list at the top level is wrapped in the same message. -/
theorem listWrapper_mirrors (h : engine.Mirrors other) (name : String) (schema : Schema)
    (items : Option SchemaNode) :
    Mirrors (Option.map MessageDraft.uncommented) (listWrapper engine job name schema items)
      (listWrapper other job.undescribed name schema.undescribed
        (items.map undescribedNode)) := by
  cases items with
  | none => exact .pure rfl
  | some node =>
    unfold listWrapper
    rw [schema.description_undescribed]
    let start : MessageDraft := { name, comment := schema.description, wrapper := true }
    refine .bind ((unnamedMember_mirrors h start _ _ node).within _) fun added => ?_
    obtain ⟨draft, field?⟩ := added
    cases field? with
    | none => exact .pure rfl
    | some field =>
      exact .pure (congrArg some (draft.addField_uncommented { field with repeated := true }))

/-- An object becomes the same message. -/
theorem objectMessage_mirrors (h : engine.Mirrors other) (name : String) (schema : Schema)
    (properties : List (String × SchemaNode)) (required : List String) :
    Mirrors MessageDraft.uncommented (objectMessage engine job name schema properties required)
      (objectMessage other job.undescribed name schema.undescribed
        (OpenApi.undescribedProperties properties) required) := by
  unfold objectMessage
  rw [schema.description_undescribed]
  exact addMembers_mirrors h _ properties required

/-- The order that a schema asks for is no prose, and moves the same fields. -/
theorem reorder_mirrors (draft : MessageDraft) (order : Value) :
    Mirrors MessageDraft.uncommented (reorder draft order) (reorder draft.uncommented order) := by
  unfold reorder
  cases order with
  | list items =>
    dsimp only
    split
    · exact .pure (draft.moveToFront_uncommented _)
    · exact .bind .place fun _ => .throw _
  | _ => exact .bind .place fun _ => .throw _

/-! ### Schemas and components -/

/-- Every shape is compiled alike. -/
theorem messageOfShape_mirrors (h : engine.Mirrors other) (name : String) (schema : Schema) :
    Mirrors (Option.map MessageDraft.uncommented) (messageOfShape engine job name schema)
      (messageOfShape other job.undescribed name schema.undescribed) := by
  unfold messageOfShape
  rw [schema.shape_undescribed]
  cases schema.shape with
  | map value => exact (h.node name value).within _
  | enum literals => exact (enumCarrier_mirrors name schema literals).map fun _ => rfl
  | oneOf variants => exact (unionMessage_mirrors h name schema _ variants).map fun _ => rfl
  | anyOf variants => exact (unionMessage_mirrors h name schema _ variants).map fun _ => rfl
  | allOf variants properties required =>
    exact (combinedMessage_mirrors h name schema variants properties required).map fun _ => rfl
  | array items => cases items <;> exact listWrapper_mirrors h name schema _
  | object properties required =>
    exact (objectMessage_mirrors h name schema properties required).map fun _ => rfl
  | any => exact .pure rfl
  | _ => exact (scalarMessage_mirrors name schema).map fun _ => rfl

/-- A schema takes the same name and becomes the same message. -/
theorem messageOfSchema_mirrors (h : engine.Mirrors other) (hint : String) (schema : Schema) :
    Mirrors (Option.map MessageDraft.uncommented) (messageOfSchema engine job hint schema)
      (messageOfSchema other job.undescribed hint schema.undescribed) := by
  unfold messageOfSchema
  rw [schema.title_undescribed, schema.propertyOrder_undescribed]
  refine .bind (messageOfShape_mirrors h _ schema) fun compiled => ?_
  cases compiled with
  | none => exact .pure rfl
  | some draft =>
    cases schema.propertyOrder with
    | none => exact .pure rfl
    | some order => exact (reorder_mirrors draft order).map fun _ => rfl

/-- A node becomes the same message, also through references. -/
theorem messageOfNode_mirrors (h : engine.Mirrors other) (hint : String) (node : SchemaNode) :
    Mirrors (Option.map MessageDraft.uncommented) (messageOfNode engine job hint node)
      (messageOfNode other job.undescribed hint (undescribedNode node)) := by
  cases node with
  | inline schema => exact h.schema hint schema
  | ref reference =>
    exact .bind (findSchema_mirrors reference) fun found => (h.node hint found.2).entering _

/-- The same fields are absorbed from a variant. -/
theorem absorb_mirrors (h : engine.Mirrors other) (draft : MessageDraft) (node : SchemaNode) :
    Mirrors MessageDraft.uncommented (absorb engine job draft node)
      (absorb other job.undescribed draft.uncommented (undescribedNode node)) := by
  cases node with
  | ref reference =>
    exact .bind (findSchema_mirrors reference) fun found => (h.absorb draft found.2).entering _
  | inline schema =>
    rw [undescribedNode, absorb, absorb, schema.isObject_undescribed, draft.name_uncommented]
    refine .ite (fun _ => .bind .place fun _ => .bind (.warn _) fun _ => .pure rfl) fun _ => ?_
    refine .bind (h.schema draft.name schema) fun compiled => ?_
    cases compiled with
    | none => exact .pure rfl
    | some child => exact .pure (draft.merge_uncommented child)

/-- A message or enum is declared under the same name, or refused on both sides. -/
theorem declareType_mirrors (compiled : Option MessageDraft) :
    Mirrors id (declareType compiled) (declareType (compiled.map MessageDraft.uncommented)) := by
  unfold declareType
  -- a message is empty, or the carrier of an enum, whatever its comments say
  rw [filter_uncommented]
  cases compiled.filter fun draft => !draft.isEmpty with
  | none => exact .pure rfl
  | some draft =>
    dsimp only [Option.map_some]
    rw [draft.carriedEnum?_uncommented, draft.name_uncommented]
    cases draft.carriedEnum? with
    | some enum =>
      exact .bind (.updateFile fun file => file.addEnum_uncommented enum) fun _ => .pure rfl
    | none =>
      exact .bind (.updateFile fun file => file.addMessage_uncommented draft) fun _ => .pure rfl

/-- A component is declared alike. -/
theorem declareSchema_mirrors (h : engine.Mirrors other) (key : String) (node : SchemaNode) :
    Mirrors id (declareSchema engine job key node)
      (declareSchema other job.undescribed key (undescribedNode node)) := by
  refine .bind .get fun s => ?_
  have hlookup : s.uncommented.schemas.lookup key = s.schemas.lookup key := rfl
  rw [hlookup]
  cases s.schemas.lookup key with
  | some resolved => exact .pure rfl
  | none =>
    exact .bind (((h.node _ node).under _).entering key) fun compiled =>
      .bind (declareType_mirrors compiled) fun _ => .bind (.modify fun _ => rfl) fun _ => .pure rfl

/-- The type of a shared request body is the same. -/
theorem typeOfBody_mirrors (h : engine.Mirrors other) (key : String)
    (body : Referable RequestBody) :
    Mirrors id (typeOfBody engine job key body)
      (typeOfBody other job.undescribed key (body.map RequestBody.undescribed)) := by
  refine .bind (follow_mirrors .requestBodies _ body) fun body => ?_
  have hcontent : body.undescribed.content.jsonSchema? =
      body.content.jsonSchema?.map undescribedNode := body.content.jsonSchema?_undescribed
  rw [hcontent]
  cases body.content.jsonSchema? with
  | none => exact .pure rfl
  | some node =>
    cases node with
    | ref reference => exact referencedType_mirrors h reference
    | inline schema =>
      refine .bind (h.schema _ schema) fun compiled => ?_
      cases compiled with
      | none => exact declareType_mirrors none
      | some draft =>
        -- the comment of the body is put in before or after the prose is taken out
        have hrecomment :
            { draft.uncommented with comment := draft.uncommented.comment <|> none } =
              MessageDraft.uncommented
                { draft with comment := draft.comment <|> body.description } := by
          rw [draft.comment_uncommented]
          exact draft.recomment_uncommented _
        have hdeclare := declareType_mirrors
          (some { draft with comment := draft.comment <|> body.description })
        rw [Option.map_some, ← hrecomment] at hdeclare
        exact hdeclare

/-- A shared request body is declared alike. -/
theorem declareBody_mirrors (h : engine.Mirrors other) (key : String)
    (body : Referable RequestBody) :
    Mirrors id (declareBody engine job key body)
      (declareBody other job.undescribed key (body.map RequestBody.undescribed)) := by
  refine .bind .get fun s => ?_
  have hlookup : s.uncommented.bodies.lookup key = s.bodies.lookup key := rfl
  rw [hlookup]
  cases s.bodies.lookup key with
  | some resolved => exact .pure rfl
  | none =>
    exact .bind (((typeOfBody_mirrors h key body).under _).entering _) fun _ =>
      .bind (.modify fun _ => rfl) fun _ => .pure rfl

/-- One more level keeps engines mirrored. -/
theorem Engine.Mirrors.step (h : engine.Mirrors other) :
    (Engine.step job engine).Mirrors (Engine.step job.undescribed other) where
  node := messageOfNode_mirrors h
  schema := messageOfSchema_mirrors h
  absorb := absorb_mirrors h
  component := declareSchema_mirrors h
  requestBody := declareBody_mirrors h

end

/-- An engine is mirrored by the engine over the description without prose. -/
theorem Engine.ofLevels_mirrors (job : Job) (levels : Nat) :
    (Engine.ofLevels job levels).Mirrors (Engine.ofLevels job.undescribed levels) := by
  induction levels with
  | zero => exact Engine.exhausted_mirrors
  | succ levels ih => exact ih.step

/-- The description without prose needs as many levels of calls. -/
theorem Job.engine_mirrors (job : Job) : job.engine.Mirrors job.undescribed.engine := by
  have hschemas : job.undescribed.document.components.schemas.size =
      job.document.components.schemas.size := Table.size_map _ _
  have hbodies : job.undescribed.document.components.requestBodies.size =
      job.document.components.requestBodies.size := Table.size_map _ _
  have hdeepest : job.undescribed.document.deepest = job.document.deepest :=
    job.document.deepest_undescribed
  have hlevels : job.undescribed.levels = job.levels := by
    rw [levels, levels, hschemas, hbodies, hdeepest]
  rw [Job.engine, Job.engine, hlevels]
  exact Engine.ofLevels_mirrors job job.levels

end Protoscribe.Compile
