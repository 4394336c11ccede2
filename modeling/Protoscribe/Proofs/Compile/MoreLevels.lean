import Protoscribe.Compile.Levels
import Protoscribe.Proofs.Compile.Failure

/-!
# `Protoscribe.Proofs.Compile.MoreLevels`: what more levels of calls change

An engine with few levels of calls may run out of them, and then the run ends. Nothing else depends
on the levels: a step that does not run out of them does the same with more levels (`Below`). All
functions between two levels keep that, so `Engine.ofLevels` is below every engine with more levels
(`Engine.ofLevels_below`).
-/

set_option autoImplicit false

namespace Protoscribe.Compile

open OpenApi (Referable RequestBody Schema SchemaNode)

variable {α β : Type}

/-- The error of an engine that has no level left. -/
def IsExhausted (error : CompileError) : Prop :=
  error = .exhausted

/-- One step runs out of levels, or it does what another one does. -/
def Below (step other : M α) : Prop :=
  ∀ s, Fails IsExhausted step s ∨ step s = other s

namespace Below

/-- A step does what it does. -/
theorem refl (step : M α) : Below step step :=
  fun _ => .inr rfl

/-- If neither of two steps runs out of levels, the second one comes from the same state and
result. -/
theorem bind {step other : M α} {next next' : α → M β} (hstep : Below step other)
    (hnext : ∀ a, Below (next a) (next' a)) : Below (step >>= next) (other >>= next') := by
  intro s
  rcases hstep s with hfails | heq
  · exact .inl (fails_bind.mpr (.inl hfails))
  · cases hrun : step s with
    | ok a t =>
      rcases hnext a t with hfails | heq'
      · exact .inl (fails_bind.mpr (.inr ⟨a, t, hrun, hfails⟩))
      · right
        show EStateM.bind step next s = EStateM.bind other next' s
        simp only [EStateM.bind, ← heq, hrun, heq']
    | error e t =>
      right
      show EStateM.bind step next s = EStateM.bind other next' s
      simp only [EStateM.bind, ← heq, hrun]

/-- What becomes of a result afterwards needs no level. -/
theorem map {step other : M α} (f : α → β) (h : Below step other) :
    Below (f <$> step) (f <$> other) := by
  intro s
  rcases h s with hfails | heq
  · exact .inl (fails_map.mpr hfails)
  · right
    show EStateM.map f step s = EStateM.map f other s
    simp only [EStateM.map, heq]

/-- Something is put back afterwards, however many levels there are. -/
theorem restoring {step other : M α} (restore : State → State) (h : Below step other) :
    Below (Compile.restoring restore step) (Compile.restoring restore other) := by
  intro s
  rcases h s with hfails | heq
  · exact .inl (fails_restoring.mpr hfails)
  · right
    simp only [Compile.restoring, heq]

/-- A step inside a part of the description. -/
theorem within {step other : M α} (part : String) (h : Below step other) :
    Below (Compile.within part step) (Compile.within part other) :=
  .bind (.refl _) fun _ => h.restoring _

/-- A step at another place of the description. -/
theorem under {step other : M α} (parts : List String) (h : Below step other) :
    Below (Compile.under parts step) (Compile.under parts other) :=
  .bind (.refl _) fun _ => .bind (.refl _) fun _ => h.restoring _

/-- A step inside a component. -/
theorem entering {step other : M α} (key : String) (h : Below step other) :
    Below (Compile.entering key step) (Compile.entering key other) := by
  refine .bind (.refl _) fun state => ?_
  dsimp only
  split
  · exact .refl _
  · exact .bind (.refl _) fun _ => h.restoring _

/-- A loop is compared round by round. -/
theorem foldlM {γ : Type} {round round' : α → γ → M α}
    (hround : ∀ a item, Below (round a item) (round' a item)) (items : List γ) (init : α) :
    Below (items.foldlM round init) (items.foldlM round' init) := by
  induction items generalizing init with
  | nil => exact .refl _
  | cons item rest ih =>
    rw [List.foldlM_cons, List.foldlM_cons]
    exact .bind (hround init item) ih

/-- A loop without a result is compared round by round. -/
theorem forM {γ : Type} {round round' : γ → M PUnit}
    (hround : ∀ item, Below (round item) (round' item)) (items : List γ) :
    Below (items.forM round) (items.forM round') := by
  induction items with
  | nil => exact .refl _
  | cons item rest ih => exact .bind (hround item) fun _ => ih

end Below

/-- Each call of an engine is below that of another one. -/
structure Engine.Below (engine other : Engine) : Prop where
  node : ∀ hint node, Compile.Below (engine.node hint node) (other.node hint node)
  schema : ∀ hint schema, Compile.Below (engine.schema hint schema) (other.schema hint schema)
  absorb : ∀ draft node, Compile.Below (engine.absorb draft node) (other.absorb draft node)
  component : ∀ key node, Compile.Below (engine.component key node) (other.component key node)
  requestBody : ∀ key body,
    Compile.Below (engine.requestBody key body) (other.requestBody key body)

/-- An engine without levels runs out of them at once. -/
theorem Engine.exhausted_below (engine : Engine) : Engine.exhausted.Below engine where
  node _ _ _ := .inl (fails_throw.mpr rfl)
  schema _ _ _ := .inl (fails_throw.mpr rfl)
  absorb _ _ _ := .inl (fails_throw.mpr rfl)
  component _ _ _ := .inl (fails_throw.mpr rfl)
  requestBody _ _ _ := .inl (fails_throw.mpr rfl)

section

variable {job : Job} {engine other : Engine}

/-! ### Members -/

/-- The type of a reference needs a level for its component. -/
theorem referencedType_below (h : engine.Below other) (reference : String) :
    Below (referencedType engine job reference) (referencedType other job reference) :=
  .bind (.refl _) fun _ => h.component _ _

/-- The message for a shared name needs a level for the component. -/
theorem standIn_below (h : engine.Below other) (name : String) :
    Below (standIn engine job name) (standIn other job name) := by
  unfold standIn
  dsimp only
  cases job.document.components.schemas.entries.find? fun entry =>
      job.messageName entry.1 == name with
  | some entry =>
    refine .bind (.refl _) fun inProgress => ?_
    cases inProgress with
    | true => exact .refl _
    | false => exact .bind ((h.component _ _).map _) fun _ => .refl _
  | none =>
    cases job.document.components.requestBodies.entries.find? fun entry =>
        job.messageName entry.1 == name with
    | some entry =>
      refine .bind (.refl _) fun inProgress => ?_
      cases inProgress with
      | true => exact .refl _
      | false => exact .bind ((h.requestBody _ _).map _) fun _ => .refl _
    | none => exact .refl _

/-- A name for a nested type needs a level where a component has it. -/
theorem nestingName_below (h : engine.Below other) (parent : MessageDraft) (name : String)
    (isEnum : Bool) :
    Below (nestingName engine job parent name isEnum)
      (nestingName other job parent name isEnum) := by
  refine .bind (.refl _) fun state => ?_
  split
  · exact .refl _
  · exact .bind (standIn_below h name) fun _ => .refl _

/-- Taking in a child needs the levels of its name. -/
theorem takeIn_below (h : engine.Below other) (parent : MessageDraft) (fieldName : String)
    (child : MessageDraft) (allowRepeated : Bool) :
    Below (takeIn engine job parent fieldName child allowRepeated)
      (takeIn other job parent fieldName child allowRepeated) := by
  unfold takeIn
  split
  · exact .bind (nestingName_below h _ _ _) fun _ => .refl _
  · dsimp only
    split
    · exact .refl _
    · exact .bind (nestingName_below h _ _ _) fun _ => .refl _

/-- A property needs the levels of its schema. -/
theorem addMember_below (h : engine.Below other) (parent : MessageDraft) (name : String)
    (property : SchemaNode) (required : Bool) (comment : Option String) :
    Below (addMember engine job parent name property required comment)
      (addMember other job parent name property required comment) := by
  cases property with
  | ref reference => exact .bind (referencedType_below h reference) fun _ => .refl _
  | inline schema =>
    refine .bind (h.schema _ _) fun compiled => ?_
    split
    · exact .refl _
    · exact .bind (takeIn_below h _ _ _ _) fun _ => .refl _

/-- An object needs the levels of its properties. -/
theorem addMembers_below (h : engine.Below other) (parent : MessageDraft)
    (properties : List (String × SchemaNode)) (required : List String) :
    Below (addMembers engine job parent properties required)
      (addMembers other job parent properties required) :=
  .foldlM (fun _ _ => (addMember_below h _ _ _ _ _).within _) _ _

/-- A schema without a name of its own needs levels like a property. -/
theorem unnamedMember_below (h : engine.Below other) (parent : MessageDraft)
    (fieldName : Option String) (fallback : String) (node : SchemaNode) :
    Below (unnamedMember engine job parent fieldName fallback node)
      (unnamedMember other job parent fieldName fallback node) := by
  cases node with
  | ref reference => exact .bind (referencedType_below h reference) fun _ => .refl _
  | inline schema =>
    refine .bind (h.schema _ _) fun compiled => ?_
    split
    · exact .refl _
    · exact .bind (takeIn_below h _ _ _ _) fun _ => .refl _

/-- A union needs the levels of its variants. -/
theorem unionMessage_below (h : engine.Below other) (name : String) (schema : Schema)
    (label : String) (variants : List SchemaNode) :
    Below (unionMessage engine job name schema label variants)
      (unionMessage other job name schema label variants) :=
  .foldlM (fun _ _ => .bind ((unnamedMember_below h _ _ _ _).within _) fun _ => .refl _) _ _

/-- What `allOf` combines needs the levels of its variants and properties. -/
theorem combinedMessage_below (h : engine.Below other) (name : String) (schema : Schema)
    (variants : List SchemaNode) (properties : List (String × SchemaNode))
    (required : List String) :
    Below (combinedMessage engine job name schema variants properties required)
      (combinedMessage other job name schema variants properties required) :=
  .bind (.foldlM (fun _ _ => (h.absorb _ _).within _) _ _) fun _ => addMembers_below h _ _ _

/-- A list at the top level needs the levels of its items. -/
theorem listWrapper_below (h : engine.Below other) (name : String) (schema : Schema)
    (items : Option SchemaNode) :
    Below (listWrapper engine job name schema items)
      (listWrapper other job name schema items) := by
  cases items with
  | none => exact .refl _
  | some items => exact .bind ((unnamedMember_below h _ _ _ _).within _) fun _ => .refl _

/-! ### Schemas and components -/

/-- A shape needs the levels of its parts. -/
theorem messageOfShape_below (h : engine.Below other) (name : String) (schema : Schema) :
    Below (messageOfShape engine job name schema) (messageOfShape other job name schema) := by
  unfold messageOfShape
  cases schema.shape with
  | map value => exact (h.node _ _).within _
  | oneOf variants => exact (unionMessage_below h _ _ _ _).map _
  | anyOf variants => exact (unionMessage_below h _ _ _ _).map _
  | allOf variants properties required => exact (combinedMessage_below h _ _ _ _ _).map _
  | array items => exact listWrapper_below h _ _ _
  | object properties required => exact (addMembers_below h _ _ _).map _
  | _ => exact .refl _

/-- A schema needs the levels of its shape. The order of its fields needs none. -/
theorem messageOfSchema_below (h : engine.Below other) (hint : String) (schema : Schema) :
    Below (messageOfSchema engine job hint schema) (messageOfSchema other job hint schema) :=
  .bind (messageOfShape_below h _ _) fun _ => .refl _

/-- A node needs a level for the schema that its references lead to. -/
theorem messageOfNode_below (h : engine.Below other) (hint : String) (node : SchemaNode) :
    Below (messageOfNode engine job hint node) (messageOfNode other job hint node) := by
  cases node with
  | inline schema => exact h.schema _ _
  | ref reference => exact .bind (.refl _) fun _ => (h.node _ _).entering _

/-- Absorbing a variant needs a level for what its references lead to. -/
theorem absorb_below (h : engine.Below other) (draft : MessageDraft) (node : SchemaNode) :
    Below (absorb engine job draft node) (absorb other job draft node) := by
  cases node with
  | inline schema =>
    show Below (if !schema.isObject then _ else _) (if !schema.isObject then _ else _)
    split
    · exact .refl _
    · exact .bind (h.schema _ _) fun _ => .refl _
  | ref reference => exact .bind (.refl _) fun _ => (h.absorb _ _).entering _

/-- A component needs a level for its schema. -/
theorem declareSchema_below (h : engine.Below other) (key : String) (node : SchemaNode) :
    Below (declareSchema engine job key node) (declareSchema other job key node) := by
  refine .bind (.refl _) fun state => ?_
  split
  · exact .refl _
  · exact .bind (((h.node _ _).under _).entering _) fun _ => .refl _

/-- The type of a shared request body needs a level for its schema. -/
theorem typeOfBody_below (h : engine.Below other) (key : String) (body : Referable RequestBody) :
    Below (typeOfBody engine job key body) (typeOfBody other job key body) := by
  refine .bind (.refl _) fun content => ?_
  split
  · exact .refl _
  · exact referencedType_below h _
  · exact .bind (h.schema _ _) fun _ => .refl _

/-- A shared request body needs the levels of its type. -/
theorem declareBody_below (h : engine.Below other) (key : String) (body : Referable RequestBody) :
    Below (declareBody engine job key body) (declareBody other job key body) := by
  refine .bind (.refl _) fun state => ?_
  split
  · exact .refl _
  · exact .bind (((typeOfBody_below h _ _).under _).entering _) fun _ => .refl _

/-- One more level keeps engines in order. -/
theorem Engine.Below.step (h : engine.Below other) :
    (Engine.step job engine).Below (Engine.step job other) where
  node := messageOfNode_below h
  schema := messageOfSchema_below h
  absorb := absorb_below h
  component := declareSchema_below h
  requestBody := declareBody_below h

end

/-- What an engine does without running out of levels, it does with more levels too. -/
theorem Engine.ofLevels_below (job : Job) {levels more : Nat} (h : levels ≤ more) :
    (Engine.ofLevels job levels).Below (Engine.ofLevels job more) := by
  induction levels generalizing more with
  | zero => exact Engine.exhausted_below _
  | succ levels ih =>
    obtain ⟨more, rfl⟩ := Nat.exists_eq_add_of_lt h
    exact (ih (by omega)).step

end Protoscribe.Compile
