import Protoscribe.Proofs.Compile.Interruption

/-!
# `Protoscribe.Proofs.Compile.Tidy`: what a step puts back

While it runs, a step goes to other places of the description and enters components. When it is
done, it is back at the place where it started, inside the components that it started in, and it has
taken no warning back (`Back`). That is so from every state, and also for a step that fails: what
changes the surrounding of an inner step restores it in both cases (`Tidy.within`, `Tidy.under`,
`Tidy.entering`). So all functions between two levels of calls are tidy over an engine that is
(`Engine.Tidy.step`), and the engines of all levels are (`Engine.ofLevels_tidy`).
-/

set_option autoImplicit false

namespace Protoscribe.Compile

open OpenApi (Referable RequestBody Schema SchemaNode Section)

variable {α β : Type}

/-- The second state is at the place of the first one, inside the same components, and has all its
warnings. -/
structure Back (s t : State) : Prop where
  scope : t.scope = s.scope
  chain : t.chain = s.chain
  warnings : s.warnings <+: t.warnings

namespace Back

variable {s t u : State}

/-- A state is back at itself. -/
theorem refl (s : State) : Back s s :=
  ⟨rfl, rfl, List.prefix_rfl⟩

/-- Coming back twice is coming back. -/
theorem trans (hst : Back s t) (htu : Back t u) : Back s u :=
  ⟨htu.scope.trans hst.scope, htu.chain.trans hst.chain, hst.warnings.trans htu.warnings⟩

end Back

/-- The step comes back from every state, whether it succeeds or fails. -/
def Tidy (step : M α) : Prop :=
  ∀ s, Back s (stateAfter step s)

namespace Tidy

variable {step : M α}

/-- A step that succeeds comes back. -/
theorem back {a : α} {s t : State} (h : Tidy step) (hrun : step s = .ok a t) : Back s t :=
  stateAfter_of_ok hrun ▸ h s

/-- One tidy step after the other. When the first one fails, it has come back already. -/
theorem bind {next : α → M β} (h : Tidy step) (hnext : ∀ a, Tidy (next a)) :
    Tidy (step >>= next) := by
  intro s
  cases hrun : step s with
  | ok a t =>
    rw [stateAfter_bind_of_ok hrun]
    exact (h.back hrun).trans (hnext a t)
  | error error t =>
    rw [stateAfter_bind_of_error hrun, ← stateAfter_of_error hrun]
    exact h s

/-- A result that is given back at once leaves the state as it is. -/
theorem pure (a : α) : Tidy (Pure.pure a : M α) :=
  fun s => .refl s

/-- An error leaves the state as it is. -/
theorem throw (error : CompileError) : Tidy (MonadExcept.throw error : M α) :=
  fun s => .refl s

/-- Looking at the state leaves it as it is. -/
theorem read : Tidy (get : M State) :=
  fun s => .refl s

/-- What becomes of a result afterwards does not touch the state. -/
theorem map (f : α → β) (h : Tidy step) : Tidy (f <$> step) := by
  rw [map_eq_pure_bind]
  exact h.bind fun a => .pure (f a)

/-- A choice between tidy steps. -/
theorem ite {condition : Prop} [Decidable condition] {other : M α} (h : Tidy step)
    (hother : Tidy other) : Tidy (if condition then step else other) := by
  split
  · exact h
  · exact hother

/-- Reading the place of the run leaves the state as it is. -/
theorem place : Tidy Compile.place :=
  .bind .read fun _ => .pure _

/-- A change that leads back. -/
theorem changing {change : State → State} (h : ∀ s, Back s (change s)) :
    Tidy (modify change : M PUnit) :=
  h

/-- A warning comes behind those that are there. -/
theorem warn (warning : Warning) : Tidy (Compile.warn warning) :=
  .changing fun _ => ⟨rfl, rfl, List.prefix_append _ _⟩

/-- The file has nothing to do with the place, the chain and the warnings. -/
theorem updateFile (change : FileDraft → FileDraft) : Tidy (Compile.updateFile change) :=
  .changing fun _ => ⟨rfl, rfl, List.prefix_rfl⟩

/-- A reference to nothing leaves the state as it is. -/
theorem dangling (reference : String) : Tidy (Compile.dangling reference : M α) :=
  .bind .place fun _ => .throw _

/-! ### Steps in a changed surrounding -/

/-- What comes back to a changed surrounding comes back once that is restored. -/
theorem surrounding (h : Tidy step) {change restore : State → State} {s : State}
    (hback : ∀ t, Back (change s) t → Back s (restore t)) :
    Back s (stateAfter (do modify change; restoring restore step) s) := by
  have hchange : (modify change : M PUnit) s = .ok ⟨⟩ (change s) := rfl
  rw [stateAfter_bind_of_ok hchange, stateAfter_restoring]
  exact hback _ (h (change s))

/-- The part of the description is left again, also when the step fails. -/
theorem within (part : String) (h : Tidy step) : Tidy (Compile.within part step) := by
  intro s
  refine h.surrounding fun t hback => ⟨?_, hback.chain, hback.warnings⟩
  simp [hback.scope]

/-- The run is back at the place in front of the step, also when the step fails. -/
theorem under (parts : List String) (h : Tidy step) : Tidy (Compile.under parts step) := by
  intro s
  have hread : (get : M State) s = .ok s s := rfl
  rw [Compile.under, stateAfter_bind_of_ok hread]
  exact h.surrounding fun t hback => ⟨rfl, hback.chain, hback.warnings⟩

/-- The component is left again, also when the step fails. -/
theorem entering (key : String) (h : Tidy step) : Tidy (Compile.entering key step) := by
  have hinside : Tidy (do
      modify fun state => { state with chain := state.chain ++ [key] }
      Compile.restoring (fun state => { state with chain := state.chain.dropLast }) step) := by
    intro s
    refine h.surrounding fun t hback => ⟨hback.scope, ?_, hback.warnings⟩
    simp [hback.chain]
  refine .bind .read fun state => ?_
  dsimp only
  split
  · exact .bind (.throw _) fun _ => hinside
  · exact hinside

/-! ### Loops -/

/-- A loop of tidy rounds is tidy. -/
theorem foldlM {γ : Type} {round : α → γ → M α} {items : List γ}
    (hround : ∀ a item, Tidy (round a item)) (init : α) : Tidy (items.foldlM round init) := by
  induction items generalizing init with
  | nil => exact .pure init
  | cons item rest ih =>
    rw [List.foldlM_cons]
    exact .bind (hround init item) ih

end Tidy

/-! ### Engines -/

/-- Every call of an engine is tidy. -/
structure Engine.Tidy (engine : Engine) : Prop where
  node : ∀ hint node, Compile.Tidy (engine.node hint node)
  schema : ∀ hint schema, Compile.Tidy (engine.schema hint schema)
  absorb : ∀ draft node, Compile.Tidy (engine.absorb draft node)
  component : ∀ key node, Compile.Tidy (engine.component key node)
  requestBody : ∀ key body, Compile.Tidy (engine.requestBody key body)

/-- Where no calls are left, every call fails on the spot. -/
theorem Engine.Tidy.exhausted : Engine.exhausted.Tidy where
  node _ _ := .throw _
  schema _ _ := .throw _
  absorb _ _ := .throw _
  component _ _ := .throw _
  requestBody _ _ := .throw _

section

variable {job : Job} {engine : Engine}

/-! ### Steps that make no call -/

/-- Literals become an enum in place. Warnings about them are added. -/
theorem enumCarrier_tidy (job : Job) (name : String) (schema : Schema) (literals : List Value) :
    Tidy (enumCarrier job name schema literals) := by
  refine .bind (.foldlM (fun draft literal => ?_) _) fun _ => .pure _
  unfold addLiteral
  split
  · exact .bind .place fun _ => .bind (.warn _) fun _ => .pure _
  · exact .ite (.bind .place fun _ => .bind (.warn _) fun _ => .pure _) (.pure _)

/-- A scalar at the top level is wrapped in place. -/
theorem scalarMessage_tidy (name : String) (schema : Schema) :
    Tidy (scalarMessage name schema) := by
  unfold scalarMessage
  split
  · exact .pure _
  · exact .bind .place fun _ => .throw _

/-- A field that is refused adds a warning. -/
theorem addFieldOrWarn_tidy (parent : MessageDraft) (field : FieldDraft)
    (warning : String → String → Warning) : Tidy (addFieldOrWarn parent field warning) := by
  unfold addFieldOrWarn
  split
  · exact .bind .place fun _ => .bind (.warn _) fun _ => .pure _
  · exact .pure _

/-- Marking a field as optional touches imports at most. -/
theorem markPresence_tidy (job : Job) (field : FieldDraft) (schema : Schema) (required : Bool) :
    Tidy (markPresence job field schema required) := by
  unfold markPresence
  split
  · exact .pure _
  · dsimp only
    split
    · exact .bind (.updateFile _) fun _ => .pure _
    · exact .pure _

/-- Declaring a type touches the file and adds a warning at most. -/
theorem declareType_tidy (compiled : Option MessageDraft) : Tidy (declareType compiled) := by
  unfold declareType
  split
  · exact .pure _
  · split <;> exact .bind (.updateFile _) fun _ => .pure _

/-- Putting fields in order leaves the state as it is. -/
theorem reorder_tidy (draft : MessageDraft) (order : Value) : Tidy (reorder draft order) := by
  unfold reorder
  split
  · split
    · exact .pure _
    · exact .bind .place fun _ => .throw _
  · exact .bind .place fun _ => .throw _

/-- Looking for a component leaves the state as it is. -/
theorem findSchema_tidy (job : Job) (reference : String) : Tidy (findSchema job reference) := by
  unfold findSchema
  split
  · exact .dangling _
  · split
    · exact .dangling _
    · exact .pure _

/-- Following references leaves the state as it is. -/
theorem follow_tidy (part : Section) (table : Table (Referable α)) (node : Referable α) :
    Tidy (follow part table node) := by
  unfold follow
  -- by induction on the references that may still be followed
  generalize table.size + 1 = fuel
  generalize ([] : List String) = seen
  induction fuel generalizing seen node with
  | zero =>
    cases node with
    | inline item => exact .pure _
    | ref reference => exact .throw _
  | succ fuel ih =>
    cases node with
    | inline item => exact .pure _
    | ref reference =>
      unfold followFrom
      split
      · exact .dangling _
      · split
        · exact .throw _
        · split
          · exact .dangling _
          · exact ih _ _

/-! ### Members -/

/-- The component of a reference is left again. -/
theorem referencedType_tidy (h : engine.Tidy) (job : Job) (reference : String) :
    Tidy (referencedType engine job reference) :=
  .bind (findSchema_tidy job reference) fun _ => h.component _ _

/-- The component of a shared name is left again. -/
theorem standIn_tidy (h : engine.Tidy) (job : Job) (name : String) :
    Tidy (standIn engine job name) := by
  unfold standIn
  dsimp only
  split
  · exact .bind (.bind .read fun _ => .pure _) fun _ => .ite (.bind (.pure _) fun _ => .pure _)
      (.bind ((h.component _ _).map _) fun _ => .pure _)
  · exact .bind (.bind .read fun _ => .pure _) fun _ => .ite (.bind (.pure _) fun _ => .pure _)
      (.bind ((h.requestBody _ _).map _) fun _ => .pure _)
  · exact .bind (.pure _) fun _ => .pure _

/-- A component that is called for its name is left again. -/
theorem nestingName_tidy (h : engine.Tidy) (job : Job) (parent : MessageDraft) (name : String)
    (isEnum : Bool) : Tidy (nestingName engine job parent name isEnum) := by
  refine .bind .read fun state => ?_
  split
  · exact .pure _
  · refine .bind (standIn_tidy h job name) fun stand => ?_
    cases stand with
    | none => exact .pure _
    | some resolved =>
      refine .ite (.pure _) ?_
      exact .bind .read fun _ => .bind .place fun _ => .bind (.warn _) fun _ => .pure _

/-- Taking in a child comes back. -/
theorem takeIn_tidy (h : engine.Tidy) (job : Job) (parent : MessageDraft) (fieldName : String)
    (child : MessageDraft) (allowRepeated : Bool) :
    Tidy (takeIn engine job parent fieldName child allowRepeated) := by
  unfold takeIn
  split
  · refine .bind (nestingName_tidy h _ _ _ _) fun nested => ?_
    split <;> exact .pure _
  · dsimp only
    split
    · exact .pure _
    · refine .bind (nestingName_tidy h _ _ _ _) fun nested => ?_
      split <;> exact .pure _

/-- A property comes back from its schema. -/
theorem addMember_tidy (h : engine.Tidy) (job : Job) (parent : MessageDraft) (name : String)
    (property : SchemaNode) (required : Bool) (comment : Option String) :
    Tidy (addMember engine job parent name property required comment) := by
  cases property with
  | ref reference =>
    refine .bind (referencedType_tidy h job reference) fun _ => ?_
    split
    · exact .pure _
    · exact addFieldOrWarn_tidy _ _ _
  | inline schema =>
    refine .bind (h.schema _ _) fun compiled => ?_
    split
    · exact .pure _
    · exact .bind (takeIn_tidy h _ _ _ _ _) fun _ =>
        .bind (markPresence_tidy _ _ _ _) fun _ => addFieldOrWarn_tidy _ _ _

/-- Every property starts where the one before did. -/
theorem addMembers_tidy (h : engine.Tidy) (job : Job) (parent : MessageDraft)
    (properties : List (String × SchemaNode)) (required : List String) :
    Tidy (addMembers engine job parent properties required) :=
  .foldlM (fun _ _ => (addMember_tidy h _ _ _ _ _ _).within _) _

/-- A schema without a name of its own comes back. -/
theorem unnamedMember_tidy (h : engine.Tidy) (job : Job) (parent : MessageDraft)
    (fieldName : Option String) (fallback : String) (node : SchemaNode) :
    Tidy (unnamedMember engine job parent fieldName fallback node) := by
  cases node with
  | ref reference => exact .bind (referencedType_tidy h job reference) fun _ => .pure _
  | inline schema =>
    refine .bind (h.schema _ _) fun compiled => ?_
    split
    · exact .pure _
    · exact .bind (takeIn_tidy h _ _ _ _ _) fun _ => .pure _

/-- Every variant of a union starts where the one before did. -/
theorem unionMessage_tidy (h : engine.Tidy) (job : Job) (name : String) (schema : Schema)
    (label : String) (variants : List SchemaNode) :
    Tidy (unionMessage engine job name schema label variants) := by
  refine .foldlM (fun parent variant => ?_) _
  refine .bind ((unnamedMember_tidy h _ _ _ _ _).within _) fun given => ?_
  obtain ⟨grown, field?⟩ := given
  cases field? with
  | none => exact .pure _
  | some field => exact addFieldOrWarn_tidy _ _ _

/-- So do the variants and properties that `allOf` combines. -/
theorem combinedMessage_tidy (h : engine.Tidy) (job : Job) (name : String) (schema : Schema)
    (variants : List SchemaNode) (properties : List (String × SchemaNode))
    (required : List String) :
    Tidy (combinedMessage engine job name schema variants properties required) :=
  .bind (.foldlM (fun _ _ => (h.absorb _ _).within _) _) fun _ => addMembers_tidy h _ _ _ _

/-- A list at the top level comes back from its items. -/
theorem listWrapper_tidy (h : engine.Tidy) (job : Job) (name : String) (schema : Schema)
    (items : Option SchemaNode) : Tidy (listWrapper engine job name schema items) := by
  cases items with
  | none => exact .pure _
  | some node =>
    refine .bind ((unnamedMember_tidy h _ _ _ _ _).within _) fun given => ?_
    obtain ⟨grown, field?⟩ := given
    cases field? <;> exact .pure _

/-! ### Schemas -/

/-- Every shape comes back. -/
theorem messageOfShape_tidy (h : engine.Tidy) (job : Job) (name : String) (schema : Schema) :
    Tidy (messageOfShape engine job name schema) := by
  unfold messageOfShape
  cases schema.shape with
  | map value => exact (h.node _ _).within _
  | enum literals => exact (enumCarrier_tidy _ _ _ _).map _
  | oneOf variants => exact (unionMessage_tidy h _ _ _ _ _).map _
  | anyOf variants => exact (unionMessage_tidy h _ _ _ _ _).map _
  | allOf variants properties required => exact (combinedMessage_tidy h _ _ _ _ _ _).map _
  | array items => exact listWrapper_tidy h _ _ _ _
  | object properties required => exact (addMembers_tidy h _ _ _ _).map _
  | any => exact .pure _
  | _ => exact (scalarMessage_tidy _ _).map _

/-- A schema comes back, whatever its shape and its order are. -/
theorem messageOfSchema_tidy (h : engine.Tidy) (job : Job) (hint : String) (schema : Schema) :
    Tidy (messageOfSchema engine job hint schema) := by
  refine .bind (messageOfShape_tidy h _ _ _) fun shaped => ?_
  split
  · exact (reorder_tidy _ _).map _
  · exact .pure _

/-- A node comes back from where its references lead. -/
theorem messageOfNode_tidy (h : engine.Tidy) (job : Job) (hint : String) (node : SchemaNode) :
    Tidy (messageOfNode engine job hint node) := by
  cases node with
  | inline schema => exact h.schema _ _
  | ref reference =>
    exact .bind (findSchema_tidy job reference) fun _ => (h.node _ _).entering _

/-- A variant that is absorbed comes back. -/
theorem absorb_tidy (h : engine.Tidy) (job : Job) (draft : MessageDraft) (node : SchemaNode) :
    Tidy (absorb engine job draft node) := by
  cases node with
  | inline schema =>
    refine .ite (.bind .place fun _ => .bind (.warn _) fun _ => .pure _) ?_
    refine .bind (h.schema _ _) fun compiled => ?_
    split <;> exact .pure _
  | ref reference =>
    exact .bind (findSchema_tidy job reference) fun _ => (h.absorb _ _).entering _

/-! ### Components -/

/-- Declaring a component comes back. -/
theorem declareSchema_tidy (h : engine.Tidy) (job : Job) (key : String) (node : SchemaNode) :
    Tidy (declareSchema engine job key node) := by
  refine .bind .read fun state => ?_
  split
  · exact .pure _
  · exact .bind (((h.node _ _).under _).entering _) fun _ => .bind (declareType_tidy _) fun _ =>
      .bind (.changing fun _ => ⟨rfl, rfl, List.prefix_rfl⟩) fun _ => .pure _

/-- The type of a shared request body comes back. -/
theorem typeOfBody_tidy (h : engine.Tidy) (job : Job) (key : String)
    (body : Referable RequestBody) :
    Tidy (typeOfBody engine job key body) := by
  refine .bind (follow_tidy _ _ _) fun content => ?_
  split
  · exact .pure _
  · exact referencedType_tidy h _ _
  · exact .bind (h.schema _ _) fun _ => declareType_tidy _

/-- Declaring a shared request body comes back. -/
theorem declareBody_tidy (h : engine.Tidy) (job : Job) (key : String)
    (body : Referable RequestBody) : Tidy (declareBody engine job key body) := by
  refine .bind .read fun state => ?_
  split
  · exact .pure _
  · exact .bind (((typeOfBody_tidy h _ _ _).under _).entering _) fun _ =>
      .bind (.changing fun _ => ⟨rfl, rfl, List.prefix_rfl⟩) fun _ => .pure _

/-- One more level keeps an engine tidy. -/
theorem Engine.Tidy.step (h : engine.Tidy) (job : Job) : (Engine.step job engine).Tidy where
  node := messageOfNode_tidy h job
  schema := messageOfSchema_tidy h job
  absorb := absorb_tidy h job
  component := declareSchema_tidy h job
  requestBody := declareBody_tidy h job

end

/-- All engines are tidy. -/
theorem Engine.ofLevels_tidy (job : Job) (levels : Nat) : (Engine.ofLevels job levels).Tidy := by
  induction levels with
  | zero => exact .exhausted
  | succ levels ih => exact ih.step job

end Protoscribe.Compile
