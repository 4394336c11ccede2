import Protoscribe.Proofs.Compile.Roots

/-!
# `Protoscribe.Proofs.Compile.Interruption`: runs that are broken off

A run may fail, or it may be stopped at one of its calls. To say what holds of the states on its
way, one compares it with runs that are broken off earlier. A `Progress` says what holds of a state,
and when one state is as far as another. It looks at the file and at what the components became, and
not at the warnings or the place of the run.

`Interrupts` relates a step to the same step over an engine that breaks off some of the calls. What
is broken off leaves a state that is farther than the one at the start, and from which the full step
only goes on. So the relation also says what a single step does when it fails.

All functions between two levels keep the relation (`Engine.Interrupts.step`). What becomes of a
component depends on the progress that is measured, so the two calls for components are left open.
-/

set_option autoImplicit false

namespace Protoscribe.Compile

open OpenApi (Referable RequestBody Schema SchemaNode Section)

variable {α β : Type}

/-! ### States behind a step -/

/-- The state that a step leaves, whether it succeeds or fails. -/
def stateAfter (step : M α) (s : State) : State :=
  match step s with
  | .ok _ t => t
  | .error _ t => t

section

variable {step : M α} {next : α → M β} {s t : State} {a : α} {error : CompileError}

/-- The state behind a step that succeeds. -/
theorem stateAfter_of_ok (h : step s = .ok a t) : stateAfter step s = t := by
  rw [stateAfter, h]

/-- The state behind a step that fails. -/
theorem stateAfter_of_error (h : step s = .error error t) : stateAfter step s = t := by
  rw [stateAfter, h]

/-- After a step that succeeds, the next one runs. -/
theorem bind_of_ok (h : step s = .ok a t) : (step >>= next) s = next a t := by
  show EStateM.bind step next s = next a t
  rw [EStateM.bind, h]

/-- After a step that fails, nothing else runs. -/
theorem bind_of_error (h : step s = .error error t) : (step >>= next) s = .error error t := by
  show EStateM.bind step next s = .error error t
  rw [EStateM.bind, h]

/-- After a step that succeeds, the next one leaves the state. -/
theorem stateAfter_bind_of_ok (h : step s = .ok a t) :
    stateAfter (step >>= next) s = stateAfter (next a) t := by
  rw [stateAfter, stateAfter, bind_of_ok h]

/-- After a step that fails, its state is left. -/
theorem stateAfter_bind_of_error (h : step s = .error error t) :
    stateAfter (step >>= next) s = t :=
  stateAfter_of_error (bind_of_error h)

/-- What is put back afterwards is put back even if the step fails. -/
theorem stateAfter_restoring (restore : State → State) :
    stateAfter (restoring restore step) s = restore (stateAfter step s) := by
  simp only [stateAfter, restoring]
  cases step s <;> rfl

end

/-- Two states that differ in the warnings and in the place of the run at most. -/
structure SameTables (s t : State) : Prop where
  file : t.file = s.file
  schemas : t.schemas = s.schemas
  bodies : t.bodies = s.bodies

/-- It does not matter which of two states comes first. -/
theorem SameTables.symm {s t : State} (h : SameTables s t) : SameTables t s :=
  ⟨h.file.symm, h.schemas.symm, h.bodies.symm⟩

/-! ### Progress -/

/-- How far a run has come. Imports may be added at any time. -/
structure Progress where
  /-- What holds of the states of a run. -/
  Valid : State → Prop
  /-- The second state is as far as the first one, or farther. -/
  Le : State → State → Prop
  valid_of_le : ∀ {s t}, Le s t → Valid t
  trans : ∀ {s t u}, Le s t → Le t u → Le s u
  le_of_same : ∀ {s t}, Valid s → SameTables s t → Le s t
  le_addDependency : ∀ {s} name, Valid s → Le s { s with file := s.file.addDependency name }

/-- In the state, the step `cut` does what `full` does, or it is broken off on the way. -/
structure InterruptsAt (progress : Progress) (cut full : M α) (s : State) : Prop where
  advances : progress.Le s (stateAfter cut s)
  agrees : cut s = full s ∨
    ∃ error t, cut s = .error error t ∧ progress.Le t (stateAfter full s)

/-- The step `cut` is the step `full`, or is broken off, wherever a run may come by. -/
structure Interrupts (progress : Progress) (cut full : M α) : Prop where
  inState : ∀ {s}, progress.Valid s → InterruptsAt progress cut full s

namespace InterruptsAt

variable {progress : Progress} {cut full : M α} {s t : State}

/-- A step that is not broken off only has to lead farther. -/
theorem of_advances {step : M α} (h : progress.Le s (stateAfter step s)) :
    InterruptsAt progress step step s :=
  ⟨h, .inl rfl⟩

/-- Only what the steps do in the state counts. -/
theorem congr {cut' full' : M α} (h : InterruptsAt progress cut full s) (hcut : cut' s = cut s)
    (hfull : full' s = full s) : InterruptsAt progress cut' full' s := by
  obtain ⟨hadvances, hagrees⟩ := h
  constructor
  · rwa [stateAfter, hcut]
  · rwa [hcut, hfull, stateAfter, hfull]

/-- A state that is reached is at least as far as the start. -/
theorem le_of_ok {a : α} (h : InterruptsAt progress cut full s) (hrun : cut s = .ok a t) :
    progress.Le s t :=
  stateAfter_of_ok hrun ▸ h.advances

/-- A state in which the run was broken off is at least as far as the start. -/
theorem le_of_error {error : CompileError} (h : InterruptsAt progress cut full s)
    (hrun : cut s = .error error t) : progress.Le s t :=
  stateAfter_of_error hrun ▸ h.advances

/-- What is not broken off is what the full step does. -/
theorem full_eq_ok {a : α} (h : InterruptsAt progress cut full s) (hrun : cut s = .ok a t) :
    full s = .ok a t := by
  rcases h.agrees with heq | ⟨_, _, herror, -⟩
  · exact heq.symm.trans hrun
  · cases hrun.symm.trans herror

/-- A step that is never broken off leads farther too. -/
theorem whole (h : InterruptsAt progress cut full s) : InterruptsAt progress full full s := by
  refine of_advances ?_
  have hcut := h.advances
  rcases h.agrees with heq | ⟨error, t, herror, hle⟩
  · rwa [stateAfter, heq] at hcut
  · rw [stateAfter_of_error herror] at hcut
    exact progress.trans hcut hle

/-- A sequence is broken off in one of its two steps. -/
theorem bind {cutNext next : α → M β} (h : InterruptsAt progress cut full s)
    (hnext : ∀ {a t}, full s = .ok a t → progress.Le s t →
      InterruptsAt progress (cutNext a) (next a) t) :
    InterruptsAt progress (cut >>= cutNext) (full >>= next) s := by
  constructor
  · cases hrun : cut s with
    | ok a t =>
      have hle := h.le_of_ok hrun
      rw [stateAfter_bind_of_ok hrun]
      exact progress.trans hle (hnext (h.full_eq_ok hrun) hle).advances
    | error error t =>
      rw [stateAfter_bind_of_error hrun]
      exact h.le_of_error hrun
  · rcases h.agrees with heq | ⟨error, t, herror, hle⟩
    · cases hrun : cut s with
      | ok a t =>
        have hfull : full s = .ok a t := heq.symm.trans hrun
        rw [bind_of_ok hrun, bind_of_ok hfull, stateAfter_bind_of_ok hfull]
        exact (hnext hfull (h.le_of_ok hrun)).agrees
      | error error t =>
        rw [bind_of_error hrun, bind_of_error (heq.symm.trans hrun)]
        exact .inl rfl
    · refine .inr ⟨error, t, bind_of_error herror, ?_⟩
      -- the full step goes on from where the other one was broken off
      cases hfull : full s with
      | ok a u =>
        rw [stateAfter_of_ok hfull] at hle
        rw [stateAfter_bind_of_ok hfull]
        exact progress.trans hle (hnext hfull (h.whole.le_of_ok hfull)).whole.advances
      | error error u =>
        rw [stateAfter_of_error hfull] at hle
        rwa [stateAfter_bind_of_error hfull]

end InterruptsAt

namespace Interrupts

variable {progress : Progress} {cut full : M α}

/-- A step that leaves the tables as they are interrupts nothing. -/
theorem of_same {step : M α} (h : ∀ s, SameTables s (stateAfter step s)) :
    Interrupts progress step step :=
  ⟨fun hs => .of_advances (progress.le_of_same hs (h _))⟩

/-- The second step only counts for the results that the first one may have. -/
theorem bind_of_result {cutNext next : α → M β} (h : Interrupts progress cut full)
    (hnext : ∀ {a s t}, full s = .ok a t → Interrupts progress (cutNext a) (next a)) :
    Interrupts progress (cut >>= cutNext) (full >>= next) :=
  ⟨fun hs => (h.inState hs).bind fun hrun hle =>
    (hnext hrun).inState (progress.valid_of_le hle)⟩

/-- One step after the other may be broken off in either of them. -/
theorem bind {cutNext next : α → M β} (h : Interrupts progress cut full)
    (hnext : ∀ a, Interrupts progress (cutNext a) (next a)) :
    Interrupts progress (cut >>= cutNext) (full >>= next) :=
  h.bind_of_result fun _ => hnext _

/-- Two runs that take the same branch are compared branch by branch. -/
theorem ite {condition : Prop} [Decidable condition] {cutElse fullElse : M α}
    (h : Interrupts progress cut full) (helse : Interrupts progress cutElse fullElse) :
    Interrupts progress (if condition then cut else cutElse)
      (if condition then full else fullElse) := by
  split
  · exact h
  · exact helse

/-! ### Single steps -/

/-- A result that is given back at once cannot be broken off. -/
theorem pure (a : α) : Interrupts progress (Pure.pure a : M α) (Pure.pure a) :=
  of_same fun _ => ⟨rfl, rfl, rfl⟩

/-- An error leaves the state as it was. -/
theorem throw (error : CompileError) :
    Interrupts progress (MonadExcept.throw error : M α) (MonadExcept.throw error) :=
  of_same fun _ => ⟨rfl, rfl, rfl⟩

/-- Looking at the state changes nothing. -/
theorem read : Interrupts progress (get : M State) get :=
  of_same fun _ => ⟨rfl, rfl, rfl⟩

/-- What becomes of a result afterwards changes nothing. -/
theorem map (f : α → β) (h : Interrupts progress cut full) :
    Interrupts progress (f <$> cut) (f <$> full) := by
  rw [map_eq_pure_bind, map_eq_pure_bind]
  exact h.bind fun a => .pure (f a)

/-- Reading the place of the run changes nothing. -/
theorem place : Interrupts progress Compile.place Compile.place :=
  .bind .read fun _ => .pure _

/-- A warning is not measured. -/
theorem warn (warning : Warning) :
    Interrupts progress (Compile.warn warning) (Compile.warn warning) :=
  of_same fun _ => ⟨rfl, rfl, rfl⟩

/-- A dependency that is added takes the run on. -/
theorem addDependency (name : String) :
    Interrupts progress (updateFile (·.addDependency name)) (updateFile (·.addDependency name)) :=
  ⟨fun hs => .of_advances (progress.le_addDependency name hs)⟩

/-- A reference to nothing leaves the state as it was. -/
theorem dangling (reference : String) :
    Interrupts progress (Compile.dangling reference : M α) (Compile.dangling reference) :=
  .bind .place fun _ => .throw _

/-! ### Steps in a changed surrounding -/

/-- A change of the surrounding alone is not measured. -/
theorem surrounding {change : State → State} (h : ∀ s, SameTables s (change s)) :
    Interrupts progress (modify change) (modify change) :=
  of_same h

/-- Putting the surrounding back changes nothing that is measured, also where the step was broken
off. -/
theorem restoring {restore : State → State} (hrestore : ∀ s, SameTables s (restore s))
    (h : Interrupts progress cut full) :
    Interrupts progress (Compile.restoring restore cut) (Compile.restoring restore full) := by
  have hahead : ∀ {s}, progress.Valid s → progress.Le s (restore s) := fun hs =>
    progress.le_of_same hs (hrestore _)
  refine ⟨fun {s} hs => ⟨?_, ?_⟩⟩
  · have hle := (h.inState hs).advances
    rw [stateAfter_restoring]
    exact progress.trans hle (hahead (progress.valid_of_le hle))
  · rcases (h.inState hs).agrees with heq | ⟨error, t, herror, hle⟩
    · left
      unfold Compile.restoring
      rw [heq]
    · refine .inr ⟨error, restore t, by rw [Compile.restoring, herror], ?_⟩
      have ht := progress.valid_of_le ((h.inState hs).le_of_error herror)
      have hbehind : progress.Le (restore t) t :=
        progress.le_of_same (progress.valid_of_le (hahead ht)) (hrestore t).symm
      rw [stateAfter_restoring]
      exact progress.trans hbehind
        (progress.trans hle (hahead (progress.valid_of_le hle)))

/-- A step inside a part of the description. -/
theorem within (part : String) (h : Interrupts progress cut full) :
    Interrupts progress (Compile.within part cut) (Compile.within part full) :=
  .bind (.surrounding fun _ => ⟨rfl, rfl, rfl⟩) fun _ => h.restoring fun _ => ⟨rfl, rfl, rfl⟩

/-- A step at another place of the description. -/
theorem under (parts : List String) (h : Interrupts progress cut full) :
    Interrupts progress (Compile.under parts cut) (Compile.under parts full) :=
  .bind .read fun _ => .bind (.surrounding fun _ => ⟨rfl, rfl, rfl⟩) fun _ =>
    h.restoring fun _ => ⟨rfl, rfl, rfl⟩

/-- A step inside a component. -/
theorem entering (key : String) (h : Interrupts progress cut full) :
    Interrupts progress (Compile.entering key cut) (Compile.entering key full) := by
  have hinside : Interrupts progress
      (do modify fun state => { state with chain := state.chain ++ [key] }
          Compile.restoring (fun state => { state with chain := state.chain.dropLast }) cut)
      (do modify fun state => { state with chain := state.chain ++ [key] }
          Compile.restoring (fun state => { state with chain := state.chain.dropLast }) full) :=
    .bind (.surrounding fun _ => ⟨rfl, rfl, rfl⟩) fun _ => h.restoring fun _ => ⟨rfl, rfl, rfl⟩
  refine .bind .read fun state => ?_
  dsimp only
  split
  · exact .bind (.throw _) fun _ => hinside
  · exact hinside

/-! ### Loops -/

/-- A loop may be broken off in any round. -/
theorem foldlM {γ : Type} {cutRound round : α → γ → M α} {items : List γ}
    (hround : ∀ item ∈ items, ∀ a, Interrupts progress (cutRound a item) (round a item))
    (init : α) : Interrupts progress (items.foldlM cutRound init) (items.foldlM round init) := by
  induction items generalizing init with
  | nil => exact .pure init
  | cons item rest ih =>
    rw [List.foldlM_cons, List.foldlM_cons]
    exact .bind (hround item (List.mem_cons_self ..) init)
      (ih fun other hother => hround other (List.mem_cons_of_mem _ hother))

/-- A loop without a result may be broken off in any round. -/
theorem forM {γ : Type} {cutRound round : γ → M PUnit} {items : List γ}
    (hround : ∀ item ∈ items, Interrupts progress (cutRound item) (round item)) :
    Interrupts progress (items.forM cutRound) (items.forM round) := by
  induction items with
  | nil => exact .pure _
  | cons item rest ih =>
    exact .bind (hround item (List.mem_cons_self ..)) fun _ =>
      ih fun other hother => hround other (List.mem_cons_of_mem _ hother)

end Interrupts

/-! ### Engines -/

/-- Each call of an engine that a job may make is that of another engine, or is broken off. -/
structure Engine.Interrupts (job : Job) (progress : Progress) (cut full : Engine) : Prop where
  node : ∀ hint node, Compile.Interrupts progress (cut.node hint node) (full.node hint node)
  schema : ∀ hint schema,
    Compile.Interrupts progress (cut.schema hint schema) (full.schema hint schema)
  absorb : ∀ draft node,
    Compile.Interrupts progress (cut.absorb draft node) (full.absorb draft node)
  component : ∀ {key node}, job.document.components.schemas.find? key = some node →
    Compile.Interrupts progress (cut.component key node) (full.component key node)
  requestBody : ∀ {key body}, job.document.components.requestBodies.find? key = some body →
    Compile.Interrupts progress (cut.requestBody key body) (full.requestBody key body)

/-- Where no calls are left, every call leaves the state as it was. -/
theorem Engine.Interrupts.exhausted (job : Job) (progress : Progress) :
    Engine.exhausted.Interrupts job progress Engine.exhausted where
  node _ _ := .throw _
  schema _ _ := .throw _
  absorb _ _ := .throw _
  component _ := .throw _
  requestBody _ := .throw _

section

variable {job : Job} {progress : Progress} {cut full : Engine}

/-! ### Steps that make no call -/

/-- A scalar at the top level is wrapped without a call. -/
theorem scalarMessage_interrupts (name : String) (schema : Schema) :
    Interrupts progress (scalarMessage name schema) (scalarMessage name schema) := by
  unfold scalarMessage
  cases scalarType? schema.shape with
  | some type => exact .pure _
  | none => exact .bind .place fun _ => .throw _

/-- Literals become an enum without a call. Only warnings are given on the way. -/
theorem enumCarrier_interrupts (name : String) (schema : Schema) (literals : List Value) :
    Interrupts progress (enumCarrier job name schema literals)
      (enumCarrier job name schema literals) := by
  refine .of_same fun s => ?_
  obtain ⟨draft, t, hrun⟩ := infallible_enumCarrier job name schema literals s
  obtain ⟨-, warnings, rfl⟩ := enumCarrier_eq_ok hrun
  rw [stateAfter_of_ok hrun]
  exact ⟨rfl, rfl, rfl⟩

/-- A field that is refused leaves a warning and no more. -/
theorem addFieldOrWarn_interrupts (parent : MessageDraft) (field : FieldDraft)
    (warning : String → String → Warning) :
    Interrupts progress (addFieldOrWarn parent field warning)
      (addFieldOrWarn parent field warning) := by
  refine .of_same fun s => ?_
  obtain ⟨filled, t, hrun⟩ := infallible_addFieldOrWarn parent field warning s
  obtain ⟨-, warnings, rfl⟩ := addFieldOrWarn_eq_ok hrun
  rw [stateAfter_of_ok hrun]
  exact ⟨rfl, rfl, rfl⟩

/-- Marking a field may add a dependency and no more. -/
theorem markPresence_interrupts (field : FieldDraft) (schema : Schema) (required : Bool) :
    Interrupts progress (markPresence job field schema required)
      (markPresence job field schema required) := by
  unfold markPresence
  split
  · exact .pure _
  · dsimp only
    split
    · exact .bind (.addDependency _) fun _ => .pure _
    · exact .pure _

/-- An order that is no list of texts leaves the state as it was. -/
theorem reorder_interrupts (draft : MessageDraft) (order : Value) :
    Interrupts progress (reorder draft order) (reorder draft order) := by
  unfold reorder
  split
  · split
    · exact .pure _
    · exact .bind .place fun _ => .throw _
  · exact .bind .place fun _ => .throw _

/-- A component that is not there leaves the state as it was. -/
theorem findSchema_interrupts (reference : String) :
    Interrupts progress (findSchema job reference) (findSchema job reference) := by
  unfold findSchema
  split
  · exact .dangling _
  · split
    · exact .dangling _
    · exact .pure _

/-- References are followed without a change of the state. -/
theorem followFrom_interrupts {part : Section} {table : Table (Referable α)} {fuel : Nat}
    {seen : List String} (node : Referable α) :
    Interrupts progress (followFrom part table fuel seen node)
      (followFrom part table fuel seen node) := by
  induction fuel generalizing seen node with
  | zero =>
    cases node with
    | inline item => exact .pure _
    | ref reference => exact .throw _
  | succ fuel ih =>
    cases node with
    | inline item => exact .pure _
    | ref reference =>
      unfold followFrom
      split
      · exact .dangling _
      · split
        · exact .throw _
        · split
          · exact .dangling _
          · exact ih _

/-! ### Members -/

/-- The type of a reference may be broken off in the component that it names. -/
theorem referencedType_interrupts (h : cut.Interrupts job progress full) (reference : String) :
    Interrupts progress (referencedType cut job reference) (referencedType full job reference) :=
  .bind_of_result (findSchema_interrupts reference) fun hfind =>
    h.component (findSchema_eq_ok hfind).2.1

/-- The message for a shared name may be broken off in the component that it comes from. -/
theorem standIn_interrupts (h : cut.Interrupts job progress full) (name : String) :
    Interrupts progress (standIn cut job name) (standIn full job name) := by
  unfold standIn
  dsimp only
  cases hschema : job.document.components.schemas.entries.find? fun entry =>
      job.messageName entry.1 == name with
  | some entry =>
    refine .bind (.bind .read fun _ => .pure _) fun inProgress => ?_
    cases inProgress with
    | true => exact .bind (.pure _) fun _ => .pure _
    | false =>
      exact .bind ((h.component (find?_messageName hschema).1).map _) fun _ => .pure _
  | none =>
    cases hbody : job.document.components.requestBodies.entries.find? fun entry =>
        job.messageName entry.1 == name with
    | some entry =>
      refine .bind (.bind .read fun _ => .pure _) fun inProgress => ?_
      cases inProgress with
      | true => exact .bind (.pure _) fun _ => .pure _
      | false =>
        exact .bind ((h.requestBody (find?_messageName hbody).1).map _) fun _ => .pure _
    | none => exact .bind (.pure _) fun _ => .pure _

/-- Looking for a free name may be broken off where a component is called for it. -/
theorem nestingName_interrupts (h : cut.Interrupts job progress full) (parent : MessageDraft)
    (name : String) (isEnum : Bool) :
    Interrupts progress (nestingName cut job parent name isEnum)
      (nestingName full job parent name isEnum) := by
  refine .bind .read fun state => ?_
  split
  · exact .pure _
  · refine .bind (standIn_interrupts h name) fun stand => ?_
    cases stand with
    | none => exact .pure _
    | some resolved =>
      refine .ite (.pure _) ?_
      exact .bind .read fun _ => .bind .place fun _ => .bind (.warn _) fun _ => .pure _

/-- Taking in a child may be broken off where its name is looked up. -/
theorem takeIn_interrupts (h : cut.Interrupts job progress full) (parent : MessageDraft)
    (fieldName : String) (child : MessageDraft) (allowRepeated : Bool) :
    Interrupts progress (takeIn cut job parent fieldName child allowRepeated)
      (takeIn full job parent fieldName child allowRepeated) := by
  unfold takeIn
  split
  · refine .bind (nestingName_interrupts h _ _ _) fun nested => ?_
    split <;> exact .pure _
  · dsimp only
    split
    · exact .pure _
    · refine .bind (nestingName_interrupts h _ _ _) fun nested => ?_
      split <;> exact .pure _

/-- A property may be broken off in its schema. -/
theorem addMember_interrupts (h : cut.Interrupts job progress full) (parent : MessageDraft)
    (name : String) (property : SchemaNode) (required : Bool) (comment : Option String) :
    Interrupts progress (addMember cut job parent name property required comment)
      (addMember full job parent name property required comment) := by
  cases property with
  | ref reference =>
    refine .bind (referencedType_interrupts h reference) fun _ => ?_
    split
    · exact .pure _
    · exact addFieldOrWarn_interrupts _ _ _
  | inline schema =>
    refine .bind (h.schema _ _) fun compiled => ?_
    split
    · exact .pure _
    · exact .bind (takeIn_interrupts h _ _ _ _) fun _ =>
        .bind (markPresence_interrupts _ _ _) fun _ => addFieldOrWarn_interrupts _ _ _

/-- An object may be broken off in any of its properties. -/
theorem addMembers_interrupts (h : cut.Interrupts job progress full) (parent : MessageDraft)
    (properties : List (String × SchemaNode)) (required : List String) :
    Interrupts progress (addMembers cut job parent properties required)
      (addMembers full job parent properties required) :=
  .foldlM (fun _ _ _ => (addMember_interrupts h _ _ _ _ _).within _) _

/-- A schema without a name of its own may be broken off like a property. -/
theorem unnamedMember_interrupts (h : cut.Interrupts job progress full) (parent : MessageDraft)
    (fieldName : Option String) (fallback : String) (node : SchemaNode) :
    Interrupts progress (unnamedMember cut job parent fieldName fallback node)
      (unnamedMember full job parent fieldName fallback node) := by
  cases node with
  | ref reference => exact .bind (referencedType_interrupts h reference) fun _ => .pure _
  | inline schema =>
    refine .bind (h.schema _ _) fun compiled => ?_
    split
    · exact .pure _
    · exact .bind (takeIn_interrupts h _ _ _ _) fun _ => .pure _

/-- A union may be broken off in any of its variants. -/
theorem unionMessage_interrupts (h : cut.Interrupts job progress full) (name : String)
    (schema : Schema) (label : String) (variants : List SchemaNode) :
    Interrupts progress (unionMessage cut job name schema label variants)
      (unionMessage full job name schema label variants) := by
  refine .foldlM (fun variant _ parent => ?_) _
  refine .bind ((unnamedMember_interrupts h _ _ _ _).within _) fun given => ?_
  obtain ⟨grown, field?⟩ := given
  cases field? with
  | none => exact .pure _
  | some field => exact addFieldOrWarn_interrupts _ _ _

/-- What `allOf` combines may be broken off in a variant or in a property. -/
theorem combinedMessage_interrupts (h : cut.Interrupts job progress full) (name : String)
    (schema : Schema) (variants : List SchemaNode) (properties : List (String × SchemaNode))
    (required : List String) :
    Interrupts progress (combinedMessage cut job name schema variants properties required)
      (combinedMessage full job name schema variants properties required) :=
  .bind (.foldlM (fun _ _ _ => (h.absorb _ _).within _) _) fun _ => addMembers_interrupts h _ _ _

/-- A list at the top level may be broken off in its items. -/
theorem listWrapper_interrupts (h : cut.Interrupts job progress full) (name : String)
    (schema : Schema) (items : Option SchemaNode) :
    Interrupts progress (listWrapper cut job name schema items)
      (listWrapper full job name schema items) := by
  cases items with
  | none => exact .pure _
  | some items =>
    refine .bind ((unnamedMember_interrupts h _ _ _ _).within _) fun given => ?_
    obtain ⟨grown, field?⟩ := given
    cases field? <;> exact .pure _

/-! ### Schemas -/

/-- Every shape may be broken off where it calls the engine. -/
theorem messageOfShape_interrupts (h : cut.Interrupts job progress full) (name : String)
    (schema : Schema) :
    Interrupts progress (messageOfShape cut job name schema)
      (messageOfShape full job name schema) := by
  unfold messageOfShape
  cases schema.shape with
  | map value => exact (h.node _ _).within _
  | enum literals => exact (enumCarrier_interrupts _ _ _).map _
  | oneOf variants => exact (unionMessage_interrupts h _ _ _ _).map _
  | anyOf variants => exact (unionMessage_interrupts h _ _ _ _).map _
  | allOf variants properties required => exact (combinedMessage_interrupts h _ _ _ _ _).map _
  | array items => exact listWrapper_interrupts h _ _ _
  | object properties required => exact (addMembers_interrupts h _ _ _).map _
  | any => exact .pure _
  | _ => exact (scalarMessage_interrupts _ _).map _

/-- A schema may be broken off in its shape, and in the order of its fields. -/
theorem messageOfSchema_interrupts (h : cut.Interrupts job progress full) (hint : String)
    (schema : Schema) :
    Interrupts progress (messageOfSchema cut job hint schema)
      (messageOfSchema full job hint schema) := by
  refine .bind (messageOfShape_interrupts h _ _) fun shaped => ?_
  split
  · exact (reorder_interrupts _ _).map _
  · exact .pure _

/-- A node may be broken off where its references lead. -/
theorem messageOfNode_interrupts (h : cut.Interrupts job progress full) (hint : String)
    (node : SchemaNode) :
    Interrupts progress (messageOfNode cut job hint node) (messageOfNode full job hint node) := by
  cases node with
  | inline schema => exact h.schema _ _
  | ref reference => exact .bind (findSchema_interrupts _) fun _ => (h.node _ _).entering _

/-- A variant may be broken off while it is absorbed. -/
theorem absorb_interrupts (h : cut.Interrupts job progress full) (draft : MessageDraft)
    (node : SchemaNode) :
    Interrupts progress (absorb cut job draft node) (absorb full job draft node) := by
  cases node with
  | inline schema =>
    show Interrupts progress (if !schema.isObject then _ else _) (if !schema.isObject then _ else _)
    split
    · exact .bind .place fun _ => .bind (.warn _) fun _ => .pure _
    · refine .bind (h.schema _ _) fun compiled => ?_
      split <;> exact .pure _
  | ref reference => exact .bind (findSchema_interrupts _) fun _ => (h.absorb _ _).entering _

/-- One more level keeps engines in order, when it does so for the components. -/
theorem Engine.Interrupts.step (h : cut.Interrupts job progress full)
    (hcomponent : ∀ {key node}, job.document.components.schemas.find? key = some node →
      Compile.Interrupts progress (declareSchema cut job key node)
        (declareSchema full job key node))
    (hbody : ∀ {key body}, job.document.components.requestBodies.find? key = some body →
      Compile.Interrupts progress (declareBody cut job key body) (declareBody full job key body)) :
    (Engine.step job cut).Interrupts job progress (Engine.step job full) where
  node := messageOfNode_interrupts h
  schema := messageOfSchema_interrupts h
  absorb := absorb_interrupts h
  component := hcomponent
  requestBody := hbody

end

end Protoscribe.Compile
