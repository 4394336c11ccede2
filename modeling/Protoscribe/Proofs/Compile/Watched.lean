import Protoscribe.Proofs.Compile.Passes
import Protoscribe.Proofs.Compile.Tidy

/-!
# `Protoscribe.Proofs.Compile.Watched`: runs that somebody watches

Where a run is on its way, and which components it is declaring when it fails, cannot be told from
its result. A `Watcher` makes both visible. It breaks the run off in a state that alarms it, and it
reports the errors of components in its own way. Declarations of components are nested, so an error
that comes out of several of them is reported several times, first by the innermost one.

`Watched` says what a watcher can see of a step. Whatever is added to the chain on the way is new
(`Deepens`), so a watcher whom only other states alarm never breaks the step off. An error of the
step comes out of certain declarations, the same ones for every watcher. And a reference that names
nothing is reported with a place inside the innermost of them.

The rules for single steps, sequences, and steps in a changed surrounding come first, and then the
functions between two levels of calls. So every call of an engine is watched in this way
(`Engine.ofLevels_watched`), and so are the messages of a method (`payloads_watched`).
-/

set_option autoImplicit false

namespace Protoscribe.Compile

open OpenApi (Operation Parameter PathItem Referable RequestBody Schema SchemaNode Section Verb)

variable {α β : Type}

/-! ### Watchers -/

/-- The declaration of a component that has a type. -/
inductive Declaration where
  | schema (key : String)
  | body (key : String)
  deriving Repr, DecidableEq

/-- The place in the description where a component is declared. -/
def Declaration.place : Declaration → List String
  | .schema key => ["components", "schemas", key]
  | .body key => ["components", "requestBodies", key]

/-- The text of a place in the description. -/
def placeOf (scope : List String) : String :=
  if scope.isEmpty then "document root" else ".".intercalate scope

/-- The place inside the innermost of some declarations, or the one around them when there are
none. -/
def placeInside (scope : List String) (declarations : List Declaration) : List String :=
  (declarations.map Declaration.place).getLastD scope

/-- Somebody who watches a run. -/
structure Watcher where
  /-- What the run is broken off with in a state, if the state is one to break it off in. -/
  alarm : State → Option CompileError
  /-- What is reported when a component fails with an error. -/
  report : Declaration → CompileError → CompileError

/-- Breaks the run off when the state alarms the watcher. -/
def Watcher.look (watcher : Watcher) : M Unit := do
  match watcher.alarm (← get) with
  | none => pure ()
  | some error => throw error

/-- Watches the state that a step starts in and the one that it leaves. -/
def Watcher.watching (watcher : Watcher) (step : M α) : M α := do
  watcher.look
  let a ← step
  watcher.look
  pure a

/-- The call for a request body, over a step that gives its type. -/
def settlingBody (key : String) (type : M ComponentType) : M ComponentType := do
  match (← get).bodies.lookup key with
  | some resolved => pure resolved
  | none =>
    let resolved ←
      entering ("requestBodies." ++ key) (under ["components", "requestBodies", key] type)
    modify fun state => { state with bodies := state.bodies ++ [(key, resolved)] }
    pure resolved

/-- A request body is declared by settling its type. -/
theorem declareBody_eq (self : Engine) (job : Job) (key : String) (body : Referable RequestBody) :
    declareBody self job key body = settlingBody key (typeOfBody self job key body) :=
  rfl

/-- The calls, where every call and the inside of every request body are watched. -/
def Engine.watchedStep (watcher : Watcher) (job : Job) (self : Engine) : Engine where
  node hint node := watcher.watching (messageOfNode self job hint node)
  schema hint schema := watcher.watching (messageOfSchema self job hint schema)
  absorb draft node := watcher.watching (Compile.absorb self job draft node)
  component key node := watcher.watching
    ((declareSchema self job key node).adaptExcept (watcher.report (.schema key)))
  requestBody key body :=
    -- a body may end without a call, and then no call would show the chain inside it
    let type := watcher.watching (typeOfBody self job key body)
    watcher.watching ((settlingBody key type).adaptExcept (watcher.report (.body key)))

/-- The engine with the given number of levels, where calls are watched on every level. -/
def Engine.watched (watcher : Watcher) (job : Job) (levels : Nat) : Engine :=
  Nat.repeat (Engine.watchedStep watcher job) levels Engine.exhausted

/-! ### Chains -/

/-- The chain of a state goes on from a given one with new entries, each of them once. -/
def Deepens (chain : List String) (s : State) : Prop :=
  ∃ added, s.chain = chain ++ added ∧ added.Nodup ∧ chain.Disjoint added

namespace Deepens

variable {chain : List String} {s t : State}

/-- The chain of a state is as deep as itself. -/
theorem refl (s : State) : Deepens s.chain s :=
  ⟨[], by simp⟩

/-- Only the chain of a state tells how deep it is. -/
theorem of_eq (h : Deepens chain s) (hchain : t.chain = s.chain) : Deepens chain t := by
  rwa [Deepens, hchain]

/-- A component that is not in the chain may be entered. -/
theorem enter {key : String} (h : Deepens chain s) (hfree : key ∉ s.chain) :
    Deepens chain { s with chain := s.chain ++ [key] } := by
  obtain ⟨added, hadded, hnodup, hdisjoint⟩ := h
  rw [hadded, List.mem_append, not_or] at hfree
  refine ⟨added ++ [key], by rw [hadded, List.append_assoc], ?_, ?_⟩
  · exact List.nodup_append.mpr ⟨hnodup, by simp, by grind⟩
  · exact List.disjoint_append_right.mpr ⟨hdisjoint, by simpa using hfree.1⟩

end Deepens

/-- No state alarms the watcher whose chain goes on from the given one with new entries, each of
them once. -/
def Watcher.Spares (watcher : Watcher) (chain : List String) : Prop :=
  ∀ t, Deepens chain t → watcher.alarm t = none

/-! ### Watched steps -/

/-- A step that succeeds has no error to adapt. -/
theorem adaptExcept_of_ok {step : M α} {f : CompileError → CompileError} {s t : State} {a : α}
    (h : step s = .ok a t) : step.adaptExcept f s = .ok a t := by
  rw [EStateM.adaptExcept, h]

/-- The error of a step that fails is adapted, and its state is kept. -/
theorem adaptExcept_of_error {step : M α} {f : CompileError → CompileError} {s t : State}
    {error : CompileError} (h : step s = .error error t) :
    step.adaptExcept f s = .error (f error) t := by
  rw [EStateM.adaptExcept, h]

/-- The step leads back to its surrounding, and a watcher who spares the states on its way sees
nothing of it but the declarations that its error comes from. Places are those inside `root`, or
inside the place of the step when there is none. -/
structure Watched (root : Option (List String)) (watched : Watcher → M α) (step : M α) : Prop where
  tidy : Tidy step
  seen : ∀ {chain s}, Deepens chain s → ∃ declarations : List Declaration,
    (∀ watcher : Watcher, watcher.Spares chain →
      watched watcher s = step.adaptExcept (declarations.foldr watcher.report) s) ∧
    ∀ {reference place t}, step s = .error (.unresolvedReference reference place) t →
      ∃ rest, place = placeOf (placeInside (root.getD s.scope) declarations ++ rest)

namespace Watched

variable {root : Option (List String)} {watched : Watcher → M α} {step : M α}

/-- A step that makes no call. -/
theorem own (htidy : Tidy step)
    (hplace : ∀ {s reference place t}, step s = .error (.unresolvedReference reference place) t →
      ∃ rest, place = placeOf (root.getD s.scope ++ rest)) : Watched root (fun _ => step) step where
  tidy := htidy
  seen {_ s} _ := by
    refine ⟨[], fun _ _ => ?_, hplace⟩
    cases hrun : step s with
    | ok a t => rw [adaptExcept_of_ok hrun]
    | error error t => rw [adaptExcept_of_error hrun, List.foldr_nil]

/-- A step that cannot fail has nothing to show to a watcher. -/
theorem infallible (htidy : Tidy step) (h : Infallible step) : Watched root (fun _ => step) step :=
  .own htidy fun {s _ _ _} herror => by
    obtain ⟨a, t, hok⟩ := h s
    cases hok.symm.trans herror

/-- An error comes from the first step or from the second one, and both start in one
surrounding. -/
theorem bind {watchedNext : Watcher → α → M β} {next : α → M β} (h : Watched root watched step)
    (hnext : ∀ a, Watched root (fun watcher => watchedNext watcher a) (next a)) :
    Watched root (fun watcher => watched watcher >>= watchedNext watcher) (step >>= next) where
  tidy := h.tidy.bind fun a => (hnext a).tidy
  seen {chain s} hs := by
    obtain ⟨declarations, hseen, hplace⟩ := h.seen hs
    cases hrun : step s with
    | ok a t =>
      -- the second step starts with the chain and at the place that the first one started with
      have hback : Back s t := h.tidy.back hrun
      obtain ⟨inner, hinner, hinnerPlace⟩ := (hnext a).seen (hs.of_eq hback.chain)
      refine ⟨inner, fun watcher hspares => ?_, fun herror => ?_⟩
      · have hfirst : watched watcher s = .ok a t :=
          (hseen watcher hspares).trans (adaptExcept_of_ok hrun)
        rw [bind_of_ok hfirst, hinner watcher hspares]
        simp only [EStateM.adaptExcept, bind_of_ok hrun]
      · rw [bind_of_ok hrun] at herror
        rw [← hback.scope]
        exact hinnerPlace herror
    | error error t =>
      refine ⟨declarations, fun watcher hspares => ?_, fun herror => ?_⟩
      · have hfirst : watched watcher s = .error _ t :=
          (hseen watcher hspares).trans (adaptExcept_of_error hrun)
        rw [bind_of_error hfirst, adaptExcept_of_error (bind_of_error hrun)]
      · cases (bind_of_error hrun).symm.trans herror
        exact hplace hrun

/-- A result that is given back at once shows nothing. -/
theorem pure (a : α) : Watched root (fun _ => (Pure.pure a : M α)) (Pure.pure a) :=
  .infallible (.pure a) (.pure a)

/-- An error that names no unresolved reference needs no place. -/
theorem throw {error : CompileError}
    (h : ∀ reference place, error ≠ .unresolvedReference reference place) :
    Watched root (fun _ => (MonadExcept.throw error : M α)) (MonadExcept.throw error) :=
  .own (.throw error) fun herror => by
    cases herror
    exact absurd rfl (h _ _)

/-- Looking at the state shows nothing. -/
theorem read : Watched root (fun _ => (get : M State)) get :=
  .infallible .read .get

/-- A watcher sees a step and does not see what becomes of its result. -/
theorem map (f : α → β) (h : Watched root watched step) :
    Watched root (fun watcher => f <$> watched watcher) (f <$> step) := by
  simp only [map_eq_pure_bind]
  exact h.bind fun a => .pure (f a)

/-- Both runs take the same branch. -/
theorem ite {condition : Prop} [Decidable condition] {watchedElse : Watcher → M α} {other : M α}
    (h : Watched root watched step) (helse : Watched root watchedElse other) :
    Watched root (fun watcher => if condition then watched watcher else watchedElse watcher)
      (if condition then step else other) := by
  split
  · exact h
  · exact helse

/-- The place of the run is read unwatched. -/
theorem place : Watched root (fun _ => Compile.place) Compile.place :=
  .infallible .place .place

/-- Warnings are given unwatched. -/
theorem warn (warning : Warning) :
    Watched root (fun _ => Compile.warn warning) (Compile.warn warning) :=
  .infallible (.warn warning) (.warn warning)

/-- A change that leads back. -/
theorem changing {change : State → State} (h : ∀ s, Back s (change s)) :
    Watched root (fun _ => (modify change : M PUnit)) (modify change) :=
  .infallible (.changing h) fun s => ⟨⟨⟩, change s, rfl⟩

/-- The error has the place of the step. -/
theorem dangling (reference : String) :
    Watched none (fun _ => (Compile.dangling reference : M α)) (Compile.dangling reference) :=
  .own (.dangling reference) fun {s _ _ _} herror => by
    cases herror
    exact ⟨[], by rw [List.append_nil]; rfl⟩

/-! ### Steps in a changed surrounding -/

/-- If a watcher adapts the error of a step, it adapts it also where something is put back
afterwards. -/
theorem restoring_congr {restore : State → State} {f : CompileError → CompileError} {other : M α}
    {s : State} (h : other s = step.adaptExcept f s) :
    restoring restore other s = (restoring restore step).adaptExcept f s := by
  simp only [restoring, EStateM.adaptExcept] at h ⊢
  rw [h]
  cases step s <;> rfl

/-- What fails with something put back afterwards has failed before. -/
theorem error_of_restoring {restore : State → State} {error : CompileError} {s t : State}
    (h : restoring restore step s = .error error t) : ∃ u, step s = .error error u := by
  unfold restoring at h
  cases hrun : step s with
  | ok a u => simp [hrun] at h
  | error error' u =>
    simp only [hrun, EStateM.Result.error.injEq] at h
    exact ⟨u, h.1 ▸ rfl⟩

/-- A place further down is inside the place where the step starts. -/
theorem placeInside_append (scope parts : List String) (declarations : List Declaration) :
    ∃ more, placeInside (scope ++ parts) declarations = placeInside scope declarations ++ more := by
  cases declarations with
  | nil => exact ⟨parts, rfl⟩
  | cons declaration inner =>
    refine ⟨[], ?_⟩
    simp only [placeInside, List.map_cons, List.getLastD_cons, List.append_nil]

/-- A step inside a part of the description. The places of its errors lie in the part. -/
theorem within (part : String) (h : Watched none watched step) :
    Watched none (fun watcher => Compile.within part (watched watcher))
      (Compile.within part step) where
  tidy := h.tidy.within part
  seen {chain s} hs := by
    have hinside : Deepens chain { s with scope := s.scope ++ [part] } := hs.of_eq rfl
    obtain ⟨declarations, hseen, hplace⟩ := h.seen hinside
    refine ⟨declarations, fun watcher hspares => restoring_congr (hseen watcher hspares),
      fun herror => ?_⟩
    obtain ⟨_, herror⟩ := error_of_restoring herror
    obtain ⟨rest, rfl⟩ := hplace herror
    -- the part belongs to the rest of the place, unless the error comes out of a component
    obtain ⟨more, hmore⟩ := placeInside_append s.scope [part] declarations
    exact ⟨more ++ rest, by simp only [Option.getD_none, hmore, List.append_assoc]⟩

/-- A step at another place reports what is inside that place. -/
theorem under (parts : List String) (h : Watched none watched step) :
    Watched (some parts) (fun watcher => Compile.under parts (watched watcher))
      (Compile.under parts step) where
  tidy := h.tidy.under parts
  seen {chain s} hs := by
    have hinside : Deepens chain { s with scope := parts } := hs.of_eq rfl
    obtain ⟨declarations, hseen, hplace⟩ := h.seen hinside
    refine ⟨declarations, fun watcher hspares => restoring_congr (hseen watcher hspares),
      fun herror => ?_⟩
    obtain ⟨_, herror⟩ := error_of_restoring herror
    exact hplace herror

/-- A component is only entered when the chain does not have it. -/
theorem entering_eq (key : String) (s : State) (step : M α) :
    Compile.entering key step s =
      if key ∈ s.chain then .error (.cycle key (s.chain ++ [key])) s
      else restoring (fun state => { state with chain := state.chain.dropLast }) step
        { s with chain := s.chain ++ [key] } := by
  rw [Compile.entering, bind_of_ok (get_eq_ok.mpr ⟨rfl, rfl⟩)]
  by_cases hkey : key ∈ s.chain
  · rw [if_pos (by simpa using hkey), if_pos hkey]
    rfl
  · rw [if_neg (by simpa using hkey), if_neg hkey]
    rfl

/-- A step inside a component. It runs with a chain that is deeper by this component. -/
theorem entering (key : String) (h : Watched root watched step) :
    Watched root (fun watcher => Compile.entering key (watched watcher))
      (Compile.entering key step) where
  tidy := h.tidy.entering key
  seen {chain s} hs := by
    by_cases hkey : key ∈ s.chain
    -- the step is not run at all, and the error is a circle for every watcher
    · have hcycle (other : M α) :
          Compile.entering key other s = .error (.cycle key (s.chain ++ [key])) s := by
        rw [entering_eq, if_pos hkey]
      refine ⟨[], fun watcher _ => ?_, fun herror => ?_⟩
      · rw [hcycle, adaptExcept_of_error (hcycle step), List.foldr_nil]
      · cases (hcycle step).symm.trans herror
    · obtain ⟨declarations, hseen, hplace⟩ := h.seen (hs.enter hkey)
      refine ⟨declarations, fun watcher hspares => ?_, fun herror => ?_⟩
      · rw [entering_eq, if_neg hkey, restoring_congr (hseen watcher hspares)]
        simp only [EStateM.adaptExcept, entering_eq, if_neg hkey]
      · rw [entering_eq, if_neg hkey] at herror
        obtain ⟨_, herror⟩ := error_of_restoring herror
        exact hplace herror

/-- What is declared is the outermost of the declarations that an error goes through. -/
theorem declaring (declaration : Declaration) (h : Watched (some declaration.place) watched step) :
    Watched none (fun watcher => (watched watcher).adaptExcept (watcher.report declaration))
      step where
  tidy := h.tidy
  seen {_ s} hs := by
    obtain ⟨inner, hseen, hplace⟩ := h.seen hs
    refine ⟨declaration :: inner, fun watcher hspares => ?_, fun herror => ?_⟩
    · rw [EStateM.adaptExcept, hseen watcher hspares]
      cases hrun : step s with
      | ok a t => rw [adaptExcept_of_ok hrun, adaptExcept_of_ok hrun]
      | error error t => rw [adaptExcept_of_error hrun, adaptExcept_of_error hrun, List.foldr_cons]
    · obtain ⟨rest, rfl⟩ := hplace herror
      exact ⟨rest, by
        simp only [placeInside, List.map_cons, List.getLastD_cons, Option.getD_some]⟩

/-! ### Looks at the state -/

/-- A watcher that a state does not alarm lets the run go on. -/
theorem look_eq {watcher : Watcher} {s : State} (h : watcher.alarm s = none) :
    watcher.look s = .ok () s := by
  rw [Watcher.look, bind_of_ok (get_eq_ok.mpr ⟨rfl, rfl⟩), h]
  rfl

/-- A watcher that neither the start nor the end of a step alarms lets it go on. -/
theorem watching_eq {watcher : Watcher} {s : State} (hstart : watcher.alarm s = none)
    (hend : ∀ {a t}, step s = .ok a t → watcher.alarm t = none) :
    watcher.watching step s = step s := by
  rw [Watcher.watching, bind_of_ok (look_eq hstart)]
  cases hrun : step s with
  | ok a t =>
    rw [bind_of_ok hrun, bind_of_ok (look_eq (hend hrun))]
    rfl
  | error error t => exact bind_of_error hrun

/-- Neither the start nor the end of the step alarms a watcher who spares the states on the way. -/
theorem watching (h : Watched root watched step) :
    Watched root (fun watcher => watcher.watching (watched watcher)) step where
  tidy := h.tidy
  seen {chain s} hs := by
    obtain ⟨declarations, hseen, hplace⟩ := h.seen hs
    refine ⟨declarations, fun watcher hspares => ?_, hplace⟩
    rw [← hseen watcher hspares]
    refine watching_eq (hspares s hs) fun {a t} hrun => hspares t (hs.of_eq ?_)
    -- a watched step that succeeds is the step itself, which leads back
    rw [hseen watcher hspares] at hrun
    cases hstep : step s with
    | ok b u =>
      cases (adaptExcept_of_ok hstep).symm.trans hrun
      exact (h.tidy.back hstep).chain
    | error error u => cases (adaptExcept_of_error hstep).symm.trans hrun

/-! ### Loops -/

/-- A loop is watched round by round. -/
theorem foldlM {γ : Type} {watchedRound : Watcher → α → γ → M α} {round : α → γ → M α}
    {items : List γ}
    (hround : ∀ a item, Watched root (fun watcher => watchedRound watcher a item) (round a item))
    (init : α) :
    Watched root (fun watcher => items.foldlM (watchedRound watcher) init)
      (items.foldlM round init) := by
  induction items generalizing init with
  | nil => exact .pure init
  | cons item rest ih =>
    simp only [List.foldlM_cons]
    exact .bind (hround init item) ih

end Watched

/-! ### Engines -/

/-- Every call of an engine is watched. -/
structure Engine.Watched (watched : Watcher → Engine) (engine : Engine) : Prop where
  node : ∀ hint node,
    Compile.Watched none (fun watcher => (watched watcher).node hint node) (engine.node hint node)
  schema : ∀ hint schema, Compile.Watched none
    (fun watcher => (watched watcher).schema hint schema) (engine.schema hint schema)
  absorb : ∀ draft node, Compile.Watched none
    (fun watcher => (watched watcher).absorb draft node) (engine.absorb draft node)
  component : ∀ key node, Compile.Watched none
    (fun watcher => (watched watcher).component key node) (engine.component key node)
  requestBody : ∀ key body, Compile.Watched none
    (fun watcher => (watched watcher).requestBody key body) (engine.requestBody key body)

/-- Where no calls are left, all errors are alike for every watcher. -/
theorem Engine.Watched.exhausted :
    Engine.Watched (fun _ => Engine.exhausted) Engine.exhausted where
  node _ _ := .throw (by simp)
  schema _ _ := .throw (by simp)
  absorb _ _ := .throw (by simp)
  component _ _ := .throw (by simp)
  requestBody _ _ := .throw (by simp)

section

variable {job : Job} {watched : Watcher → Engine} {engine : Engine}

/-! ### Steps that make no call -/

/-- A schema that is no scalar is an error, but one that names no reference. -/
theorem scalarMessage_watched (name : String) (schema : Schema) :
    Watched none (fun _ => scalarMessage name schema) (scalarMessage name schema) := by
  unfold scalarMessage
  cases scalarType? schema.shape with
  | some type => exact .pure _
  | none => exact .bind .place fun _ => .throw (by simp)

/-- An order that is no list of texts is an error, but one that names no reference. -/
theorem reorder_watched (draft : MessageDraft) (order : Value) :
    Watched none (fun _ => reorder draft order) (reorder draft order) := by
  unfold reorder
  split
  · split
    · exact .pure _
    · exact .bind .place fun _ => .throw (by simp)
  · exact .bind .place fun _ => .throw (by simp)

/-- A component that is not there is reported at the place of the run. -/
theorem findSchema_watched (reference : String) :
    Watched none (fun _ => findSchema job reference) (findSchema job reference) := by
  unfold findSchema
  split
  · exact .dangling _
  · split
    · exact .dangling _
    · exact .pure _

/-- A chain of references is followed with no component entered. -/
theorem follow_watched (part : Section) (table : Table (Referable α)) (node : Referable α) :
    Watched none (fun _ => follow part table node) (follow part table node) := by
  unfold follow
  -- by induction on the references that may still be followed
  generalize table.size + 1 = fuel
  generalize ([] : List String) = seen
  induction fuel generalizing seen node with
  | zero =>
    cases node with
    | inline item => exact .pure _
    | ref reference => exact .throw (by simp)
  | succ fuel ih =>
    cases node with
    | inline item => exact .pure _
    | ref reference =>
      unfold followFrom
      split
      · exact .dangling _
      · split
        · exact .throw (by simp)
        · split
          · exact .dangling _
          · exact ih _ _

/-! ### Members -/

/-- The type of a reference is watched in the component that it names. -/
theorem referencedType_watched (h : engine.Watched watched) (reference : String) :
    Watched none (fun watcher => referencedType (watched watcher) job reference)
      (referencedType engine job reference) :=
  .bind (findSchema_watched reference) fun _ => h.component _ _

/-- The message for a shared name is watched in the component that it comes from. -/
theorem standIn_watched (h : engine.Watched watched) (name : String) :
    Watched none (fun watcher => standIn (watched watcher) job name) (standIn engine job name) := by
  unfold standIn
  dsimp only
  cases job.document.components.schemas.entries.find? fun entry =>
      job.messageName entry.1 == name with
  | some entry =>
    exact .bind (.bind .read fun _ => .pure _) fun _ =>
      .ite (.bind (.pure _) fun _ => .pure _)
        (.bind ((h.component _ _).map _) fun _ => .pure _)
  | none =>
    cases job.document.components.requestBodies.entries.find? fun entry =>
        job.messageName entry.1 == name with
    | some entry =>
      exact .bind (.bind .read fun _ => .pure _) fun _ =>
        .ite (.bind (.pure _) fun _ => .pure _)
          (.bind ((h.requestBody _ _).map _) fun _ => .pure _)
    | none => exact .bind (.pure _) fun _ => .pure _

/-- A name for a nested type is looked up in the same way by every watcher. -/
theorem nestingName_watched (h : engine.Watched watched) (parent : MessageDraft) (name : String)
    (isEnum : Bool) :
    Watched none (fun watcher => nestingName (watched watcher) job parent name isEnum)
      (nestingName engine job parent name isEnum) := by
  refine .bind .read fun state => .ite (.pure _) ?_
  refine .bind (standIn_watched h name) fun stand => ?_
  cases stand with
  | none => exact .pure _
  | some resolved =>
    refine .ite (.pure _) ?_
    exact .bind .read fun _ => .bind .place fun _ => .bind (.warn _) fun _ => .pure _

/-- A child that is taken in may call a component for its name. -/
theorem takeIn_watched (h : engine.Watched watched) (parent : MessageDraft) (fieldName : String)
    (child : MessageDraft) (allowRepeated : Bool) :
    Watched none (fun watcher => takeIn (watched watcher) job parent fieldName child allowRepeated)
      (takeIn engine job parent fieldName child allowRepeated) := by
  unfold takeIn
  cases child.carriedEnum? with
  | some enum =>
    refine .bind (nestingName_watched h _ _ _) fun nested => ?_
    cases nested <;> exact .pure _
  | none =>
    dsimp only
    cases if (allowRepeated || !child.fields.any (·.repeated)) = true then child.unwrap?
        else none with
    | some unwrapped => exact .pure _
    | none =>
      refine .bind (nestingName_watched h _ _ _) fun nested => ?_
      cases nested <;> exact .pure _

/-- A property is watched inside the part that it is read from. -/
theorem addMember_watched (h : engine.Watched watched) (parent : MessageDraft) (name : String)
    (property : SchemaNode) (required : Bool) (comment : Option String) :
    Watched none
      (fun watcher => addMember (watched watcher) job parent name property required comment)
      (addMember engine job parent name property required comment) := by
  have hadd (parent : MessageDraft) (field : FieldDraft) (warning : String → String → Warning) :
      Watched none (fun _ => addFieldOrWarn parent field warning)
        (addFieldOrWarn parent field warning) :=
    .infallible (addFieldOrWarn_tidy _ _ _) (infallible_addFieldOrWarn _ _ _)
  cases property with
  | ref reference =>
    refine .bind (referencedType_watched h reference) fun type => ?_
    cases fieldTo (some (Identifier.fieldName name)) type with
    | none => exact .pure _
    | some field => exact hadd _ _ _
  | inline schema =>
    refine .bind (h.schema _ _) fun compiled => ?_
    cases compiled.filter (!·.isEmpty) with
    | none => exact .pure _
    | some child =>
      exact .bind (takeIn_watched h _ _ _ _) fun _ =>
        .bind (.infallible (markPresence_tidy _ _ _ _) (infallible_markPresence _ _ _ _))
          fun _ => hadd _ _ _

/-- The properties of an object are watched one after the other. -/
theorem addMembers_watched (h : engine.Watched watched) (parent : MessageDraft)
    (properties : List (String × SchemaNode)) (required : List String) :
    Watched none (fun watcher => addMembers (watched watcher) job parent properties required)
      (addMembers engine job parent properties required) :=
  .foldlM (fun _ _ => (addMember_watched h _ _ _ _ _).within _) _

/-- A schema without a name of its own is watched like a property. -/
theorem unnamedMember_watched (h : engine.Watched watched) (parent : MessageDraft)
    (fieldName : Option String) (fallback : String) (node : SchemaNode) :
    Watched none (fun watcher => unnamedMember (watched watcher) job parent fieldName fallback node)
      (unnamedMember engine job parent fieldName fallback node) := by
  cases node with
  | ref reference => exact .bind (referencedType_watched h reference) fun _ => .pure _
  | inline schema =>
    refine .bind (h.schema _ _) fun compiled => ?_
    cases compiled.filter (!·.isEmpty) with
    | none => exact .pure _
    | some child => exact .bind (takeIn_watched h _ _ _ _) fun _ => .pure _

/-- The variants of a union are watched one after the other. -/
theorem unionMessage_watched (h : engine.Watched watched) (name : String) (schema : Schema)
    (label : String) (variants : List SchemaNode) :
    Watched none (fun watcher => unionMessage (watched watcher) job name schema label variants)
      (unionMessage engine job name schema label variants) := by
  refine .foldlM (fun parent variant => ?_) _
  refine .bind ((unnamedMember_watched h _ _ _ _).within _) fun given => ?_
  obtain ⟨grown, field?⟩ := given
  cases field? with
  | none => exact .pure _
  | some field =>
    exact .infallible (addFieldOrWarn_tidy _ _ _) (infallible_addFieldOrWarn _ _ _)

/-- What `allOf` combines is watched variant by variant, and then property by property. -/
theorem combinedMessage_watched (h : engine.Watched watched) (name : String) (schema : Schema)
    (variants : List SchemaNode) (properties : List (String × SchemaNode))
    (required : List String) :
    Watched none
      (fun watcher =>
        combinedMessage (watched watcher) job name schema variants properties required)
      (combinedMessage engine job name schema variants properties required) :=
  .bind (.foldlM (fun _ _ => (h.absorb _ _).within _) _) fun _ => addMembers_watched h _ _ _

/-- The items of a list at the top level are watched. -/
theorem listWrapper_watched (h : engine.Watched watched) (name : String) (schema : Schema)
    (items : Option SchemaNode) :
    Watched none (fun watcher => listWrapper (watched watcher) job name schema items)
      (listWrapper engine job name schema items) := by
  cases items with
  | none => exact .pure _
  | some node =>
    refine .bind ((unnamedMember_watched h _ _ _ _).within _) fun given => ?_
    obtain ⟨grown, field?⟩ := given
    cases field? <;> exact .pure _

/-! ### Schemas -/

/-- Every shape is watched. -/
theorem messageOfShape_watched (h : engine.Watched watched) (name : String) (schema : Schema) :
    Watched none (fun watcher => messageOfShape (watched watcher) job name schema)
      (messageOfShape engine job name schema) := by
  unfold messageOfShape
  cases schema.shape with
  | map value => exact (h.node _ _).within _
  | enum literals =>
    exact .map _ (.infallible (enumCarrier_tidy _ _ _ _) (infallible_enumCarrier _ _ _ _))
  | oneOf variants => exact (unionMessage_watched h _ _ _ _).map _
  | anyOf variants => exact (unionMessage_watched h _ _ _ _).map _
  | allOf variants properties required => exact (combinedMessage_watched h _ _ _ _ _).map _
  | array items => exact listWrapper_watched h _ _ _
  | object properties required => exact (addMembers_watched h _ _ _).map _
  | any => exact .pure _
  | _ => exact (scalarMessage_watched _ _).map _

/-- A schema is watched before its fields are put in order. -/
theorem messageOfSchema_watched (h : engine.Watched watched) (hint : String) (schema : Schema) :
    Watched none (fun watcher => messageOfSchema (watched watcher) job hint schema)
      (messageOfSchema engine job hint schema) := by
  refine .bind (messageOfShape_watched h _ _) fun shaped => ?_
  cases shaped with
  | none => exact .pure _
  | some draft =>
    cases schema.propertyOrder with
    | none => exact .pure _
    | some order => exact (reorder_watched _ _).map _

/-- A node is watched where its references lead. -/
theorem messageOfNode_watched (h : engine.Watched watched) (hint : String) (node : SchemaNode) :
    Watched none (fun watcher => messageOfNode (watched watcher) job hint node)
      (messageOfNode engine job hint node) := by
  cases node with
  | inline schema => exact h.schema _ _
  | ref reference => exact .bind (findSchema_watched _) fun _ => (h.node _ _).entering _

/-- A variant that is absorbed is watched. -/
theorem absorb_watched (h : engine.Watched watched) (draft : MessageDraft) (node : SchemaNode) :
    Watched none (fun watcher => absorb (watched watcher) job draft node)
      (absorb engine job draft node) := by
  cases node with
  | inline schema =>
    refine .ite (.bind .place fun _ => .bind (.warn _) fun _ => .pure _) ?_
    refine .bind (h.schema _ _) fun compiled => ?_
    cases compiled <;> exact .pure _
  | ref reference => exact .bind (findSchema_watched _) fun _ => (h.absorb _ _).entering _

/-! ### Components -/

/-- The errors of a component come out of its declaration. -/
theorem declareSchema_watched (h : engine.Watched watched) (key : String) (node : SchemaNode) :
    Watched (some (Declaration.schema key).place)
      (fun watcher => declareSchema (watched watcher) job key node)
      (declareSchema engine job key node) := by
  refine .bind .read fun state => ?_
  cases state.schemas.lookup key with
  | some resolved => exact .pure _
  | none =>
    exact .bind (((h.node _ _).under _).entering _) fun _ =>
      .bind (.infallible (declareType_tidy _) (infallible_declareType _)) fun _ =>
        .bind (.changing fun _ => ⟨rfl, rfl, List.prefix_rfl⟩) fun _ => .pure _

/-- The type of a shared request body is watched. -/
theorem typeOfBody_watched (h : engine.Watched watched) (key : String)
    (body : Referable RequestBody) :
    Watched none (fun watcher => typeOfBody (watched watcher) job key body)
      (typeOfBody engine job key body) := by
  refine .bind (follow_watched _ _ _) fun content => ?_
  cases content.content.jsonSchema? with
  | none => exact .pure _
  | some node =>
    cases node with
    | ref reference => exact referencedType_watched h _
    | inline schema =>
      exact .bind (h.schema _ _) fun _ =>
        .infallible (declareType_tidy _) (infallible_declareType _)

/-- The errors of a shared request body come out of its declaration. -/
theorem settlingBody_watched {type : Watcher → M ComponentType} {step : M ComponentType}
    (h : Watched none type step) (key : String) :
    Watched (some (Declaration.body key).place) (fun watcher => settlingBody key (type watcher))
      (settlingBody key step) := by
  refine .bind .read fun state => ?_
  cases state.bodies.lookup key with
  | some resolved => exact .pure _
  | none =>
    exact .bind ((h.under _).entering _) fun _ =>
      .bind (.changing fun _ => ⟨rfl, rfl, List.prefix_rfl⟩) fun _ => .pure _

/-- What happens inside a body is watched, besides the call for it. -/
theorem declareBody_watched (h : engine.Watched watched) (key : String)
    (body : Referable RequestBody) :
    Watched (some (Declaration.body key).place)
      (fun watcher =>
        settlingBody key (watcher.watching (typeOfBody (watched watcher) job key body)))
      (declareBody engine job key body) := by
  rw [declareBody_eq]
  exact settlingBody_watched (typeOfBody_watched h key body).watching key

/-- One more level of calls is watched too. -/
theorem Engine.Watched.step (h : engine.Watched watched) :
    (Engine.step job engine).Watched fun watcher =>
      Engine.watchedStep watcher job (watched watcher) where
  node _ _ := (messageOfNode_watched h _ _).watching
  schema _ _ := (messageOfSchema_watched h _ _).watching
  absorb _ _ := (absorb_watched h _ _).watching
  component key _ := ((declareSchema_watched h _ _).declaring (.schema key)).watching
  requestBody key _ := ((declareBody_watched h _ _).declaring (.body key)).watching

end

/-- Every call is watched, however many levels of calls there are. -/
theorem Engine.ofLevels_watched (job : Job) (levels : Nat) :
    (Engine.ofLevels job levels).Watched fun watcher => Engine.watched watcher job levels := by
  induction levels with
  | zero => exact .exhausted
  | succ levels ih => exact ih.step

/-! ### Operations -/

section

variable {job : Job} {watched : Watcher → Engine} {engine : Engine}

/-- A parameter that becomes a field is watched. -/
theorem addParameterField_watched (h : engine.Watched watched) (request : MessageDraft)
    (parameter : Parameter) :
    Watched none (fun watcher => (watched watcher).addParameterField job request parameter)
      (engine.addParameterField job request parameter) := by
  refine .ite (.pure _) ?_
  cases parameter.schema with
  | none => exact .bind .place fun _ => .bind (.warn _) fun _ => .pure _
  | some schema => exact (addMember_watched h _ _ _ _ _).within _

/-- The parameters of an operation are watched one after the other. -/
theorem addParameters_watched (h : engine.Watched watched) (item : PathItem)
    (operation : Operation) (request : MessageDraft) :
    Watched none (fun watcher => (watched watcher).addParameters job item operation request)
      (engine.addParameters job item operation request) := by
  refine .bind (.foldlM (fun request node => ?_) _) fun _ => .foldlM (fun request node => ?_) _
  · exact .bind (follow_watched _ _ _) fun _ => .ite (.pure _) (addParameterField_watched h _ _)
  · exact .bind (follow_watched _ _ _) fun _ => addParameterField_watched h _ _

/-- A body that becomes a field is watched. -/
theorem addPayload_watched (h : engine.Watched watched) (message : MessageDraft) (field : String)
    (payload : SchemaNode) (required : Bool) :
    Watched none (fun watcher => (watched watcher).addPayload job message field payload required)
      (engine.addPayload job message field payload required) := by
  cases payload with
  | ref reference => exact addMember_watched h message field (.ref reference) required none
  | inline schema =>
    refine .ite (.bind (h.schema _ _) fun compiled => ?_) (addMember_watched h _ _ _ _ _)
    cases compiled <;> exact .pure _

/-- The request body of an operation is found with no component entered. -/
theorem bodySchema_watched (operation : Operation) :
    Watched none (fun _ => bodySchema job operation) (bodySchema job operation) := by
  unfold bodySchema
  cases operation.requestBody with
  | none => exact .pure _
  | some node => exact .bind (follow_watched _ _ _) fun _ => .pure _

/-- The response of an operation is found with no component entered. -/
theorem successResponse_watched (operation : Operation) :
    Watched none (fun _ => successResponse job operation) (successResponse job operation) := by
  unfold successResponse
  cases operation.response? "200" with
  | none => exact .pure _
  | some node => exact (follow_watched _ _ _).map _

/-- The response message of an operation is watched. -/
theorem compileResponse_watched (h : engine.Watched watched) (name : String)
    (operation : Operation) :
    Watched none (fun watcher => (watched watcher).compileResponse job name operation)
      (engine.compileResponse job name operation) := by
  refine .bind (successResponse_watched _) fun response => ?_
  cases response with
  | none => exact .pure _
  | some response =>
    dsimp only
    cases response.content.jsonSchema? with
    | none => exact .pure _
    | some schema => exact (addPayload_watched h _ _ _ _).within _

/-- The messages of a method are watched, the request before the response. -/
theorem payloads_watched (h : engine.Watched watched) (name : String) (item : PathItem)
    (operation : Operation) :
    Watched none (fun watcher => (watched watcher).payloads job name item operation)
      (engine.payloads job name item operation) := by
  refine .bind (addParameters_watched h _ _ _) fun parameters =>
    .bind (bodySchema_watched _) fun body => ?_
  have hresponse (request : MessageDraft) : Watched none
      (fun watcher => do
        let response ← (watched watcher).compileResponse job (name ++ "Response") operation
        pure (body.isSome, request, response))
      (do
        let response ← engine.compileResponse job (name ++ "Response") operation
        pure (body.isSome, request, response)) :=
    .bind (compileResponse_watched h _ _) fun _ => .pure _
  cases body with
  | none => exact .bind (.pure _) fun _ => hresponse _
  | some body => exact .bind ((addPayload_watched h _ _ _ _).within _) fun _ => hresponse _

/-- Naming the type of a payload leaves the place and the chain as they are. -/
theorem payloadType_tidy (message : MessageDraft) : Tidy (payloadType message) := by
  unfold payloadType
  refine .ite (.bind (.updateFile _) fun _ => .pure _) (.bind .read fun state => ?_)
  exact .ite (.bind (.warn _) fun _ => .bind (.updateFile _) fun _ => .pure _)
    (.bind (.updateFile _) fun _ => .pure _)

/-- Adding a method leaves the place and the chain as they are. -/
theorem finishMethod_tidy (name path : String) (verb : Verb) (item : PathItem)
    (operation : Operation) (payloads : Bool × MessageDraft × MessageDraft) :
    Tidy (finishMethod job name path verb item operation payloads) := by
  refine .bind (payloadType_tidy _) fun _ => .bind (payloadType_tidy _) fun _ => ?_
  exact .ite (.bind (.updateFile _) fun _ => .pure _) (.pure _)

end

end Protoscribe.Compile
