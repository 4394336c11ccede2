import Protoscribe.Proofs.Compile.Chronicle
import Protoscribe.Proofs.Compile.Watched

/-!
# `Protoscribe.Proofs.Surroundings`: every step comes back to its surrounding

While schemas are compiled, the run goes into the parts of the description and into components, and
out of them again. The breadcrumb says where it is, and the chain which components it is inside of.
Circles are found by the chain, and errors take their place from the breadcrumb, so both have to be
exact on every path, also on one that an error takes.

`runs_balanced` states that they are, for every routine, from every state, and whether it succeeds
or fails (`Balanced`). The breadcrumb and the chain are left as they were. No entry is added to the
chain that is there already: a run would be the same if it was broken off wherever that happens. And
when a reference names nothing, the error has a place inside the component that is being declared,
the innermost one when there are several.

Which components are being declared when a run fails is what one finds out by changing the errors
that come out of components (`FailsInside`). There is one answer to that (`FailsInside.unique`).
-/

set_option autoImplicit false

namespace Protoscribe.Compile

open OpenApi (Document Operation PathItem Verb)

/-! ### Reports -/

/-- The entries of a chain that is reported. -/
def reportedChain : CompileError → List String
  | .cycle _ chain => chain
  | _ => []

/-- Reports an error by the place of the component that it comes from. -/
def reportPlace (declaration : Declaration) (error : CompileError) : CompileError :=
  .cycle "" (declaration.place ++ reportedChain error)

/-- The report of an error lists the places of the declarations that it came out of. -/
theorem reportedChain_foldr (declarations : List Declaration) (error : CompileError) :
    reportedChain (declarations.foldr reportPlace error) =
      declarations.flatMap Declaration.place ++ reportedChain error := by
  induction declarations with
  | nil => rfl
  | cons declaration inner ih =>
    rw [List.foldr_cons, List.flatMap_cons, List.append_assoc, ← ih]
    rfl

/-- The place of a declaration has three parts. -/
theorem Declaration.length_place (declaration : Declaration) : declaration.place.length = 3 := by
  cases declaration <;> rfl

/-- A declaration is known by its place. -/
theorem Declaration.place_injective : Function.Injective Declaration.place := by
  intro declaration other h
  cases declaration <;> cases other <;> simp_all [Declaration.place]

/-- Places are of one length, so declarations can be told from their places. -/
theorem flatMap_place_injective : Function.Injective (List.flatMap Declaration.place) := by
  intro first
  induction first with
  | nil =>
    intro second h
    cases second with
    | nil => rfl
    | cons declaration inner => cases declaration <;> cases h
  | cons declaration inner ih =>
    intro second h
    cases second with
    | nil => cases declaration <;> cases h
    | cons other rest =>
      simp only [List.flatMap_cons] at h
      obtain ⟨hplace, hinner⟩ := List.append_inj h (by simp only [Declaration.length_place])
      rw [Declaration.place_injective hplace, ih hinner]

/-- What an error comes out of can be told from the report by places. -/
theorem eq_of_foldr_reportPlace {first second : List Declaration} {error : CompileError}
    (h : first.foldr reportPlace error = second.foldr reportPlace error) : first = second := by
  have hchain := congrArg reportedChain h
  rw [reportedChain_foldr, reportedChain_foldr] at hchain
  exact flatMap_place_injective (List.append_cancel_right hchain)

/-! ### Balanced runs -/

/-- The method for an operation, over an engine. -/
def Engine.methodFor (self : Engine) (job : Job) (name path : String) (verb : Verb)
    (item : PathItem) (operation : Operation) : M MethodDraft :=
  self.payloads job name item operation >>= finishMethod job name path verb item operation

section

variable {α : Type} (job : Job) (levels : Nat) (routine : Engine → M α) (s : State)

/-- The routine fails with the error while the components are being declared, the outermost first.
So whatever components report for an error, the run ends with the report of the first one about the
report of the second one, and so on. -/
def FailsInside (error : CompileError) (declarations : List Declaration) : Prop :=
  ∀ report, ∃ t, routine (Engine.watched ⟨fun _ => none, report⟩ job levels) s =
    .error (declarations.foldr report error) t

/-- What a run of a routine does to the breadcrumb and to the chain. -/
structure Balanced : Prop where
  scope : (stateAfter (routine (Engine.ofLevels job levels)) s).scope = s.scope
  chain : (stateAfter (routine (Engine.ofLevels job levels)) s).chain = s.chain
  /-- On the way, the chain only goes on with new entries, each of them once: the run is the same
  when it is broken off in other states, with whatever error. -/
  unbroken : ∀ alarm : State → Option CompileError, (∀ t, Deepens s.chain t → alarm t = none) →
    routine (Engine.watched ⟨alarm, fun _ error => error⟩ job levels) s =
      routine (Engine.ofLevels job levels) s
  /-- When the run fails, certain components are being declared. -/
  declarations : ∀ error t, routine (Engine.ofLevels job levels) s = .error error t →
    ∃! declarations, FailsInside job levels routine s error declarations
  /-- A reference that names nothing is reported inside the innermost of these components. -/
  context : ∀ reference place t outer innermost,
    routine (Engine.ofLevels job levels) s = .error (.unresolvedReference reference place) t →
    FailsInside job levels routine s (.unresolvedReference reference place)
      (outer ++ [innermost]) →
    ∃ rest, place = ".".intercalate (innermost.place ++ rest)
  /-- When there are none, it is reported inside the place where the run started. -/
  ownContext : ∀ reference place t,
    routine (Engine.ofLevels job levels) s = .error (.unresolvedReference reference place) t →
    FailsInside job levels routine s (.unresolvedReference reference place) [] →
    ∃ rest, place = placeOf (s.scope ++ rest)

end

section

variable {α : Type} {job : Job} {levels : Nat} {routine : Engine → M α} {s : State}

/-- The declarations that an error comes out of are determined. -/
theorem FailsInside.unique {error : CompileError} {first second : List Declaration}
    (h : FailsInside job levels routine s error first)
    (h' : FailsInside job levels routine s error second) : first = second := by
  obtain ⟨t, ht⟩ := h reportPlace
  obtain ⟨u, hu⟩ := h' reportPlace
  have hreports := ht.symm.trans hu
  simp only [EStateM.Result.error.injEq] at hreports
  exact eq_of_foldr_reportPlace hreports.1

/-- A watcher who reports every error as it is changes nothing. -/
theorem adaptExcept_foldr_id (declarations : List Declaration) (step : M α) (s : State) :
    step.adaptExcept (declarations.foldr fun _ error => error) s = step s := by
  have hkept (error : CompileError) :
      declarations.foldr (fun _ error => error) error = error := by
    induction declarations with
    | nil => rfl
    | cons declaration inner ih => exact ih
  cases hrun : step s with
  | ok a t => exact adaptExcept_of_ok hrun
  | error error t => rw [adaptExcept_of_error hrun, hkept]

/-- A routine that is watched is balanced. -/
theorem Watched.balanced
    (h : Watched none (fun watcher => routine (Engine.watched watcher job levels))
      (routine (Engine.ofLevels job levels))) (s : State) : Balanced job levels routine s := by
  obtain ⟨declarations, hseen, hplace⟩ := h.seen (Deepens.refl s)
  have hinside {error : CompileError} {t : State}
      (hrun : routine (Engine.ofLevels job levels) s = .error error t) :
      FailsInside job levels routine s error declarations := fun report =>
    ⟨t, (hseen ⟨fun _ => none, report⟩ fun _ _ => rfl).trans (adaptExcept_of_error hrun)⟩
  refine
    { scope := (h.tidy s).scope
      chain := (h.tidy s).chain
      unbroken := fun alarm hspares => ?_
      declarations := fun error t hrun => ⟨declarations, hinside hrun, fun other hother => ?_⟩
      context := fun reference place t outer innermost hrun hfails => ?_
      ownContext := fun reference place t hrun hfails => ?_ }
  -- errors are reported as they are, so only an alarm could show
  · rw [hseen ⟨alarm, fun _ error => error⟩ hspares]
    exact adaptExcept_foldr_id declarations _ s
  · exact hother.unique (hinside hrun)
  · obtain ⟨rest, rfl⟩ := hplace hrun
    refine ⟨rest, ?_⟩
    rw [← hfails.unique (hinside hrun)]
    simp only [placeInside, List.map_append, List.map_cons, List.map_nil, List.getLastD_concat]
    cases innermost <;> rfl
  · obtain ⟨rest, rfl⟩ := hplace hrun
    rw [← hfails.unique (hinside hrun)]
    exact ⟨rest, rfl⟩

end

/-- Schemas, nodes, variants of `allOf`, members, components, request bodies and operations are
compiled by balanced runs, from every state and with any number of levels of calls. What a call of
an engine does is said by `Engine.step`, and an operation is compiled over the engine of its job. -/
theorem runs_balanced (job : Job) (levels : Nat) (s : State) :
    (∀ hint schema, Balanced job levels (·.schema hint schema) s) ∧
    (∀ hint node, Balanced job levels (·.node hint node) s) ∧
    (∀ draft node, Balanced job levels (·.absorb draft node) s) ∧
    (∀ parent name property required comment,
      Balanced job levels (addMember · job parent name property required comment) s) ∧
    (∀ key node, Balanced job levels (·.component key node) s) ∧
    (∀ key body, Balanced job levels (·.requestBody key body) s) ∧
    ∀ name path verb item operation,
      Balanced job levels (·.methodFor job name path verb item operation) s ∧
        job.engine.methodFor job name path verb item operation =
          methodFor job name path verb item operation := by
  -- every function of the engine has a watched run that is equal to its own
  have h := Engine.ofLevels_watched job levels
  refine ⟨fun _ _ => (h.schema _ _).balanced s, fun _ _ => (h.node _ _).balanced s,
    fun _ _ => (h.absorb _ _).balanced s,
    fun _ _ _ _ _ => (addMember_watched h _ _ _ _ _).balanced s,
    fun _ _ => (h.component _ _).balanced s, fun _ _ => (h.requestBody _ _).balanced s,
    fun name path verb item operation =>
      ⟨?_, (methodFor_eq job name path verb item operation).symm⟩⟩
  have hmethod : Watched none
      (fun watcher =>
        (Engine.watched watcher job levels).methodFor job name path verb item operation)
      ((Engine.ofLevels job levels).methodFor job name path verb item operation) :=
    .bind (payloads_watched h _ _ _) fun _ =>
      .infallible (finishMethod_tidy _ _ _ _ _ _) (infallible_finishMethod _ _ _ _ _ _)
  exact hmethod.balanced s

/-- Does a step fail with an error? -/
def failsWith {α : Type} (step : M α) (s : State) (error : CompileError) : Bool :=
  match step s with
  | .ok _ _ => false
  | .error found _ => found == error

/-- A step that has been run to a checked error fails with it. -/
theorem exists_of_failsWith {α : Type} {step : M α} {s : State} {error : CompileError}
    (h : failsWith step s error = true) : ∃ t, step s = .error error t := by
  unfold failsWith at h
  split at h
  · cases h
  · rename_i found t hrun
    exact ⟨t, by rw [hrun, eq_of_beq h]⟩

/-- A postcard with a stamp, whose ink is not there. -/
def inklessStamp : Document :=
  descriptionOf
    [("Postcard", objectNode [("stamp", .ref "#/components/schemas/Stamp")]),
     ("Stamp", objectNode [("ink", .ref "#/components/schemas/Ink")])]

/-- The postcard is declared while an album is, and fails for the ink. The error has a place inside
the stamp, which is declared inside the postcard, and the run is back at the album. -/
theorem runs_balanced_postcard :
    let job : Job := ⟨inklessStamp, {}⟩
    let card := objectNode [("stamp", .ref "#/components/schemas/Stamp")]
    let start : State :=
      { file := startFile inklessStamp {}, chain := ["Album"],
        scope := ["paths", "/albums", "get"] }
    let error : CompileError := .unresolvedReference "#/components/schemas/Ink"
      "components.schemas.Stamp.properties.ink"
    ∃ t, job.engine.component "Postcard" card start = .error error t ∧
      t.scope = ["paths", "/albums", "get"] ∧ t.chain = ["Album"] ∧
      FailsInside job job.levels (·.component "Postcard" card) start error
        [.schema "Postcard", .schema "Stamp"] ∧
      ∃ rest, "components.schemas.Stamp.properties.ink" =
        ".".intercalate ((Declaration.schema "Stamp").place ++ rest) := by
  intro job card start error
  obtain ⟨-, -, -, -, hcomponent, -⟩ := runs_balanced job job.levels start
  have hbalanced := hcomponent "Postcard" card
  obtain ⟨t, hrun⟩ : ∃ t, job.engine.component "Postcard" card start = .error error t :=
    exists_of_failsWith (by decide +kernel)
  -- one watched run is enough to find the declarations, as they are the same for all reports
  obtain ⟨u, hwatched⟩ : ∃ u,
      (Engine.watched ⟨fun _ => none, reportPlace⟩ job job.levels).component "Postcard" card start =
        .error ([.schema "Postcard", .schema "Stamp"].foldr reportPlace error) u :=
    exists_of_failsWith (by decide +kernel)
  have hinside : FailsInside job job.levels (·.component "Postcard" card) start error
      [.schema "Postcard", .schema "Stamp"] := by
    obtain ⟨declarations, hdeclarations, -⟩ := hbalanced.declarations error t hrun
    obtain ⟨v, hreported⟩ := hdeclarations reportPlace
    have hreports := hwatched.symm.trans hreported
    simp only [EStateM.Result.error.injEq] at hreports
    rwa [eq_of_foldr_reportPlace hreports.1]
  have hafter : stateAfter (job.engine.component "Postcard" card) start = t :=
    stateAfter_of_error hrun
  exact ⟨t, hrun, hafter ▸ hbalanced.scope, hafter ▸ hbalanced.chain, hinside,
    hbalanced.context _ _ t [.schema "Postcard"] (.schema "Stamp") hrun hinside⟩

end Protoscribe.Compile
