import Mathlib.Data.List.Forall2
import Protoscribe.Compile.Operation
import Protoscribe.Proofs.Compile.Run
import Protoscribe.Proofs.Draft.Registry

/-!
# `Protoscribe.Proofs.Compile.Served`: which operations get a method

The operations of a description are visited path by path, and of each path verb by verb
(`Document.endpoints`). An operation that is skipped gets no method, and of several operations with
one method name only the first one does (`servedAmong`). The method names that are taken in the
service say which operations are served already (`hasMethod_eq`), so each visit makes the list of
the served operations longer by one or leaves it as it is (`servedAmong_concat`).
`foldlM_visits` takes what the visits keep to the end of a loop.
-/

set_option autoImplicit false

namespace Protoscribe

namespace OpenApi

/-- An operation of a description, with the path and the verb that it is found under. -/
structure Endpoint where
  path : String
  verb : Verb
  operation : Operation

/-- The operations under a path, in the order of the verbs. -/
def PathItem.endpoints (path : String) (item : PathItem) : List Endpoint :=
  Verb.all.filterMap fun verb => (item.operation? verb).map fun operation => ⟨path, verb, operation⟩

/-- The endpoints under a path are its operations, with the path beside each. -/
theorem PathItem.endpoints_eq_map (path : String) (item : PathItem) :
    item.endpoints path = item.operations.map fun entry => ⟨path, entry.1, entry.2⟩ := by
  rw [operations, List.map_filterMap]
  simp only [endpoints, Option.map_map]
  rfl

/-- The operations of a description, in the order of the paths. -/
def Document.endpoints (document : Document) : List Endpoint :=
  document.paths.entries.flatMap fun entry => entry.2.endpoints entry.1

end OpenApi

namespace ServiceDraft

/-- The registry of a service has the names of its methods. -/
def InStep (service : ServiceDraft) : Prop :=
  service.takenMethods.Registers (service.methods.map (·.name))

variable {service : ServiceDraft}

/-- In a service in step, a name is taken when a method has it. -/
theorem InStep.hasMethod_iff (h : service.InStep) {name : String} :
    service.hasMethod name = true ↔ ∃ method ∈ service.methods, method.name = name :=
  (h name).trans List.mem_map

/-- A service without methods is in step when no name is taken. -/
theorem InStep.of_nil (hmethods : service.methods = []) (htaken : service.takenMethods = .empty) :
    service.InStep := by
  rw [ServiceDraft.InStep, hmethods, htaken]
  exact Registry.registers_empty

/-- The name of a method that comes in is taken. -/
theorem InStep.addMethod (h : service.InStep) (method : MethodDraft) :
    (service.addMethod method).InStep := by
  unfold ServiceDraft.addMethod
  split
  · exact h
  · exact Registry.Registers.take h fun name => by simp

end ServiceDraft

namespace Compile

open OpenApi (Document Endpoint Operation PathItem Verb)

namespace Job

/-- Is an operation left out because it is deprecated? -/
def skips (job : Job) (endpoint : Endpoint) : Bool :=
  endpoint.operation.deprecated && job.config.skipDeprecatedRpc

/-- Do two operations have one method name? -/
def collide (job : Job) (endpoint other : Endpoint) : Bool :=
  job.methodName endpoint.path endpoint.verb == job.methodName other.path other.verb

/-- The operations that get a method: of those that are not skipped, the first one of each method
name. -/
def servedAmong (job : Job) (endpoints : List Endpoint) : List Endpoint :=
  (endpoints.filter fun endpoint => !job.skips endpoint).eraseDupsBy job.collide

end Job

/-! ### First ones -/

/-- The last item stays when none of the items that stay repeats it. -/
theorem eraseDupsBy_concat {α : Type} (same : α → α → Bool) (items : List α) (item : α) :
    (items ++ [item]).eraseDupsBy same =
      if (items.eraseDupsBy same).any (same item) then items.eraseDupsBy same
      else items.eraseDupsBy same ++ [item] := by
  -- the loop of `eraseDupsBy` keeps what stays in reverse
  have hloop : ∀ kept, List.eraseDupsBy.loop same (items ++ [item]) kept =
      if (List.eraseDupsBy.loop same items kept).any (same item)
      then List.eraseDupsBy.loop same items kept
      else List.eraseDupsBy.loop same items kept ++ [item] := by
    induction items with
    | nil =>
      intro kept
      cases hrepeated : kept.any (same item) <;> simp [List.eraseDupsBy.loop, hrepeated]
    | cons first rest ih =>
      intro kept
      cases hrepeated : kept.any (same first) <;> simp [List.eraseDupsBy.loop, hrepeated, ih]
  exact hloop []

section

variable {job : Job} {endpoint : Endpoint} {visited : List Endpoint}

/-- A visit of an operation that is skipped changes nothing. -/
theorem Job.servedAmong_of_skips (hskips : job.skips endpoint = true) :
    job.servedAmong (visited ++ [endpoint]) = job.servedAmong visited := by
  simp [servedAmong, hskips]

/-- Any other operation is served unless its method name is that of a served one. -/
theorem Job.servedAmong_concat (hskips : job.skips endpoint = false) :
    job.servedAmong (visited ++ [endpoint]) =
      if (job.servedAmong visited).any (job.collide endpoint) then job.servedAmong visited
      else job.servedAmong visited ++ [endpoint] := by
  rw [servedAmong, List.filter_append, List.filter_cons_of_pos (by simp [hskips]), List.filter_nil,
    eraseDupsBy_concat]
  rfl

/-- A method name is taken when a served operation has it. -/
theorem hasMethod_eq {service : ServiceDraft} (hstep : service.InStep) {served : List Endpoint}
    (hnames : List.Forall₂ (fun endpoint method =>
      method.name = job.methodName endpoint.path endpoint.verb) served service.methods)
    (endpoint : Endpoint) :
    service.hasMethod (job.methodName endpoint.path endpoint.verb) =
      served.any (job.collide endpoint) := by
  have htaken : service.hasMethod (job.methodName endpoint.path endpoint.verb) =
      service.methods.any fun method =>
        method.name == job.methodName endpoint.path endpoint.verb := by
    rw [Bool.eq_iff_iff, hstep.hasMethod_iff]
    simp
  rw [htaken]
  generalize service.methods = methods at hnames
  -- operation by operation, with its method beside it
  induction hnames with
  | nil => rfl
  | cons hfirst _ ih => rw [List.any_cons, List.any_cons, ih, hfirst, Job.collide, BEq.comm]

end

/-! ### Loops -/

/-- What each round says of the items visited so far and those of its own, the loop says of all. -/
theorem foldlM_visits {α β γ : Type} {round : α → γ → M α} (visits : γ → List β)
    {P : List β → State → α → Prop} {items : List γ}
    (hround : ∀ {visited a item b s s'}, item ∈ items → round a item s = .ok b s' →
      P visited s a → P (visited ++ visits item) s' b)
    {visited : List β} {init result : α} {s s' : State}
    (h : items.foldlM round init s = .ok result s') (hinit : P visited s init) :
    P (visited ++ items.flatMap visits) s' result := by
  -- over the rounds, with what has been visited so far growing along
  induction items generalizing visited init s with
  | nil =>
    obtain ⟨rfl, rfl⟩ := foldlM_nil_eq_ok.mp h
    simpa using hinit
  | cons item rest ih =>
    obtain ⟨next, t, hfirst, hrest⟩ := foldlM_cons_eq_ok.mp h
    have hnext := ih (fun hmem => hround (List.mem_cons_of_mem _ hmem)) hrest
      (hround (List.mem_cons_self ..) hfirst hinit)
    rwa [List.append_assoc, ← List.flatMap_cons] at hnext

end Compile

end Protoscribe
