import Protoscribe.Proofs.Compile.EnoughLevels

/-!
# `Protoscribe.Proofs.SkippedOperations`: leaving operations out is like deleting them

Two settings leave operations out: `skipDeprecatedRpc` the deprecated ones, `skipRpc` all of them.
Both do what deleting these operations from the description does (`Document.withoutDeprecated`,
`Document.withoutPaths`). So an operation that is left out takes no method name, declares no
message, imports no file, warns of nothing and cannot fail (`compile_skip_eq_delete`).

Both descriptions have the same components, so one engine serves both jobs
(`Engine.ofLevels_serving`). A job has as many levels of calls as its schemas are deep, and without
some operations they may be less deep, so the runs are compared over the engine with more levels
(`compileDocument_serving`). What remains is the pass over the operations: the rounds that are left
out are rounds that do nothing (`addOperation_serving`).
-/

set_option autoImplicit false

namespace Protoscribe

namespace OpenApi

/-- The path with the operations that pass a check. -/
def PathItem.filterOperations (keep : Operation → Bool) (item : PathItem) : PathItem :=
  { item with
    get := item.get.filter keep
    put := item.put.filter keep
    post := item.post.filter keep
    delete := item.delete.filter keep
    options := item.options.filter keep
    head := item.head.filter keep
    patch := item.patch.filter keep
    trace := item.trace.filter keep }

/-- The description without its deprecated operations. -/
def Document.withoutDeprecated (document : Document) : Document :=
  { document with
    paths := document.paths.map (PathItem.filterOperations fun operation => !operation.deprecated) }

/-- The description without any path. -/
def Document.withoutPaths (document : Document) : Document :=
  { document with paths := .ofList [] }

/-- The operation under a verb stays if it is kept. -/
theorem PathItem.operation?_filterOperations (keep : Operation → Bool) (item : PathItem)
    (verb : Verb) :
    (item.filterOperations keep).operation? verb = (item.operation? verb).filter keep := by
  cases verb <;> rfl

/-- The operations that are kept stay in their order. -/
theorem PathItem.operations_filterOperations (keep : Operation → Bool) (item : PathItem) :
    (item.filterOperations keep).operations =
      item.operations.filter fun entry => keep entry.2 := by
  unfold operations
  rw [List.filter_filterMap]
  refine List.filterMap_congr fun verb _ => ?_
  rw [operation?_filterOperations]
  cases item.operation? verb with
  | none => rfl
  | some operation => simp [Option.filter_some, apply_ite]

/-! ### What is left is not deeper -/

/-- The deepest item is no deeper than a bound for all. -/
theorem deepestOf_le {α : Type} {depth : α → Nat} {items : List α} {bound : Nat}
    (h : ∀ item ∈ items, depth item ≤ bound) : deepestOf depth items ≤ bound := by
  unfold deepestOf
  generalize hstart : 0 = start
  have hbound : start ≤ bound := by omega
  clear hstart
  induction items generalizing start with
  | nil => exact hbound
  | cons first rest ih =>
    refine ih (fun item hitem => h item (List.mem_cons_of_mem _ hitem)) _ ?_
    exact Nat.max_le.mpr ⟨hbound, h first List.mem_cons_self⟩

/-- A path with fewer operations is no deeper. -/
theorem PathItem.depth_filterOperations_le (keep : Operation → Bool) (item : PathItem) :
    (item.filterOperations keep).depth ≤ item.depth := by
  unfold PathItem.depth
  refine Nat.max_le.mpr ⟨Nat.le_max_left _ _, Nat.le_trans (deepestOf_le ?_) (Nat.le_max_right _ _)⟩
  intro entry hentry
  rw [operations_filterOperations] at hentry
  exact le_deepestOf (fun entry : Verb × Operation => entry.2.depth) (List.mem_filter.mp hentry).1

/-- A description without deprecated operations is no deeper. -/
theorem Document.deepest_withoutDeprecated_le (document : Document) :
    document.withoutDeprecated.deepest ≤ document.deepest := by
  refine Nat.max_le.mpr ⟨Nat.le_max_left _ _, deepestOf_le fun entry hentry => ?_⟩
  obtain ⟨original, horiginal, rfl⟩ := List.mem_map.mp hentry
  exact Nat.le_trans (PathItem.depth_filterOperations_le _ _) (pathDepth_le_deepest horiginal)

/-- A description without paths is no deeper. -/
theorem Document.deepest_withoutPaths_le (document : Document) :
    document.withoutPaths.deepest ≤ document.deepest :=
  Nat.max_le.mpr ⟨Nat.le_max_left _ _, Nat.zero_le _⟩

end OpenApi

namespace Compile

open OpenApi (Document Operation PathItem Verb)

/-- The job with other paths, and told otherwise what to leave out. -/
def Job.serving (job : Job) (paths : Table PathItem) (skipRpc skipDeprecatedRpc : Bool) : Job where
  document := { job.document with paths }
  config := { job.config with skipRpc, skipDeprecatedRpc }

section

variable (job : Job) (paths : Table PathItem) (skipRpc skipDeprecatedRpc : Bool)

/-! ### What does not look at the paths -/

/-- The calls between schemas look at the components only. -/
theorem Engine.step_serving :
    Engine.step (job.serving paths skipRpc skipDeprecatedRpc) = Engine.step job :=
  rfl

/-- The calls do not look at the paths, nor at what is skipped. -/
theorem Engine.ofLevels_serving (levels : Nat) :
    Engine.ofLevels (job.serving paths skipRpc skipDeprecatedRpc) levels =
      Engine.ofLevels job levels := by
  unfold Engine.ofLevels
  rw [Engine.step_serving]

/-- Components are declared without a look at the paths. -/
theorem Engine.declareComponents_serving (engine : Engine) :
    engine.declareComponents (job.serving paths skipRpc skipDeprecatedRpc) =
      engine.declareComponents job :=
  rfl

/-- Two jobs over the same components run alike when their passes do, over any engine, and the one
is about no deeper schemas than the other. -/
theorem compileDocument_serving {s : State}
    (hstart : s = { file := startFile job.document job.config })
    (hdeepest : (job.serving paths skipRpc skipDeprecatedRpc).document.deepest ≤
      job.document.deepest)
    (hpasses : ∀ engine : Engine,
      engine.compileDocument (job.serving paths skipRpc skipDeprecatedRpc) =
        engine.compileDocument job) :
    compileDocument (job.serving paths skipRpc skipDeprecatedRpc) s = compileDocument job s := by
  have hlevels : (job.serving paths skipRpc skipDeprecatedRpc).levels ≤ job.levels :=
    Nat.mul_le_mul_left _ (by omega)
  -- the engine with the levels of `job` has enough of them for both
  have hother := compileDocument_ofLevels (job.serving paths skipRpc skipDeprecatedRpc) hlevels
  have hown := compileDocument_ofLevels job (Nat.le_refl _)
  rw [Engine.ofLevels_serving, hpasses] at hother
  subst hstart
  exact hother.symm.trans hown

end

/-! ### Deprecated operations -/

section

variable {job : Job} {engine : Engine}

/-- An operation that is left out does nothing, and one that stays does the same on the path without
those that are left out. -/
theorem addOperation_serving (hskip : job.config.skipDeprecatedRpc = true)
    (paths : Table PathItem) (path : String) (item : PathItem) (service : ServiceDraft)
    (entry : Verb × Operation) :
    engine.addOperation job path item service entry =
      if !entry.2.deprecated then
        engine.addOperation (job.serving paths job.config.skipRpc false) path
          (item.filterOperations fun operation => !operation.deprecated) service entry
      else pure service := by
  obtain ⟨verb, operation⟩ := entry
  unfold Engine.addOperation
  cases hdeprecated : operation.deprecated with
  | true => simp [hskip, hdeprecated]
  | false =>
    simp only [hdeprecated, Bool.false_and, Bool.false_eq_true, if_false, Bool.not_false, if_true]
    rfl

/-- Skipping deprecated operations is the same as not having them, for one path. -/
theorem foldlM_addOperation_serving (hskip : job.config.skipDeprecatedRpc = true)
    (paths : Table PathItem) (path : String) (item : PathItem) (service : ServiceDraft) :
    (item.filterOperations fun operation => !operation.deprecated).operations.foldlM
        (engine.addOperation (job.serving paths job.config.skipRpc false) path
          (item.filterOperations fun operation => !operation.deprecated)) service =
      item.operations.foldlM (engine.addOperation job path item) service := by
  rw [PathItem.operations_filterOperations, List.foldlM_filter]
  congr 1
  funext service entry
  exact (addOperation_serving hskip paths path item service entry).symm

/-- Skipping deprecated operations is the same as not having them. -/
theorem declareService_withoutDeprecated (hskip : job.config.skipDeprecatedRpc = true) :
    engine.declareService
        (job.serving job.document.withoutDeprecated.paths job.config.skipRpc false) =
      engine.declareService job := by
  unfold Engine.declareService
  refine bind_congr fun state => ?_
  have hpaths (service : ServiceDraft) :
      job.document.withoutDeprecated.paths.entries.foldlM
          (fun service entry => entry.2.operations.foldlM
            (engine.addOperation
              (job.serving job.document.withoutDeprecated.paths job.config.skipRpc false)
              entry.1 entry.2) service) service =
        job.document.paths.entries.foldlM
          (fun service entry =>
            entry.2.operations.foldlM (engine.addOperation job entry.1 entry.2) service)
          service := by
    simp only [Document.withoutDeprecated, Table.map, List.foldlM_map]
    congr 1
    funext service entry
    exact foldlM_addOperation_serving hskip _ _ _ _
  exact congrArg (· >>= _) (hpaths _)

/-- The whole run is the same without deprecated operations. -/
theorem compileDocument_withoutDeprecated (hskip : job.config.skipDeprecatedRpc = true) :
    engine.compileDocument
        (job.serving job.document.withoutDeprecated.paths job.config.skipRpc false) =
      engine.compileDocument job := by
  unfold Engine.compileDocument
  rw [declareService_withoutDeprecated hskip]
  rfl

/-! ### All operations -/

/-- A description without paths has no service. -/
theorem declareService_withoutPaths (hpaths : job.document.paths = {}) (s : State) :
    engine.declareService job s = .ok ⟨⟩ s := by
  unfold Engine.declareService
  rw [hpaths]
  rfl

/-- The whole run without a service is the same without paths. -/
theorem compileDocument_withoutPaths (hskip : job.config.skipRpc = true) :
    engine.compileDocument (job.serving {} false job.config.skipDeprecatedRpc) =
      engine.compileDocument job := by
  have hservice : engine.declareService (job.serving {} false job.config.skipDeprecatedRpc) =
      pure ⟨⟩ :=
    funext fun s => declareService_withoutPaths rfl s
  unfold Engine.compileDocument
  rw [Engine.declareComponents_serving, hservice, hskip]
  rfl

end

/-- The same run gives the same result. -/
theorem compile_eq_of_run {document other : Document} {config changed : Config}
    (h : compileDocument ⟨document, config⟩ { file := startFile document config } =
      compileDocument ⟨other, changed⟩ { file := startFile other changed }) :
    compile document config = compile other changed := by
  unfold compile
  rw [h]

/-- Leaving operations out gives what deleting them from the description gives, be it a file with
its warnings or an error: with `skipDeprecatedRpc` the deprecated ones, with `skipRpc` all of them
with their paths. -/
theorem compile_skip_eq_delete (document : Document) (config : Config) :
    compile document { config with skipDeprecatedRpc := true } =
        compile document.withoutDeprecated { config with skipDeprecatedRpc := false } ∧
      compile document { config with skipRpc := true } =
        compile document.withoutPaths { config with skipRpc := false } := by
  constructor
  · have hrun := compileDocument_serving ⟨document, { config with skipDeprecatedRpc := true }⟩
      document.withoutDeprecated.paths config.skipRpc false rfl
      document.deepest_withoutDeprecated_le fun _ => compileDocument_withoutDeprecated rfl
    exact compile_eq_of_run hrun.symm
  · have hrun := compileDocument_serving ⟨document, { config with skipRpc := true }⟩
      {} false config.skipDeprecatedRpc rfl
      document.deepest_withoutPaths_le fun _ => compileDocument_withoutPaths rfl
    exact compile_eq_of_run hrun.symm

end Compile

end Protoscribe
