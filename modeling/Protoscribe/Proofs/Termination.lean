import Mathlib.Data.Prod.Lex
import Mathlib.Data.List.Perm.Subperm
import Protoscribe.Proofs.Compile.MoreLevels
import Protoscribe.Proofs.Compile.Roots

/-!
# `Protoscribe.Proofs.Termination`: every compilation reaches a result

References lead from any component to any other one, and so do names that an inline type and a
component share. Still no run goes on forever. A call either stays in the same components and goes
to a smaller schema, or it goes into one more component, which was not being compiled before
(`Descends`). The names of the components are finitely many, so no sequence of calls goes on forever
(`descends_wellFounded`).

* `Calls.descends`: every step from a call to a call descends.
* `Engine.ofLevels_not_exhausted`: each descent takes at most one level, so an engine does not run
  out when it has more levels than the measure of the first call (`Frame.weight`). The engine of a
  job has that many (`Frame.weight_lt_levels`).
* `compile_terminates`: no compilation runs out of levels. The engine of a job satisfies the
  equations of the recursion, and only with calls that descend.
-/

set_option autoImplicit false

namespace Protoscribe.Compile

open OpenApi (Document Referable RequestBody Schema SchemaNode Section nodeDepth shapeDepth)

variable {job : Job} {engine : Engine} {s : State}

/-! ### The measure -/

/-- The names of the components in the chain. -/
def Job.labels (job : Job) : List String :=
  job.document.components.schemas.keys ++
    job.document.components.requestBodies.keys.map bodyMarker

/-- The size of the schema that a call is about. A node is bigger than the schema that stands in it.
A call for a component is about no schema until the component is entered. -/
def Call.size : Call → Nat
  | .node _ whole => 2 * nodeDepth whole + 1
  | .schema _ whole => 2 * whole.depth
  | .absorb _ variant => 2 * nodeDepth variant + 1
  | .component _ _ => 0
  | .requestBody _ _ => 0

/-- A call stays in the same components and goes to a smaller schema, or it goes into one more
component, which is not being compiled yet. -/
def Descends (job : Job) (caller callee : Frame) : Prop :=
  (callee.chain = caller.chain ∧ callee.call.size < caller.call.size) ∨
    ∃ label ∈ job.labels, label ∉ caller.chain ∧ callee.chain = caller.chain ++ [label]

instance (job : Job) (caller callee : Frame) : Decidable (Descends job caller callee) :=
  inferInstanceAs (Decidable (_ ∨ _))

/-- The number of components that are not being compiled. -/
def Job.remaining (job : Job) (chain : List String) : Nat :=
  (job.labels.filter (· ∉ chain)).length

/-- When a component is entered, one less remains. -/
theorem Job.remaining_lt {chain : List String} {label : String} (hlabel : label ∈ job.labels)
    (hfree : label ∉ chain) : job.remaining (chain ++ [label]) < job.remaining chain := by
  have hfilter : job.labels.filter (· ∉ chain ++ [label]) =
      (job.labels.filter (· ∉ chain)).filter (· ≠ label) := by
    rw [List.filter_filter]
    refine List.filter_congr fun other _ => ?_
    simp [List.mem_append, and_comm]
  rw [remaining, hfilter, remaining, List.length_filter_lt_length_iff_exists]
  exact ⟨label, List.mem_filter.mpr ⟨hlabel, by simpa using hfree⟩, by simp⟩

/-- No sequence of calls descends forever. -/
theorem descends_wellFounded (job : Job) :
    WellFounded fun callee caller : Frame => Descends job caller callee := by
  let measure (frame : Frame) : Nat ×ₗ Nat := toLex (job.remaining frame.chain, frame.call.size)
  refine Subrelation.wf (fun {callee caller} h => ?_) (InvImage.wf measure wellFounded_lt)
  refine Prod.Lex.toLex_lt_toLex.mpr ?_
  rcases h with ⟨hchain, hsize⟩ | ⟨label, hlabel, hfree, hchain⟩
  · exact .inr ⟨congrArg job.remaining hchain, hsize⟩
  · exact .inl (hchain ▸ Job.remaining_lt hlabel hfree)

/-- A bound on how many calls a call leads to, one inside the other. -/
def Frame.weight (job : Job) (frame : Frame) : Nat :=
  job.remaining frame.chain * (2 * job.document.deepest + 2) + frame.call.size

/-- No schema that is called for is bigger than the deepest one of the description. -/
theorem Job.Covers.size_le {call : Call} (h : job.Covers call) :
    call.size ≤ 2 * job.document.deepest + 1 := by
  cases call <;> simp only [Job.Covers, Call.size] at * <;> omega

/-- A call weighs less than the one that it descends from. -/
theorem Descends.weight_lt {caller callee : Frame} (h : Descends job caller callee)
    (hcallee : job.Covers callee.call) : callee.weight job < caller.weight job := by
  unfold Frame.weight
  rcases h with ⟨hchain, hsize⟩ | ⟨label, hlabel, hfree, hchain⟩
  · rw [hchain]
    omega
  · -- one component less outweighs every schema
    have hremaining := Job.remaining_lt hlabel hfree
    rw [← hchain] at hremaining
    have hsize := hcallee.size_le
    calc job.remaining callee.chain * (2 * job.document.deepest + 2) + callee.call.size
        < (job.remaining callee.chain + 1) * (2 * job.document.deepest + 2) := by
          rw [Nat.add_mul]
          omega
      _ ≤ job.remaining caller.chain * (2 * job.document.deepest + 2) :=
          Nat.mul_le_mul_right _ hremaining
      _ ≤ _ := Nat.le_add_right _ _

/-- There is a level for every call that one call can lead to. -/
theorem Frame.weight_lt_levels {frame : Frame} (h : job.Covers frame.call) :
    frame.weight job < job.levels := by
  have hsize := h.size_le
  have hremaining : job.remaining frame.chain ≤
      job.document.components.schemas.size + job.document.components.requestBodies.size := by
    refine Nat.le_trans (List.length_filter_le _ _) (Nat.le_of_eq ?_)
    simp [Job.labels, Table.keys, Table.size]
  calc frame.weight job
      < (job.remaining frame.chain + 1) * (2 * job.document.deepest + 2) := by
        rw [Frame.weight, Nat.add_mul]
        omega
    _ ≤ job.levels := by
        unfold Job.levels
        refine Nat.mul_le_mul ?_ ?_ <;> omega

/-! ### Every call descends -/

/-- The calls for a slot are about schemas that are no bigger than the slot. -/
theorem SlotCalls.size_lt {slot : Slot} {chain : List String} {node : SchemaNode} {call : Call}
    (h : SlotCalls job slot chain node call) : call.size < 2 * (nodeDepth node + 1) := by
  cases h with
  | compile =>
    simp only [Call.size, OpenApi.nodeDepth_inline]
    omega
  | reference _ _ =>
    simp only [Call.size]
    omega
  | namesake _ _ _ _ hcall =>
    cases hcall <;> simp only [Call.size] <;> omega

/-- A schema component has its key in the chain. -/
theorem Job.mem_labels_of_schema {key : String} {node : SchemaNode}
    (h : job.document.components.schemas.find? key = some node) : key ∈ job.labels :=
  List.mem_append_left _ (Table.mem_keys_of_find?_eq_some h)

/-- A request body has its marker in the chain. -/
theorem Job.mem_labels_of_body {key : String} {body : Referable RequestBody}
    (h : job.document.components.requestBodies.find? key = some body) :
    bodyMarker key ∈ job.labels :=
  List.mem_append_right _ (List.mem_map_of_mem (Table.mem_keys_of_find?_eq_some h))

/-- A covered call only makes calls that descend. -/
theorem Calls.descends {caller callee : Frame} (h : Calls job caller callee)
    (hcaller : job.Covers caller.call) : Descends job caller callee := by
  -- a call in place is for a smaller node, and one through a reference puts a new key on the chain
  cases h with
  | inline =>
    refine .inl ⟨rfl, ?_⟩
    simp only [Call.size, OpenApi.nodeDepth_inline]
    omega
  | expand _ htarget hfree => exact .inr ⟨_, Job.mem_labels_of_schema htarget, hfree, rfl⟩
  | absorbInline _ =>
    refine .inl ⟨rfl, ?_⟩
    simp only [Call.size, OpenApi.nodeDepth_inline]
    omega
  | absorbExpand _ htarget hfree => exact .inr ⟨_, Job.mem_labels_of_schema htarget, hfree, rfl⟩
  | value hshape =>
    refine .inl ⟨rfl, ?_⟩
    simp only [Call.size, Schema.depth_eq, hshape, shapeDepth]
    omega
  | variant hshape hvariant _ =>
    refine .inl ⟨rfl, ?_⟩
    have hdepth := OpenApi.nodeDepth_le_nodesDepth hvariant
    simp only [Call.size, Schema.depth_eq, hshape, shapeDepth]
    omega
  | slot hslot hcall =>
    refine .inl ⟨rfl, ?_⟩
    have hdepth := nodeDepth_le_of_mem_memberSlots hslot
    have hsize := hcall.size_lt
    simp only [Schema.depth_eq, Call.size.eq_2]
    omega
  | component hfree => exact .inr ⟨_, Job.mem_labels_of_schema hcaller, hfree, rfl⟩
  | bodyReference hfree _ _ _ _ => exact .inr ⟨_, Job.mem_labels_of_body hcaller, hfree, rfl⟩
  | bodySchema hfree _ _ => exact .inr ⟨_, Job.mem_labels_of_body hcaller, hfree, rfl⟩

/-! ### References inside a section -/

/-- Running out of levels is an error of the recursion. -/
theorem ofRecursion_isExhausted : OfRecursion IsExhausted where
  reference _ _ h := by cases h
  order _ h := by cases h

/-- Following references does not run out of fuel while there is more of it than there are keys that
have not been seen. -/
theorem followFrom_not_exhausted {α : Type} {part : Section} {table : Table (Referable α)}
    {fuel : Nat} {seen : List String} {node : Referable α} (hseen : seen.Nodup)
    (hkeys : seen ⊆ table.keys) (hfuel : table.size < fuel + seen.length) :
    ¬ Fails IsExhausted (followFrom part table fuel seen node) s := by
  -- the keys seen are distinct keys of the table, so there are no more of them than entries
  induction fuel generalizing seen node with
  | zero =>
    have hlength := (List.subperm_of_subset hseen hkeys).length_le
    simp only [Table.keys, List.length_map] at hlength
    simp only [Table.size] at hfuel
    omega
  | succ fuel ih =>
    cases node with
    | inline item => exact not_fails_followFrom_inline
    | ref reference =>
      intro h
      obtain ⟨key, -, ⟨-, hcycle⟩ | ⟨hnew, target, htarget, hrest⟩⟩ :=
        ofRecursion_isExhausted.fails_followFrom_ref h
      · cases hcycle
      · refine ih ?_ ?_ ?_ hrest
        · exact List.nodup_append.mpr ⟨hseen, by simp, by
            rintro first hfirst second hsecond rfl
            exact hnew (List.mem_singleton.mp hsecond ▸ hfirst)⟩
        · exact List.append_subset.mpr
            ⟨hkeys, by simpa using Table.mem_keys_of_find?_eq_some htarget⟩
        · simp only [List.length_append, List.length_singleton]
          omega

/-- Following references needs no level. -/
theorem follow_not_exhausted {α : Type} {part : Section} {table : Table (Referable α)}
    {node : Referable α} : ¬ Fails IsExhausted (follow part table node) s :=
  followFrom_not_exhausted List.nodup_nil (List.nil_subset _) (by simp)

/-- A call that closes a circle does not run out of levels. -/
theorem FailsItself.not_exhausted {frame : Frame} : ¬ FailsItself job IsExhausted frame := by
  intro h
  cases h with
  | expand _ _ _ hbad => cases hbad
  | absorbExpand _ _ _ hbad => cases hbad
  | component _ hbad => cases hbad
  | body _ hbad => cases hbad
  | follow hfollow => exact follow_not_exhausted hfollow

/-! ### Engines with enough levels -/

/-- An engine does not run out when it has more levels than the weight of the call. -/
theorem Engine.ofLevels_not_exhausted {levels : Nat} {call : Call} (hcall : job.Covers call)
    (hs : Justified job s) (hlevels : Frame.weight job ⟨call, s.chain⟩ < levels) :
    ¬ (Engine.ofLevels job levels).Fails IsExhausted call s := by
  induction levels generalizing call s with
  | zero => exact absurd hlevels (Nat.not_lt_zero _)
  | succ levels ih =>
    intro h
    rcases Engine.step_fails (Engine.Sound.ofLevels job levels) ofRecursion_isExhausted h hs with
      hitself | ⟨callee, t, hcalls, ht, -, hfails⟩
    · exact hitself.not_exhausted
    · have hcallee := hcalls.covered hcall
      have hweight : Frame.weight job ⟨callee, t.chain⟩ < Frame.weight job ⟨call, s.chain⟩ :=
        (hcalls.descends hcall).weight_lt hcallee
      have hfewer : Frame.weight job ⟨callee, t.chain⟩ < levels := by omega
      exact ih hcallee ht hfewer hfails

/-- The engine of the job has levels enough for every call. -/
theorem Job.engine_not_exhausted {call : Call} (hcall : job.Covers call) (hs : Justified job s) :
    ¬ job.engine.Fails IsExhausted call s :=
  Engine.ofLevels_not_exhausted hcall hs (Frame.weight_lt_levels hcall)

/-! ### Engines that only descend -/

/-- A call that is only made when it descends from a frame. -/
def onlyBelow {α : Type} (job : Job) (caller : Frame) (call : Call) (step : M α) : M α :=
  fun s => if Descends job caller ⟨call, s.chain⟩ then step s else .error .exhausted s

/-- The engine that answers the calls that descend from a frame, and no other ones. -/
def Engine.descending (engine : Engine) (job : Job) (caller : Frame) : Engine where
  node hint node := onlyBelow job caller (.node hint node) (engine.node hint node)
  schema hint schema := onlyBelow job caller (.schema hint schema) (engine.schema hint schema)
  absorb draft node := onlyBelow job caller (.absorb draft node) (engine.absorb draft node)
  component key node := onlyBelow job caller (.component key node) (engine.component key node)
  requestBody key body :=
    onlyBelow job caller (.requestBody key body) (engine.requestBody key body)

/-- Two engines do the same when the call is made in the state. -/
def Engine.Agrees (engine other : Engine) (call : Call) (s : State) : Prop :=
  match call with
  | .node hint node => engine.node hint node s = other.node hint node s
  | .schema hint schema => engine.schema hint schema s = other.schema hint schema s
  | .absorb draft node => engine.absorb draft node s = other.absorb draft node s
  | .component key node => engine.component key node s = other.component key node s
  | .requestBody key body => engine.requestBody key body s = other.requestBody key body s

section

variable {α : Type} {caller : Frame} {call : Call} {step : M α}

/-- A call that is refused is one that has run out of levels. -/
theorem onlyBelow_below : Below (onlyBelow job caller call step) step := by
  intro s
  by_cases hdescends : Descends job caller ⟨call, s.chain⟩
  · exact .inr (if_pos hdescends)
  · exact .inl ⟨.exhausted, s, if_neg hdescends, rfl⟩

/-- A call that succeeds has been made. -/
theorem onlyBelow_eq_ok {a : α} {s' : State} (h : onlyBelow job caller call step s = .ok a s') :
    step s = .ok a s' := by
  unfold onlyBelow at h
  split at h
  · exact h
  · cases h

/-- A call that descends is made, so it fails by itself. -/
theorem fails_onlyBelow (h : Fails IsExhausted (onlyBelow job caller call step) s)
    (hdescends : Descends job caller ⟨call, s.chain⟩) : Fails IsExhausted step s := by
  unfold Fails onlyBelow at h
  rwa [if_pos hdescends] at h

end

/-- An engine that only descends refuses calls and does nothing else. -/
theorem Engine.descending_below (engine : Engine) (job : Job) (caller : Frame) :
    (engine.descending job caller).Below engine where
  node _ _ := onlyBelow_below
  schema _ _ := onlyBelow_below
  absorb _ _ := onlyBelow_below
  component _ _ := onlyBelow_below
  requestBody _ _ := onlyBelow_below

/-- An engine that only descends is sound, as it answers less. -/
theorem Engine.Sound.descending (h : engine.Sound job) (caller : Frame) :
    (engine.descending job caller).Sound job where
  node hrun hs := h.node (onlyBelow_eq_ok hrun) hs
  schema hrun hs := h.schema (onlyBelow_eq_ok hrun) hs
  absorb hrun hs := h.absorb (onlyBelow_eq_ok hrun) hs
  component hrun hentry hs := h.component (onlyBelow_eq_ok hrun) hentry hs
  requestBody hrun hbody hs := h.requestBody (onlyBelow_eq_ok hrun) hbody hs

/-- A call that descends fails where the engine itself fails. -/
theorem Engine.fails_descending {caller : Frame} {call : Call}
    (h : (engine.descending job caller).Fails IsExhausted call s)
    (hdescends : Descends job caller ⟨call, s.chain⟩) : engine.Fails IsExhausted call s := by
  cases call <;> exact fails_onlyBelow h hdescends

/-- An engine that is below another one agrees with it wherever it does not run out of levels. -/
theorem Engine.Below.agrees {other : Engine} (h : engine.Below other) {call : Call}
    (hfails : ¬ engine.Fails IsExhausted call s) : engine.Agrees other call s := by
  cases call with
  | node hint node => exact (h.node hint node s).resolve_left hfails
  | schema hint schema => exact (h.schema hint schema s).resolve_left hfails
  | absorb draft node => exact (h.absorb draft node s).resolve_left hfails
  | component key node => exact (h.component key node s).resolve_left hfails
  | requestBody key body => exact (h.requestBody key body s).resolve_left hfails

/-- Agreeing goes on from one engine to the next. -/
theorem Engine.Agrees.trans {other third : Engine} {call : Call}
    (h : engine.Agrees other call s) (h' : other.Agrees third call s) :
    engine.Agrees third call s := by
  cases call <;> exact Eq.trans h h'

/-- Agreeing goes both ways. -/
theorem Engine.Agrees.symm {other : Engine} {call : Call} (h : engine.Agrees other call s) :
    other.Agrees engine call s := by
  cases call <;> exact Eq.symm h

/-- One more level of calls that descend is enough for a covered call. -/
theorem Job.engine_step_descending_agrees {call : Call} (hcall : job.Covers call)
    (hs : Justified job s) :
    (Engine.step job (job.engine.descending job ⟨call, s.chain⟩)).Agrees
      (Engine.step job job.engine) call s := by
  refine (job.engine.descending_below job _).step.agrees fun hfails => ?_
  rcases Engine.step_fails (job.engine_sound.descending _) ofRecursion_isExhausted hfails hs with
    hitself | ⟨callee, t, hcalls, ht, -, hfails⟩
  · exact hitself.not_exhausted
  · exact Job.engine_not_exhausted (hcalls.covered hcall) ht
      (Engine.fails_descending hfails (hcalls.descends hcall))

/-- The engine of a job satisfies the equations of the recursion. -/
theorem Job.engine_agrees_step {call : Call} (hcall : job.Covers call) (hs : Justified job s) :
    job.engine.Agrees (Engine.step job job.engine) call s := by
  have hbelow : (Engine.ofLevels job job.levels).Below (Engine.ofLevels job (job.levels + 1)) :=
    Engine.ofLevels_below job (Nat.le_succ _)
  exact hbelow.agrees (Job.engine_not_exhausted hcall hs)

/-! ### Every compilation ends -/

/-- The whole run has levels enough. -/
theorem compileDocument_not_exhausted (job : Job) :
    ¬ Fails IsExhausted (compileDocument job) { file := startFile job.document job.config } := by
  intro h
  rcases fails_bind.mp h with hcomponents | ⟨_, t, hcomponents, h⟩
  · obtain ⟨call, t, hcall, ht, -, hfails⟩ :=
      declareComponents_fails hcomponents (justified_start job)
    exact Job.engine_not_exhausted hcall.covered ht hfails
  · obtain ⟨_, hgrown, -⟩ := declareComponents_sound hcomponents (justified_start job)
    split at h
    · rcases declareService_fails ofRecursion_isExhausted h hgrown.justified with
        hfollow | ⟨call, u, hcall, hu, -, -, hfails⟩
      · cases hfollow with
        | parameters hfollow => exact follow_not_exhausted hfollow
        | bodies hfollow => exact follow_not_exhausted hfollow
        | responses hfollow => exact follow_not_exhausted hfollow
      · exact Job.engine_not_exhausted hcall hu hfails
    · exact not_fails_pure h

/-- Every compilation reaches a result: it does not run out of levels of calls, and neither does any
call that may come up on the way. What such a call does is given by the equations of the recursion,
where each further call is about a smaller schema in the same components, or goes into a component
that was not being compiled. No sequence of such calls goes on forever. -/
theorem compile_terminates (document : Document) (config : Config) :
    compile document config ≠ .error .exhausted ∧
      (WellFounded fun callee caller => Descends ⟨document, config⟩ caller callee) ∧
      ∀ call s, Job.Covers ⟨document, config⟩ call → Justified ⟨document, config⟩ s →
        ¬ (Job.engine ⟨document, config⟩).Fails IsExhausted call s ∧
        (Job.engine ⟨document, config⟩).Agrees
          (Engine.step ⟨document, config⟩
            ((Job.engine ⟨document, config⟩).descending ⟨document, config⟩ ⟨call, s.chain⟩))
          call s := by
  refine ⟨fun h => ?_, descends_wellFounded _, fun call s hcall hs => ⟨?_, ?_⟩⟩
  · unfold compile at h
    split at h
    · cases h
    · rename_i error t hrun
      cases h
      exact compileDocument_not_exhausted ⟨document, config⟩ ⟨.exhausted, t, hrun, rfl⟩
  · exact Job.engine_not_exhausted hcall hs
  · exact (Job.engine_agrees_step hcall hs).trans (Job.engine_step_descending_agrees hcall hs).symm

/-- A description whose components refer to themselves and to each other. -/
def mirrors : Document :=
  descriptionOf
    [("Alias", .ref "#/components/schemas/Alias"),
     ("Left", .inline { shape := .allOf [.ref "#/components/schemas/Right"] [] [] }),
     ("Right", .inline { shape := .map (.ref "#/components/schemas/Left") })]

/-- The mirrors reach a result, and so does the component that is a reference to itself. -/
theorem compile_terminates_mirrors :
    compile mirrors {} ≠ .error .exhausted ∧
      mirrors.components.schemas.find? "Alias" = some (.ref "#/components/schemas/Alias") ∧
      ¬ (Job.engine ⟨mirrors, {}⟩).Fails IsExhausted
        (.component "Alias" (.ref "#/components/schemas/Alias"))
        { file := startFile mirrors {} } := by
  have halias :
      mirrors.components.schemas.find? "Alias" = some (.ref "#/components/schemas/Alias") := by rfl
  obtain ⟨hcompile, -, hcalls⟩ := compile_terminates mirrors {}
  exact ⟨hcompile, halias, (hcalls (.component "Alias" _) _ halias (justified_start _)).1⟩

end Protoscribe.Compile
