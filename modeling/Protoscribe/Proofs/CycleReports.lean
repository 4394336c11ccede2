import Protoscribe.Proofs.Compile.Needs

/-!
# `Protoscribe.Proofs.CycleReports`: when a cycle is reported

A compilation that enters a component for the second time reports a cycle. The report is right when
the component refers to itself, directly or through other components. But a component is also
entered for its name: an inline type with the name of a component has the component compiled first.
So the components that are being compiled lead to each other by what they demand (`Demands`), and
only the last step, which closes the circle, has to be a reference.

`cycle_not_reported`: no cycle is reported when no reference closes a circle of demands, and no
schema component has a key like the name that a request body has in the chain. Where no inline type
has the name of a component, demands are references, and this says that no cycle is reported unless
there is one.

The components come first (`Engine.ofLevels_tracked`). When the operations follow, every component
is known, so only references add to the chain (`Engine.ofLevels_rooted`).
-/

set_option autoImplicit false

namespace Protoscribe.Compile

open OpenApi (Document Referable RequestBody Schema SchemaNode Section)
open Relation (ReflTransGen)

/-- The error that reports a cycle. -/
def IsCycle (error : CompileError) : Prop :=
  ∃ name chain, error = .cycle name chain

/-- A cycle is an error of the recursion. -/
theorem ofRecursion_isCycle : OfRecursion IsCycle where
  reference _ _ h := by
    obtain ⟨_, _, h⟩ := h
    cases h
  order _ h := by
    obtain ⟨_, _, h⟩ := h
    cases h

variable {job : Job} {s : State}

/-- An engine without levels reports no cycle. -/
theorem Engine.exhausted_not_cycle {call : Call} : ¬ Engine.exhausted.Fails IsCycle call s := by
  intro h
  cases call <;> obtain ⟨_, _, hcycle⟩ := fails_throw.mp h <;> cases hcycle

/-! ### References inside a section -/

/-- Following references from one component to the next reports no cycle when no reference closes a
circle. -/
theorem followFrom_not_cycle {α : Type} {part : Section} {table : Table (Referable α)} {fuel : Nat}
    {seen : List String} {key : String} {node : Referable α}
    (hreferences : ∀ source target, RefersTo job.document source target →
      ¬ ReflTransGen (RefersTo job.document) target source)
    (htable : ∀ {key reference}, table.find? key = some (.ref reference) →
      Occurs job.document (part, key) reference)
    (hnode : table.find? key = some node)
    (hseen : ∀ earlier ∈ seen, ReflTransGen (RefersTo job.document) (part, earlier) (part, key)) :
    ¬ Fails IsCycle (followFrom part table fuel seen node) s := by
  -- references lead from every key seen so far to the present one
  induction fuel generalizing seen key node with
  | zero =>
    cases node with
    | inline item => exact not_fails_followFrom_inline
    | ref reference =>
      intro h
      obtain ⟨_, _, hcycle⟩ := fails_throw.mp h
      cases hcycle
  | succ fuel ih =>
    cases node with
    | inline item => exact not_fails_followFrom_inline
    | ref reference =>
      intro h
      obtain ⟨next, hkey, hstep⟩ := ofRecursion_isCycle.fails_followFrom_ref h
      have hrefers : RefersTo job.document (part, key) (part, next) :=
        (htable hnode).refersTo hkey
      rcases hstep with ⟨hclosed, -⟩ | ⟨-, target, htarget, hrest⟩
      · exact hreferences _ _ hrefers (hseen next hclosed)
      · refine ih htarget (fun earlier hearlier => ?_) hrest
        rcases List.mem_append.mp hearlier with hold | hnew
        · exact (hseen earlier hold).tail hrefers
        · cases List.mem_singleton.mp hnew
          exact .refl

/-- Following references reports no cycle if they do not lead back. -/
theorem follow_not_cycle {α : Type} {part : Section} {table : Table (Referable α)}
    {node : Referable α}
    (hreferences : ∀ source target, RefersTo job.document source target →
      ¬ ReflTransGen (RefersTo job.document) target source)
    (htable : ∀ {key reference}, table.find? key = some (.ref reference) →
      Occurs job.document (part, key) reference) :
    ¬ Fails IsCycle (follow part table node) s := by
  cases node with
  | inline item => exact not_fails_followFrom_inline
  | ref reference =>
    intro h
    -- the first reference cannot close a circle, as no key has been seen
    obtain ⟨key, -, ⟨hclosed, -⟩ | ⟨-, target, htarget, hrest⟩⟩ :=
      ofRecursion_isCycle.fails_followFrom_ref h
    · exact absurd hclosed List.not_mem_nil
    · exact followFrom_not_cycle hreferences htable htarget (by simp [ReflTransGen.refl]) hrest

/-! ### Components -/

/-- A request body is known by its marker in the chain. -/
theorem bodyMarker_injective : Function.Injective bodyMarker := by
  intro key other h
  exact (String.append_right_inj _).mp h

/-- A name in the chain belongs to one component, when no schema has the name of a request body. -/
theorem Labels.unique (hmarkers : ∀ key ∈ job.document.components.schemas.keys,
      ∀ body ∈ job.document.components.requestBodies.keys, key ≠ bodyMarker body)
    {label : String} {component other : Component} (h : Labels job label component)
    (hother : Labels job label other) : component = other := by
  generalize hlabel : label = name at hother
  cases h with
  | @schema key hkey =>
    cases hother with
    | schema _ => rw [hlabel]
    | body hbody => exact absurd hlabel (hmarkers _ hkey _ hbody)
  | @body key hkey =>
    cases hother with
    | schema hschema => exact absurd hlabel.symm (hmarkers _ hschema _ hkey)
    | body _ => rw [bodyMarker_injective hlabel]

section

variable (hmarkers : ∀ key ∈ job.document.components.schemas.keys,
    ∀ body ∈ job.document.components.requestBodies.keys, key ≠ bodyMarker body)
  (hreferences : ∀ source target, RefersTo job.document source target →
    ¬ ReflTransGen (Demands job) target source)

include hmarkers hreferences

/-- No reference from the end of a chain leads back into it. -/
theorem EachDemands.not_mem {chain : List String} {label : String} {source component : Component}
    (hchain : EachDemands job chain source) (hrefers : RefersTo job.document source component)
    (hlabel : Labels job label component) : label ∉ chain := by
  intro hmem
  obtain ⟨origin, horigin, hpath⟩ := hchain label hmem
  cases hlabel.unique hmarkers horigin
  exact hreferences _ _ hrefers hpath

/-- A reference inside a component names no component in the chain. -/
theorem Inside.not_mem {component : Component} {call : Call} {chain : List String}
    {reference key : String} {target : SchemaNode} (hinside : Inside job component call)
    (hchain : EachDemands job chain component) (hmentions : call.Mentions reference)
    (hkey : Section.schemas.key? reference = some key)
    (htarget : job.document.components.schemas.find? key = some target) : key ∉ chain := by
  obtain ⟨origin, hpath, hoccurs⟩ := hinside.occurs hmentions
  exact (hchain.trans (demands_of_refersTo hpath)).not_mem hmarkers hreferences
    (hoccurs.refersTo hkey) (.schema (Table.mem_keys_of_find?_eq_some htarget))

/-- A call that is tracked closes no circle itself. -/
theorem Tracked.not_failsItself {frame : Frame} (h : Tracked job frame) :
    ¬ FailsItself job IsCycle frame := by
  intro hfails
  -- a key that is met again would close a cycle of references
  cases h with
  | inside hinside hchain =>
    cases hfails with
    | expand hkey htarget hmem _ =>
      exact hinside.not_mem hmarkers hreferences hchain .here hkey htarget hmem
    | absorbExpand hkey htarget hmem _ =>
      exact hinside.not_mem hmarkers hreferences hchain .here hkey htarget hmem
    | _ => cases hinside.component?_eq_none
  | declared hcall hentry hchain hclosed =>
    cases hfails with
    | component hmem _ =>
      cases hcall
      have hlabel : Labels job _ _ := .schema (Table.mem_keys_of_find?_eq_some hentry)
      obtain ⟨source, hrefers, hsource⟩ := hclosed _ hmem hlabel
      exact hsource.not_mem hmarkers hreferences hrefers hlabel hmem
    | body hmem _ =>
      cases hcall
      have hlabel : Labels job _ _ := .body (Table.mem_keys_of_find?_eq_some hentry)
      obtain ⟨source, hrefers, hsource⟩ := hclosed _ hmem hlabel
      exact hsource.not_mem hmarkers hreferences hrefers hlabel hmem
    | follow hfollow =>
      exact follow_not_cycle (fun source target hrefers hpath =>
        hreferences source target hrefers (demands_of_refersTo hpath)) .body hfollow
    | _ => cases hcall

/-- Calls that come from components report no cycle. -/
theorem Engine.ofLevels_tracked {levels : Nat} {call : Call} (h : Tracked job ⟨call, s.chain⟩)
    (hs : Justified job s) : ¬ (Engine.ofLevels job levels).Fails IsCycle call s := by
  induction levels generalizing call s with
  | zero => exact Engine.exhausted_not_cycle
  | succ levels ih =>
    intro hfails
    rcases Engine.step_fails (Engine.Sound.ofLevels job levels) ofRecursion_isCycle hfails hs with
      hitself | ⟨callee, t, hcalls, ht, -, hfails⟩
    · exact h.not_failsItself hmarkers hreferences hitself
    · exact ih (hcalls.tracked h) ht hfails

end

/-! ### Operations -/

/-- Every component has been compiled. -/
structure AllKnown (job : Job) (facts : Facts) : Prop where
  schemas : ∀ key ∈ job.document.components.schemas.keys,
    ∃ result, facts.schemas.lookup key = some result
  bodies : ∀ key ∈ job.document.components.requestBodies.keys,
    ∃ result, facts.bodies.lookup key = some result

/-- Components that are settled stay so. -/
theorem AllKnown.mono {facts later : Facts} (h : AllKnown job facts) (hle : facts ≤ later) :
    AllKnown job later where
  schemas key hkey :=
    have ⟨result, hresult⟩ := h.schemas key hkey
    ⟨result, lookup_of_extended hle.schemas hresult⟩
  bodies key hkey :=
    have ⟨result, hresult⟩ := h.bodies key hkey
    ⟨result, lookup_of_extended hle.bodies hresult⟩

/-- A call for a component that is known does not fail. -/
theorem AllKnown.not_fails (hknown : AllKnown job s.facts) (hs : Justified job s) {levels : Nat}
    {call : Call} {component : Component} (hcall : call.component? = some component)
    (hcovers : job.Covers call) : ¬ (Engine.ofLevels job levels).Fails IsCycle call s := by
  cases levels with
  | zero => exact Engine.exhausted_not_cycle
  | succ levels =>
    intro hfails
    cases call with
    | component key node =>
      obtain ⟨result, hresult⟩ := hknown.schemas key (Table.mem_keys_of_find?_eq_some hcovers)
      cases hresult.symm.trans (declareSchema_fails hfails hs).1
    | requestBody key body =>
      obtain ⟨result, hresult⟩ := hknown.bodies key (Table.mem_keys_of_find?_eq_some hcovers)
      cases hresult.symm.trans (declareBody_fails ofRecursion_isCycle hfails hs).1
    | _ => cases hcall

/-- What holds of a call that is about a schema and comes from an operation: it is inside no
component, or inside one that the components in the chain lead to by references. -/
inductive Rooted (job : Job) : Frame → Prop
  | outside {call : Call} (hcall : call.component? = none) : Rooted job ⟨call, []⟩
  | inside {component : Component} {call : Call} {chain : List String}
      (hcall : call.component? = none)
      (hoccurs : ∀ reference, call.Mentions reference → Occurs job.document component reference)
      (hchain : ∀ key ∈ chain, ReflTransGen (RefersTo job.document) (.schemas, key) component) :
      Rooted job ⟨call, chain⟩

/-- A rooted call is not the call of a component. -/
theorem Rooted.component?_eq_none {frame : Frame} (h : Rooted job frame) :
    frame.call.component? = none := by
  cases h with
  | outside hcall => exact hcall
  | inside hcall _ _ => exact hcall

/-- A schema component that a reference asks for is expanded. -/
theorem Rooted.expand {call callee : Call} {chain : List String} {reference key : String}
    {target : SchemaNode} (h : Rooted job ⟨call, chain⟩) (hmentions : call.Mentions reference)
    (hkey : Section.schemas.key? reference = some key)
    (htarget : job.document.components.schemas.find? key = some target)
    (hcallee : callee.component? = none)
    (htargets : ∀ reference, callee.Mentions reference → OccursIn target reference) :
    Rooted job ⟨callee, chain ++ [key]⟩ := by
  refine .inside hcallee (fun other hother => .schema htarget (htargets other hother))
    fun earlier hearlier => ?_
  rcases List.mem_append.mp hearlier with hold | hnew
  · cases h with
    | outside _ => simp at hold
    | inside _ hoccurs hchain =>
      exact (hchain earlier hold).tail ((hoccurs reference hmentions).refersTo hkey)
  · cases List.mem_singleton.mp hnew
    exact .refl

/-- A call inside a rooted one that mentions no more is rooted. -/
theorem Rooted.same {call callee : Call} {chain : List String} (h : Rooted job ⟨call, chain⟩)
    (hcallee : callee.component? = none)
    (hmentions : ∀ reference, callee.Mentions reference → call.Mentions reference) :
    Rooted job ⟨callee, chain⟩ := by
  cases h with
  | outside _ => exact .outside hcallee
  | inside _ hoccurs hchain =>
    exact .inside hcallee
      (fun reference hcall => hoccurs reference (hmentions reference hcall)) hchain

/-- Every step from a rooted call to a schema leads to a rooted one. -/
theorem Calls.rooted {caller callee : Frame} (h : Calls job caller callee)
    (hcaller : Rooted job caller) (hcallee : callee.call.component? = none) :
    Rooted job callee := by
  have hcalls := h
  cases h with
  | inline => exact hcaller.same hcallee fun _ h => h
  | absorbInline _ => exact hcaller.same hcallee fun _ h => h
  | value _ => exact hcaller.same hcallee fun _ => hcalls.mentions rfl
  | variant _ _ _ => exact hcaller.same hcallee fun _ => hcalls.mentions rfl
  | slot _ _ => exact hcaller.same hcallee fun _ => hcalls.mentions rfl
  | expand hkey htarget _ => exact hcaller.expand .here hkey htarget hcallee fun _ h => h
  | absorbExpand hkey htarget _ => exact hcaller.expand .here hkey htarget hcallee fun _ h => h
  | component _ => cases hcaller.component?_eq_none
  | bodyReference _ _ _ _ _ => cases hcaller.component?_eq_none
  | bodySchema _ _ _ => cases hcaller.component?_eq_none

section

variable (hreferences : ∀ source target, RefersTo job.document source target →
    ¬ ReflTransGen (RefersTo job.document) target source)

include hreferences

/-- A rooted call closes no circle itself. -/
theorem Rooted.not_failsItself {frame : Frame} (h : Rooted job frame) :
    ¬ FailsItself job IsCycle frame := by
  have hclosed : ∀ {call chain reference key}, Rooted job ⟨call, chain⟩ → call.Mentions reference →
      Section.schemas.key? reference = some key → key ∉ chain := by
    intro call chain reference key h hmentions hkey hmem
    cases h with
    | outside _ => simp at hmem
    | inside _ hoccurs hchain =>
      exact hreferences _ _ ((hoccurs reference hmentions).refersTo hkey) (hchain key hmem)
  intro hfails
  cases hfails with
  | expand hkey _ hmem _ => exact hclosed h .here hkey hmem
  | absorbExpand hkey _ hmem _ => exact hclosed h .here hkey hmem
  | _ => cases h.component?_eq_none

/-- Calls that come from operations report no cycle when every component is known. -/
theorem Engine.ofLevels_rooted {levels : Nat} {call : Call} (hcovers : job.Covers call)
    (hrooted : call.component? = none → Rooted job ⟨call, s.chain⟩) (hs : Justified job s)
    (hknown : AllKnown job s.facts) : ¬ (Engine.ofLevels job levels).Fails IsCycle call s := by
  induction levels generalizing call s with
  | zero => exact Engine.exhausted_not_cycle
  | succ levels ih =>
    intro hfails
    cases hcomponent : call.component? with
    | some component => exact hknown.not_fails hs hcomponent hcovers hfails
    | none =>
      have hrooted := hrooted hcomponent
      rcases Engine.step_fails (Engine.Sound.ofLevels job levels) ofRecursion_isCycle hfails hs with
        hitself | ⟨callee, t, hcalls, ht, hle, hfails⟩
      · exact hrooted.not_failsItself hreferences hitself
      · exact ih (hcalls.covered hcovers) (hcalls.rooted hrooted) ht (hknown.mono hle) hfails

/-- References of parameters, bodies and responses close no circle. -/
theorem FollowFails.not_cycle : ¬ FollowFails job IsCycle := by
  intro h
  cases h with
  | parameters h => exact follow_not_cycle hreferences .parameter h
  | bodies h => exact follow_not_cycle hreferences .body h
  | responses h => exact follow_not_cycle hreferences .response h

end

/-! ### Whole compilations -/

/-- A description whose references do not lead back to a component that needs them compiles without
a cycle. -/
theorem compileDocument_not_cycle
    (hmarkers : ∀ key ∈ job.document.components.schemas.keys,
      ∀ body ∈ job.document.components.requestBodies.keys, key ≠ bodyMarker body)
    (hreferences : ∀ source target, RefersTo job.document source target →
      ¬ ReflTransGen (Demands job) target source) :
    ¬ Fails IsCycle (compileDocument job) { file := startFile job.document job.config } := by
  intro h
  rcases fails_bind.mp h with hcomponents | ⟨_, t, hcomponents, h⟩
  · obtain ⟨call, t, hcall, ht, hchain, hfails⟩ :=
      declareComponents_fails hcomponents (justified_start job)
    -- nothing is being compiled when a component is called for
    have hnone : ∀ component, EachDemands job [] component := by simp [EachDemands]
    have htracked : Tracked job ⟨call, t.chain⟩ := by
      rw [hchain]
      cases hcall with
      | schema hentry => exact .declared rfl hentry (hnone _) (by simp)
      | body hentry => exact .declared rfl hentry (hnone _) (by simp)
    exact Engine.ofLevels_tracked hmarkers hreferences htracked ht hfails
  · obtain ⟨_, hgrown, hschemas, hbodies⟩ :=
      declareComponents_sound hcomponents (justified_start job)
    have hdirect : ∀ source target, RefersTo job.document source target →
        ¬ ReflTransGen (RefersTo job.document) target source :=
      fun source target hrefers hpath =>
        hreferences source target hrefers (demands_of_refersTo hpath)
    have hknown : AllKnown job t.facts := ⟨hschemas, hbodies⟩
    split at h
    · rcases declareService_fails ofRecursion_isCycle h hgrown.justified with
        hfollow | ⟨call, u, hcall, hu, hle, hchain, hfails⟩
      · exact FollowFails.not_cycle hdirect hfollow
      · have hempty : u.chain = [] := hchain.trans hgrown.later.chain
        refine Engine.ofLevels_rooted hdirect hcall (fun hnone => ?_) hu (hknown.mono hle) hfails
        rw [hempty]
        exact .outside hnone
    · exact not_fails_pure h

/-- No cycle is reported when no schema component has a key like the name of a request body in the
chain, and no reference between components closes a circle of references and of names that an inline
type shares with a component. -/
theorem cycle_not_reported {document : Document} {config : Config}
    (hmarkers : ∀ key ∈ document.components.schemas.keys,
      ∀ body ∈ document.components.requestBodies.keys, key ≠ bodyMarker body)
    (hreferences : ∀ source target, RefersTo document source target →
      ¬ ReflTransGen (Demands ⟨document, config⟩) target source)
    (name : String) (chain : List String) :
    compile document config ≠ .error (.cycle name chain) := by
  intro h
  unfold compile at h
  split at h
  · cases h
  · rename_i error t hrun
    cases h
    have hnot : ¬ Fails IsCycle (compileDocument ⟨document, config⟩) _ :=
      compileDocument_not_cycle hmarkers hreferences
    exact hnot ⟨_, t, hrun, name, chain, rfl⟩

/-- Does a compilation end with an error? -/
def endsWith (document : Document) (config : Config) (error : CompileError) : Bool :=
  match compile document config with
  | .ok _ => false
  | .error found => found == error

/-- A description that has been compiled to an error fails with it. -/
theorem compile_eq_error {document : Document} {config : Config} {error : CompileError}
    (h : endsWith document config error = true) : compile document config = .error error := by
  unfold endsWith at h
  split at h
  · cases h
  · rename_i hcompile
    rw [hcompile, eq_of_beq h]

/-- In a description of schema components only, references stand in schemas. -/
theorem refersTo_descriptionOf (schemas : List (String × SchemaNode)) {source target : Component}
    (h : RefersTo (descriptionOf schemas) source target) :
    ∃ key node reference, source = (.schemas, key) ∧ (key, node) ∈ (Table.ofList schemas).entries ∧
      OccursIn node reference ∧ target.1.key? reference = some target.2 := by
  obtain ⟨reference, hoccurs, hkey⟩ := h
  cases hoccurs with
  | schema hentry h => exact ⟨_, _, reference, rfl, Table.find?_eq_some_iff.mp hentry, h, hkey⟩
  | parameter hentry => cases hentry
  | parameterSchema hentry _ _ => cases hentry
  | body hentry => cases hentry
  | bodySchema hentry _ _ => cases hentry
  | response hentry => cases hentry
  | responseSchema hentry _ _ => cases hentry

/-- The schema of a request body. -/
def letter : Schema :=
  { shape := .allOf [.ref "#/components/schemas/requestBodies.Letter"] [] [] }

/-- A request body that refers to a schema component. The key of the component is the name that the
body has in the chain. -/
def mailbox : Document :=
  { (default : Document) with
    components :=
      { (default : OpenApi.Components) with
        schemas := .ofList [("requestBodies.Letter", objectNode [("text", textNode)])]
        requestBodies := .ofList
          [("Letter", .inline
            { content := .ofList [("application/json", ⟨some (.inline letter)⟩)] })] } }

/-- So the two are taken for one component that needs itself. -/
example :
    endsWith mailbox {}
      (.cycle "requestBodies.Letter" ["requestBodies.Letter", "requestBodies.Letter"]) = true := by
  decide +kernel

/-- An entry has an author, who is described inline under the name of a component. -/
def guestbookSchemas : List (String × SchemaNode) :=
  [("Entry", objectNode
     [("author", objectNode [("name", textNode)] (some "Guest")),
      ("guest", .ref "#/components/schemas/Guest")]),
   ("Guest", textNode)]

/-- A description with an inline type that has the name of a component. -/
def guestbook : Document :=
  descriptionOf guestbookSchemas

/-- The components are in the order of their names. -/
theorem guestbook_entries : (Table.ofList guestbookSchemas).entries = guestbookSchemas := by rfl

/-- The one reference leads from the entry to the guest. -/
theorem guestbook_refersTo {source target : Component} (h : RefersTo guestbook source target) :
    source = (.schemas, "Entry") ∧ target = (.schemas, "Guest") := by
  obtain ⟨key, node, reference, rfl, hentry, hoccurs, hkey⟩ :=
    refersTo_descriptionOf guestbookSchemas h
  have hguest : Section.schemas.key? "#/components/schemas/Guest" = some "Guest" := by decide
  rw [guestbook_entries] at hentry
  simp only [guestbookSchemas, List.mem_cons, List.not_mem_nil, or_false, Prod.mk.injEq] at hentry
  rcases hentry with ⟨rfl, rfl⟩ | ⟨rfl, rfl⟩
  · simp only [objectNode, textNode, occursIn_inline, occursIn_ref, parts, List.map_cons,
      List.map_nil, List.mem_cons, List.not_mem_nil, or_false, exists_eq_or_imp, exists_eq_left,
      false_and, exists_false, false_or] at hoccurs
    subst hoccurs
    exact ⟨rfl, component_eq_of_key? hguest hkey⟩
  · simp [textNode, occursIn_inline, parts] at hoccurs

/-- No call inside the component of the guests leads to another schema. -/
theorem inside_guest {component : Component} {call : Call}
    (h : Inside ⟨guestbook, {}⟩ component call) (hguest : component = (.schemas, "Guest")) :
    (∃ hint, call = .node hint textNode) ∨ (∃ hint, call = .schema hint { shape := .string none }) ∨
      ∃ draft, call = .absorb draft textNode := by
  have hnode : guestbook.components.schemas.find? "Guest" = some textNode := by rfl
  -- the component is a plain text, so the calls inside it go no further than its schema
  induction h with
  | schema hentry =>
    cases hguest
    cases hnode.symm.trans hentry
    exact .inl ⟨_, rfl⟩
  | body _ _ _ => cases hguest
  | inner _ hcalls hcallee ih =>
    rcases ih hguest with ⟨hint, rfl⟩ | ⟨hint, rfl⟩ | ⟨draft, rfl⟩
    · cases hcalls
      exact .inr (.inl ⟨hint, rfl⟩)
    · cases hcalls with
      | value hshape => cases hshape
      | variant hshape _ _ => cases hshape
      | slot hslot _ => simp [memberSlots] at hslot
    · cases hcalls with
      | absorbInline hobject => cases hobject
  | expanded _ _ htarget _ =>
    cases hguest
    cases hnode.symm.trans htarget
    exact .inl ⟨_, rfl⟩
  | absorbed _ _ htarget _ =>
    cases hguest
    cases hnode.symm.trans htarget
    exact .inr (.inr ⟨_, rfl⟩)

/-- The guests demand nothing. -/
theorem not_demands_guest {target : Component} :
    ¬ Demands ⟨guestbook, {}⟩ (.schemas, "Guest") target := by
  rintro (hrefers | ⟨hint, schema, slot, inner, chain, callee, hinside, hslot, -, -⟩)
  · exact absurd (guestbook_refersTo hrefers).1 (by decide)
  · rcases inside_guest hinside rfl with ⟨_, h⟩ | ⟨_, h⟩ | ⟨_, h⟩ <;> cases h
    simp [memberSlots] at hslot

/-- The component that the entries demand does not demand anything, so no cycle is reported for the
guestbook. -/
theorem cycle_not_reported_guestbook :
    (∀ key ∈ guestbook.components.schemas.keys,
      ∀ body ∈ guestbook.components.requestBodies.keys, key ≠ bodyMarker body) ∧
    (∀ source target, RefersTo guestbook source target →
      ¬ ReflTransGen (Demands ⟨guestbook, {}⟩) target source) ∧
    ∀ name chain, compile guestbook {} ≠ .error (.cycle name chain) := by
  have hmarkers : ∀ key ∈ guestbook.components.schemas.keys,
      ∀ body ∈ guestbook.components.requestBodies.keys, key ≠ bodyMarker body := by
    rintro key - body ⟨⟩
  have hreferences : ∀ source target, RefersTo guestbook source target →
      ¬ ReflTransGen (Demands ⟨guestbook, {}⟩) target source := by
    intro source target hrefers hpath
    obtain ⟨rfl, rfl⟩ := guestbook_refersTo hrefers
    rcases hpath.cases_head with heq | ⟨_, hdemands, -⟩
    · exact absurd heq (by decide)
    · exact not_demands_guest hdemands
  exact ⟨hmarkers, hreferences, cycle_not_reported hmarkers hreferences⟩

/-- A guest refers to entries, and an entry has an author, who is described inline under the name of
the guests. -/
def logbookSchemas : List (String × SchemaNode) :=
  [("Entry", objectNode [("author", objectNode [("name", textNode)] (some "Guest"))]),
   ("Guest", objectNode [("visit", .ref "#/components/schemas/Entry")])]

/-- A description whose components refer to each other in one direction only. -/
def logbook : Document :=
  descriptionOf logbookSchemas

/-- The components are in the order of their names. -/
theorem logbook_entries : (Table.ofList logbookSchemas).entries = logbookSchemas := by rfl

/-- The one reference leads from the guest to the entry. -/
theorem logbook_refersTo {source target : Component} (h : RefersTo logbook source target) :
    source = (.schemas, "Guest") ∧ target = (.schemas, "Entry") := by
  obtain ⟨key, node, reference, rfl, hentry, hoccurs, hkey⟩ :=
    refersTo_descriptionOf logbookSchemas h
  have hvisited : Section.schemas.key? "#/components/schemas/Entry" = some "Entry" := by decide
  rw [logbook_entries] at hentry
  simp only [logbookSchemas, List.mem_cons, List.not_mem_nil, or_false, Prod.mk.injEq] at hentry
  rcases hentry with ⟨rfl, rfl⟩ | ⟨rfl, rfl⟩
  · simp [objectNode, textNode, occursIn_inline, parts] at hoccurs
  · simp only [objectNode, occursIn_inline, occursIn_ref, parts, List.map_cons, List.map_nil,
      List.mem_singleton, exists_eq_left] at hoccurs
    subst hoccurs
    exact ⟨rfl, component_eq_of_key? hvisited hkey⟩

/-- The references of the logbook make no cycle, and still one is reported. -/
theorem logbook_reports_cycle :
    (∀ component, ¬ Relation.TransGen (RefersTo logbook) component component) ∧
      compile logbook {} = .error (.cycle "Entry" ["Entry", "Guest", "Entry"]) := by
  refine ⟨fun component hcycle => ?_, compile_eq_error (by decide +kernel)⟩
  obtain ⟨next, hfirst, hrest⟩ := Relation.TransGen.head'_iff.mp hcycle
  obtain ⟨rfl, rfl⟩ := logbook_refersTo hfirst
  -- the component that is referred to refers to nothing
  rcases hrest.cases_head with heq | ⟨_, hsecond, -⟩
  · exact absurd heq (by decide)
  · exact absurd (logbook_refersTo hsecond).1 (by decide)

end Protoscribe.Compile
