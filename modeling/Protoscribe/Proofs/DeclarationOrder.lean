import Protoscribe.Proofs.Compile.Chronicle
import Protoscribe.Proofs.Link.Compiled
import Protoscribe.Proofs.ReferenceGraph

/-!
# `Protoscribe.Proofs.DeclarationOrder`: references follow declarations

What a component became is noted once it is declared, so at every moment of a run the notes name
types that the file has. A run only adds to the notes and to the types. It follows that the message
of a component comes in behind every message that a member of the component refers to, since all of
them were settled when the component had been compiled (`CompiledAt.behind`).

`Walks` says which references those are: the ones that are the type of a property, of the item of a
list, or of a variant of a union. A walk goes down through inline schemas, and through the
references that are expanded in place.
-/

set_option autoImplicit false

namespace Protoscribe

/-- The messages of the finished file have the names of the drafted ones, in their order. -/
theorem FileDraft.messageNames_build (file : FileDraft) :
    file.build.messages.map (fun message => message.name.getD "") =
      file.messages.map FileMessage.name := by
  rw [build, Link.link]
  simp only [assemble, Link.inMessages_eq_map, List.map_map]
  refine List.map_congr_left fun message _ => ?_
  simp only [Function.comp_apply, Link.inMessage_eq]
  cases message with
  | drafted draft => simp [FileMessage.build, FileMessage.name, MessageDraft.name_build]
  | finished descriptor => rfl

namespace Compile

open OpenApi (Document Schema SchemaNode Section)

/-! ### Walks -/

/-- A walk from a node in a place comes by a reference that is the type of a member. -/
inductive Walks (document : Document) : Place → SchemaNode → String → Prop
  | here {reference : String} : Walks document .member (.ref reference) reference
  | expanded {place : Place} {reference key member : String} {target : SchemaNode}
      (hplace : place ≠ .member) (hkey : Section.schemas.key? reference = some key)
      (htarget : document.components.schemas.find? key = some target)
      (h : Walks document place target member) : Walks document place (.ref reference) member
  | inside {place : Place} {schema : Schema} {part : Place × SchemaNode} {member : String}
      (hwalked : place = .variant → schema.isObject = true) (hpart : part ∈ parts schema.shape)
      (h : Walks document part.1 part.2 member) : Walks document place (.inline schema) member

/-- The members of a settled node refer to components that are done. -/
theorem Settled.walks {document : Document} {done : List String} {place : Place} {node : SchemaNode}
    {reference : String} (h : Settled document done place node)
    (hwalks : Walks document place node reference) :
    ∃ key target, Section.schemas.key? reference = some key ∧
      document.components.schemas.find? key = some target ∧ key ∈ done := by
  induction hwalks with
  | here =>
    cases h with
    | member hkey htarget hdone => exact ⟨_, _, hkey, htarget, hdone⟩
    | expanded hplace _ _ _ => exact absurd rfl hplace
  | expanded hplace hkey htarget _ ih =>
    cases h with
    | member _ _ _ => exact absurd rfl hplace
    | expanded _ hkey' htarget' h =>
      cases hkey.symm.trans hkey'
      cases htarget.symm.trans htarget'
      exact ih h
  | inside hwalked hpart _ ih =>
    cases h with
    | ignored hobject => simp [hwalked rfl] at hobject
    | inline h => exact ih (h _ hpart)

/-! ### Moments -/

section

variable {job : Job} {key : String} {compiled : Option MessageDraft} {s t : State}

/-- What happens inside a component derives its message. -/
theorem insideSchema_sound {node : SchemaNode}
    (h : insideSchema job.engine job key node s = .ok compiled t) (hs : Justified job s) :
    Justified job t ∧ Derives job t.facts (.node (job.messageName key) node) compiled := by
  obtain ⟨-, u, hunder, rfl⟩ := entering_eq_ok h
  obtain ⟨v, hrun, rfl⟩ := under_eq_ok.mp hunder
  obtain ⟨hgrown, hderives⟩ := job.engine_sound.node hrun (hs.of_eq rfl rfl rfl)
  exact ⟨hgrown.justified.of_eq rfl rfl rfl, hderives⟩

/-- What was there when a component was compiled is still there. -/
theorem CompiledAt.grows (h : CompiledAt job key compiled t s) : Grows t s := by
  obtain ⟨result, u, hdeclared, hlater⟩ := h.settled
  obtain ⟨hgrows, -, -⟩ := declareType_grows hdeclared
  have hnoted : Grows u { u with schemas := u.schemas ++ [(key, result)] } :=
    { Grows.refl u with schemas := List.prefix_append _ _ }
  exact hgrows.trans (hnoted.trans hlater)

/-- Everything is justified when a component has been compiled. -/
theorem CompiledAt.justified (h : CompiledAt job key compiled t s) : Justified job t := by
  obtain ⟨_, _, _, hstart, -, hrun⟩ := h.run
  exact (insideSchema_sound hrun hstart).1

/-- When a component has been compiled, its members refer to components that are settled, and the
types of those are declared. -/
theorem CompiledAt.references (h : CompiledAt job key compiled t s) {node : SchemaNode}
    {reference : String} (hnode : job.document.components.schemas.find? key = some node)
    (hwalks : Walks job.document .inPlace node reference) :
    ∃ result, t.facts.Names job reference result ∧ Declared t.file result := by
  obtain ⟨node', start, hnode', hstart, -, hrun⟩ := h.run
  cases hnode.symm.trans hnode'
  obtain ⟨ht, hderives⟩ := insideSchema_sound hrun hstart
  have hsettled : Settled job.document (t.facts.schemas.map (·.1)) .inPlace node :=
    hderives.settled
  obtain ⟨target, targetNode, hkey, htarget, hdone⟩ := hsettled.walks hwalks
  obtain ⟨entry, hentry, rfl⟩ := List.mem_map.mp hdone
  cases hresult : t.facts.schemas.lookup entry.1 with
  | none =>
    have hfree := List.lookup_eq_none_iff.mp hresult entry hentry
    simp at hfree
  | some result =>
    exact ⟨result, ⟨entry.1, targetNode, hkey, htarget, hresult⟩, ht.declared_of_lookup hresult⟩

/-- What a reference names does not change. -/
theorem Facts.Names.unique {facts : Facts} {reference : String} {result other : ComponentType}
    (h : facts.Names job reference result) (hother : facts.Names job reference other) :
    result = other := by
  obtain ⟨key, _, hkey, -, hresult⟩ := h
  obtain ⟨key', _, hkey', -, hother⟩ := hother
  cases hkey.symm.trans hkey'
  cases hresult.symm.trans hother
  rfl

/-- A message that was declared at an earlier moment stands in front of those that come later. -/
theorem index_lt_of_declared (ht : Justified job t) (hs : Justified job s) (hgrows : Grows t s)
    {type : String} {index : Nat} (htype : t.file.hasType type = true)
    (hindex : s.file.messages[index]?.map FileMessage.name = some type) :
    index < t.file.messages.length := by
  have hnames : (s.file.messages.map FileMessage.name ++ s.file.enums.map (·.name)).Nodup :=
    hs.names
  rw [ht.inStep.hasType_iff, FileDraft.typeNames, List.mem_append] at htype
  rw [← List.getElem?_map] at hindex
  rcases htype with hmessage | henum
  · obtain ⟨earlier, hearlier⟩ := List.getElem?_of_mem hmessage
    have hlt : earlier < t.file.messages.length := by
      simpa using (List.getElem?_eq_some_iff.mp hearlier).1
    -- the message is still there, and no other one has its name
    obtain ⟨rest, hrest⟩ := hgrows.messages.map FileMessage.name
    have hkept : (s.file.messages.map FileMessage.name)[earlier]? = some type := by
      rw [← hrest, List.getElem?_append_left (by simpa using hlt), hearlier]
    have hsame : index = earlier :=
      (List.getElem?_inj (List.getElem?_eq_some_iff.mp hindex).1
        (List.nodup_append.mp hnames).1).mp (hindex.trans hkept.symm)
    rwa [hsame]
  · -- an enum has the name, so no message has it
    exact absurd rfl ((List.nodup_append.mp hnames).2.2 _ (List.mem_of_getElem? hindex) _
      ((hgrows.enums.map _).subset henum))

/-- The message of a component whose name was free stands behind all messages that the members of
the component refer to. -/
theorem CompiledAt.behind {draft : MessageDraft} (h : CompiledAt job key (some draft) t s)
    (hs : Justified job s) (hempty : draft.isEmpty = false) (hcarried : draft.carriedEnum? = none)
    (hfree : t.file.hasType draft.name = false) :
    s.file.messages[t.file.messages.length]? = some (.drafted draft) ∧
      ∀ node reference type index, job.document.components.schemas.find? key = some node →
        Walks job.document .inPlace node reference →
        s.facts.Names job reference (.message type) →
        s.file.messages[index]?.map FileMessage.name = some type →
        index < t.file.messages.length := by
  constructor
  · obtain ⟨result, u, hdeclared, hlater⟩ := h.settled
    have hfilter : (some draft).filter (!·.isEmpty) = some draft := by simp [hempty]
    simp only [declareType, hfilter, hcarried, bind_eq_ok, updateFile_eq_ok] at hdeclared
    obtain ⟨_, _, rfl, -, rfl⟩ := hdeclared
    -- the message was the next one at its moment, and messages are only added
    obtain ⟨rest, hrest⟩ := hlater.messages
    have hadded : (t.file.addMessage draft).messages = t.file.messages ++ [.drafted draft] := by
      rw [FileDraft.addMessage, if_neg (by simp [hfree])]
    rw [← hrest]
    simp only [hadded]
    simp
  · intro node reference type index hnode hwalks hnames hindex
    -- what the reference named at that moment it names for good
    obtain ⟨result, ⟨target, node, hkey, htarget, hlookup⟩, hdeclared⟩ := h.references hnode hwalks
    have hlater : s.facts.Names job reference result :=
      ⟨target, node, hkey, htarget, lookup_of_extended h.grows.schemas hlookup⟩
    cases hlater.unique hnames
    exact index_lt_of_declared h.justified hs h.grows hdeclared hindex

end

/-! ### Whole runs -/

/-- The state in which a compilation ends that is broken off in the states that `stop` picks. -/
def stateUntil (stop : State → Bool) (job : Job) : State :=
  stateAfter (compileUntil stop job) { file := startFile job.document job.config }

/-- Every entry of the tables names a type that the file has. -/
structure State.AllDeclared (s : State) : Prop where
  schemas : ∀ entry ∈ s.schemas, Declared s.file entry.2
  bodies : ∀ entry ∈ s.bodies, Declared s.file entry.2

/-- Every component that is settled has its type declared. -/
theorem Justified.allDeclared {job : Job} {s : State} (h : Justified job s) : s.AllDeclared where
  schemas entry hentry := by
    obtain ⟨before, after, hsplit⟩ := List.append_of_mem hentry
    obtain ⟨_, _, _, _, _, _, _, hbecame⟩ := h.schemas before entry.1 entry.2 after hsplit
    exact hbecame.declared
  bodies := h.bodies

/-- The state in which a run is broken off follows from the states in which it is broken off
earlier. -/
theorem stateUntil_follows {stop earlier : State → Bool} (job : Job)
    (hmore : ∀ s, stop s = true → earlier s = true) :
    Grows (stateUntil earlier job) (stateUntil stop job) ∧
      Chronicled job (stateUntil stop job) := by
  have hlater : InterruptsAt (chronicle job) (compileUntil earlier job) (compileUntil stop job)
      { file := startFile job.document job.config } :=
    (compileUntil_interrupts hmore).inState (chronicled_start job)
  refine ⟨?_, hlater.whole.advances.2⟩
  rcases hlater.agrees with heq | ⟨error, t, herror, hle⟩
  · rw [stateUntil, stateUntil, stateAfter, stateAfter, heq]
    exact .refl _
  · rw [stateUntil, stateAfter_of_error herror]
    exact hle.1

/-- A run that is never broken off ends where a whole run does. -/
theorem stateUntil_never (job : Job) : stateUntil (fun _ => false) job =
    stateAfter (compileDocument job) { file := startFile job.document job.config } := by
  rw [stateUntil, compileUntil_never]

/-- A component that is not settled yet is compiled, declared and settled. -/
theorem component_eq_ok {job : Job} {key : String} {node : SchemaNode} {result : ComponentType}
    {s u : State} (h : job.engine.component key node s = .ok result u)
    (hfree : s.schemas.lookup key = none) :
    ∃ compiled t v, insideSchema job.engine job key node s = .ok compiled t ∧
      declareType compiled t = .ok result v ∧
      u = { v with schemas := v.schemas ++ [(key, result)] } := by
  have ⟨levels, hlevels⟩ : ∃ levels, job.levels = levels + 1 :=
    Nat.exists_eq_add_one.mpr (Nat.mul_pos (by omega) (by omega))
  have hdeclare : declareSchema (Engine.ofLevels job levels) job key node s = .ok result u := by
    rw [Job.engine, hlevels] at h
    exact h
  rw [declareSchema_of_free hfree] at hdeclare
  obtain ⟨compiled, t, hcompiled, hsettle⟩ := bind_eq_ok.mp hdeclare
  obtain ⟨v, hdeclared, rfl⟩ := settleSchema_eq_ok.mp hsettle
  -- the schema is compiled with one level less than the job has
  have hbelow : Below (insideSchema (Engine.ofLevels job levels) job key node)
      (insideSchema job.engine job key node) :=
    (((Engine.ofLevels_below job (by omega)).node _ _).under _).entering _
  exact ⟨compiled, t, v, hbelow.eq_ok hcompiled, hdeclared, rfl⟩

/-- The first schema component is compiled in the state where all names are kept. -/
theorem exists_compiledAt_first {job : Job} {key : String} {node : SchemaNode}
    {rest : List (String × SchemaNode)} {s : State}
    (hentries : job.document.components.schemas.entries = (key, node) :: rest)
    (h : compileDocument job { file := startFile job.document job.config } = .ok ⟨⟩ s) :
    ∃ compiled t,
      insideSchema job.engine job key node
        (stateAfter (keepNames job) { file := startFile job.document job.config }) =
          .ok compiled t ∧
      CompiledAt job key compiled t s := by
  have hcalls := Engine.ofLevels_chronicles job (Nat.le_refl _)
  have hnode : job.document.components.schemas.find? key = some node :=
    Table.find?_eq_some_iff.mpr (hentries ▸ List.mem_cons_self ..)
  rw [← Engine.compileDocument_eq] at h
  simp only [Engine.compileDocument, Engine.declareComponents, hentries, List.forM_eq_forM,
    List.forM_cons, bind_assoc, pure_bind] at h
  obtain ⟨_, s₀, hkeep, h⟩ := bind_eq_ok.mp h
  obtain ⟨result, u, hcall, hrest⟩ := bind_eq_ok.mp h
  rw [stateAfter_of_ok hkeep]
  obtain ⟨reserved, rfl⟩ := keepNames_eq_ok hkeep
  have hs : Chronicled job { file := { startFile job.document job.config with reserved } } :=
    ⟨(justified_start job).of_same rfl rfl rfl rfl rfl rfl, by simp⟩
  have hu := (chronicle_le_of_ok (hcalls.component hnode) hcall hs).2
  -- all that comes behind the first entry only adds to the state
  have hgrows : Grows u s := by
    refine (chronicle_le_of_ok (.bind (.forM fun entry hentry => ?_) fun _ =>
      .bind (.forM fun entry hentry => ?_) fun _ => ?_) hrest hu).1
    · exact .bind (hcalls.component (Table.find?_eq_some_iff.mpr
        (hentries ▸ List.mem_cons_of_mem _ hentry))) fun _ => .pure _
    · exact .bind (hcalls.requestBody (Table.find?_eq_some_iff.mpr hentry)) fun _ => .pure _
    · split
      · exact declareService_interrupts hcalls hcalls
      · exact .pure _
  obtain ⟨compiled, t, v, hinside, hdeclared, rfl⟩ := component_eq_ok hcall rfl
  exact ⟨compiled, t, hinside, ⟨node, _, hnode, hs.justified, rfl, hinside⟩, result, v, hdeclared,
    hgrows⟩

/-- At every point of a run, the tables name types that the file has, and everything that is
settled or declared at an earlier point is still in its place. So references resolve to declared
types, and the message of a component, where its name was free, stands behind all messages that
its members refer to. -/
theorem references_follow_declarations (document : Document) (config : Config) :
    (∀ stop earlier : State → Bool, (∀ s, stop s = true → earlier s = true) →
      Justified ⟨document, config⟩ (stateUntil stop ⟨document, config⟩) ∧
        (stateUntil stop ⟨document, config⟩).AllDeclared ∧
        Grows (stateUntil earlier ⟨document, config⟩) (stateUntil stop ⟨document, config⟩)) ∧
    stateUntil (fun _ => false) ⟨document, config⟩ =
      stateAfter (compileDocument ⟨document, config⟩) { file := startFile document config } ∧
    (∀ levels reference result s t, Justified ⟨document, config⟩ s →
      referencedType (Engine.ofLevels ⟨document, config⟩ levels) ⟨document, config⟩ reference s =
        .ok result t → Declared t.file result) ∧
    ∀ out, compile document config = .ok out → ∃ s,
      compileDocument ⟨document, config⟩ { file := startFile document config } = .ok ⟨⟩ s ∧
      out.file = s.file.build ∧
      out.file.messages.map (fun message => message.name.getD "") =
        s.file.messages.map FileMessage.name ∧
      (∀ key ∈ document.components.schemas.keys, ∃ compiled t,
        CompiledAt ⟨document, config⟩ key compiled t s) ∧
      (∀ key compiled t, CompiledAt ⟨document, config⟩ key compiled t s →
        ∀ node reference, document.components.schemas.find? key = some node →
          Walks document .inPlace node reference →
          ∃ result, t.facts.Names ⟨document, config⟩ reference result ∧ Declared t.file result) ∧
      ∀ key draft t, CompiledAt ⟨document, config⟩ key (some draft) t s →
        draft.isEmpty = false → draft.carriedEnum? = none → t.file.hasType draft.name = false →
        s.file.messages[t.file.messages.length]? = some (.drafted draft) ∧
          ∀ node reference type index, document.components.schemas.find? key = some node →
            Walks document .inPlace node reference →
            s.facts.Names ⟨document, config⟩ reference (.message type) →
            s.file.messages[index]?.map FileMessage.name = some type →
            index < t.file.messages.length := by
  refine ⟨fun stop earlier hmore => ?_, stateUntil_never _,
    fun levels reference result s t hs h => ?_, fun out h => ?_⟩
  · obtain ⟨hgrows, hstop⟩ := stateUntil_follows ⟨document, config⟩ hmore
    exact ⟨hstop.justified, hstop.justified.allDeclared, hgrows⟩
  · obtain ⟨hgrown, _, _, -, -, hresult⟩ := referencedType_sound (.ofLevels _ levels) h hs
    exact hgrown.justified.declared_of_lookup hresult
  -- a run that is never stopped is the whole run, so its end is a stopping point as well
  · obtain ⟨s, hrun, hs, hfile⟩ := compile_eq_ok h
    have hfinal : stateUntil (fun _ => false) ⟨document, config⟩ = s := by
      rw [stateUntil_never, stateAfter_of_ok hrun]
    have hchronicled : Chronicled ⟨document, config⟩ s :=
      hfinal ▸ (stateUntil_follows ⟨document, config⟩ fun _ hstop => hstop).2
    refine ⟨s, hrun, hfile, hfile ▸ s.file.messageNames_build, fun key hkey => ?_,
      fun key compiled t hmoment node reference hnode hwalks => hmoment.references hnode hwalks,
      fun key draft t hmoment => hmoment.behind hs.justified⟩
    obtain ⟨result, hresult⟩ := hs.schemas key hkey
    exact hchronicled.moments _ (Table.mem_of_lookup_eq_some hresult)

/-- A clasp that refers to a strap, which comes after it in the description. -/
def harness : Document :=
  descriptionOf
    [("Clasp", objectNode [("strap", .ref "#/components/schemas/Strap")]),
     ("Strap", objectNode [("length", textNode)])]

/-- The message of the clasp stands behind that of the strap, which its member refers to. -/
theorem references_follow_declarations_harness :
    ∃ out s draft t node, compile harness {} = .ok out ∧
      out.file.messages.map (fun message => message.name.getD "") = ["Strap", "Clasp"] ∧
      CompiledAt ⟨harness, {}⟩ "Clasp" (some draft) t s ∧ draft.isEmpty = false ∧
      draft.carriedEnum? = none ∧ t.file.hasType draft.name = false ∧
      harness.components.schemas.find? "Clasp" = some node ∧
      Walks harness .inPlace node "#/components/schemas/Strap" ∧
      s.facts.Names ⟨harness, {}⟩ "#/components/schemas/Strap" (.message "Strap") ∧
      s.file.messages[0]?.map FileMessage.name = some "Strap" ∧ 0 < t.file.messages.length ∧
      s.file.messages[t.file.messages.length]? = some (.drafted draft) := by
  have hcompiles : compilesTo harness {} (fun s =>
      s.file.messages.map FileMessage.name == ["Strap", "Clasp"] &&
        s.schemas.lookup "Strap" == some (.message "Strap")) = true := by
    decide +kernel
  have hclasp : succeedsWith (insideSchema (Job.engine ⟨harness, {}⟩) ⟨harness, {}⟩ "Clasp"
      (objectNode [("strap", .ref "#/components/schemas/Strap")]))
      (stateAfter (keepNames ⟨harness, {}⟩) { file := startFile harness {} })
      (fun compiled t => compiled.any fun draft =>
        !draft.isEmpty && draft.carriedEnum?.isNone && !t.file.hasType draft.name) = true := by
    decide +kernel
  obtain ⟨out, s, hout, -, hrun, hcheck⟩ := exists_of_compilesTo hcompiles
  simp only [Bool.and_eq_true, beq_iff_eq] at hcheck
  obtain ⟨hnames, hstrap⟩ := hcheck
  obtain ⟨-, -, -, hfinal⟩ := references_follow_declarations harness {}
  obtain ⟨s', hrun', -, hmessages, -, -, hbehind⟩ := hfinal out hout
  -- the run that was evaluated is the one that the theorem speaks of
  cases hrun.symm.trans hrun'
  obtain ⟨compiled, t, hinside, hmoment⟩ :=
    @exists_compiledAt_first ⟨harness, {}⟩ _ _ _ _ rfl hrun
  obtain ⟨_, _, hinside', hpasses⟩ := exists_of_succeedsWith hclasp
  cases hinside.symm.trans hinside'
  obtain ⟨draft, rfl, hdraft⟩ := (Option.any_eq_true _ _).mp hpasses
  simp only [Bool.and_eq_true, Bool.not_eq_true', Option.isNone_iff_eq_none] at hdraft
  obtain ⟨⟨hempty, hcarried⟩, hfree⟩ := hdraft
  have hwalks : Walks harness .inPlace
      (objectNode [("strap", .ref "#/components/schemas/Strap")])
      "#/components/schemas/Strap" :=
    .inside (fun h => nomatch h) (List.mem_singleton.mpr rfl) .here
  have hrefers : s.facts.Names ⟨harness, {}⟩ "#/components/schemas/Strap" (.message "Strap") :=
    ⟨"Strap", _, by decide +kernel, rfl, hstrap⟩
  have hfirst : s.file.messages[0]?.map FileMessage.name = some "Strap" := by
    rw [← List.getElem?_map, hnames]
    rfl
  obtain ⟨hplace, hlater⟩ := hbehind "Clasp" draft t hmoment hempty hcarried hfree
  exact ⟨out, s, draft, t, _, hout, hmessages.trans hnames, hmoment, hempty, hcarried, hfree, rfl,
    hwalks, hrefers, hfirst, hlater _ _ _ _ rfl hwalks hrefers hfirst, hplace⟩

end Compile

end Protoscribe
