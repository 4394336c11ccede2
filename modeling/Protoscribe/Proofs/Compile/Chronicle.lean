import Protoscribe.Proofs.Additions
import Protoscribe.Proofs.Compile.MoreLevels

/-!
# `Protoscribe.Proofs.Compile.Chronicle`: the states on the way of a run

A run declares types and settles components one after the other, and it takes nothing back
(`Grows`). When a component is settled, its own schema has been compiled to the end and everything
that was declared before is still there (`CompiledAt`). `chronicle` is the progress that records
this for every component that is settled.

To speak of all states on the way, a run is broken off wherever a call starts or ends in a state
that `stop` picks (`compileUntil`). The more is picked, the earlier the run ends, and
`compileUntil_interrupts` compares any two of these runs. A run that is never broken off is that of
`compileDocument`.
-/

set_option autoImplicit false

namespace Protoscribe

/-- A message comes behind those that are declared, or is refused. -/
theorem FileDraft.messages_addMessage (file : FileDraft) (draft : MessageDraft) :
    file.messages <+: (file.addMessage draft).messages := by
  unfold addMessage
  split
  · exact List.prefix_rfl
  · exact List.prefix_append _ _

/-- A message leaves the enums as they are. -/
theorem FileDraft.enums_addMessage (file : FileDraft) (draft : MessageDraft) :
    (file.addMessage draft).enums = file.enums := by
  unfold addMessage
  split <;> rfl

/-- An enum comes behind those that are declared, or is refused. -/
theorem FileDraft.enums_addEnum (file : FileDraft) (enum : EnumDraft) :
    file.enums <+: (file.addEnum enum).enums := by
  unfold addEnum
  split
  · exact List.prefix_rfl
  · exact List.prefix_append _ _

/-- An enum leaves the messages as they are. -/
theorem FileDraft.messages_addEnum (file : FileDraft) (enum : EnumDraft) :
    (file.addEnum enum).messages = file.messages := by
  unfold addEnum
  split <;> rfl

namespace Compile

open OpenApi (Document Operation PathItem Referable RequestBody Schema SchemaNode Verb)

/-! ### Growing states -/

/-- Everything that is declared or settled in the first state stays in its place in the second
one. -/
structure Grows (s t : State) : Prop where
  schemas : s.schemas <+: t.schemas
  bodies : s.bodies <+: t.bodies
  messages : s.file.messages <+: t.file.messages
  enums : s.file.enums <+: t.file.enums

namespace Grows

variable {s t u : State}

/-- Where the tables stay the same, nothing is lost. -/
theorem of_sameTables (h : SameTables s t) : Grows s t where
  schemas := h.schemas ▸ List.prefix_rfl
  bodies := h.bodies ▸ List.prefix_rfl
  messages := h.file ▸ List.prefix_rfl
  enums := h.file ▸ List.prefix_rfl

/-- Nothing is lost where nothing happens. -/
theorem refl (s : State) : Grows s s :=
  of_sameTables ⟨rfl, rfl, rfl⟩

/-- What is kept twice is kept. -/
theorem trans (h : Grows s t) (h' : Grows t u) : Grows s u :=
  ⟨h.schemas.trans h'.schemas, h.bodies.trans h'.bodies, h.messages.trans h'.messages,
    h.enums.trans h'.enums⟩

/-- An operation only adds. -/
theorem of_adds {methods : List MethodDraft} (h : Adds methods s t) : Grows s t where
  schemas := h.schemas ▸ List.prefix_rfl
  bodies := h.bodies ▸ List.prefix_rfl
  messages := by
    obtain ⟨added, hadded, -⟩ := h.messages
    exact ⟨added, hadded.symm⟩
  enums := h.enums ▸ List.prefix_rfl

end Grows

/-- Declaring a type settles no component. -/
theorem declareType_grows {compiled : Option MessageDraft} {result : ComponentType} {s t : State}
    (h : declareType compiled s = .ok result t) :
    Grows s t ∧ t.schemas = s.schemas ∧ t.bodies = s.bodies := by
  unfold declareType at h
  cases hfilter : compiled.filter (!·.isEmpty) with
  | none =>
    simp only [hfilter, pure_eq_ok] at h
    obtain ⟨-, rfl⟩ := h
    exact ⟨.refl _, rfl, rfl⟩
  | some draft =>
    simp only [hfilter] at h
    have hkept := Grows.refl s
    -- the file gets an enum or a message, and the tables of results stay
    cases hcarried : draft.carriedEnum? with
    | some enum =>
      simp only [hcarried, bind_eq_ok, updateFile_eq_ok, pure_eq_ok] at h
      obtain ⟨_, _, rfl, -, rfl⟩ := h
      exact ⟨{ hkept with
        messages := FileDraft.messages_addEnum s.file enum ▸ List.prefix_rfl
        enums := FileDraft.enums_addEnum _ _ }, rfl, rfl⟩
    | none =>
      simp only [hcarried, bind_eq_ok, updateFile_eq_ok, pure_eq_ok] at h
      obtain ⟨_, _, rfl, -, rfl⟩ := h
      exact ⟨{ hkept with
        messages := FileDraft.messages_addMessage _ _
        enums := FileDraft.enums_addMessage s.file draft ▸ List.prefix_rfl }, rfl, rfl⟩

/-! ### When a component was compiled -/

/-- What happens inside a schema component, over an engine. -/
def insideSchema (engine : Engine) (job : Job) (key : String) (node : SchemaNode) :
    M (Option MessageDraft) :=
  entering key (under ["components", "schemas", key] (engine.node (job.messageName key) node))

/-- What happens after that: the component is declared and settled. -/
def settleSchema (key : String) (compiled : Option MessageDraft) : M ComponentType := do
  let resolved ← declareType compiled
  modify fun state => { state with schemas := state.schemas ++ [(key, resolved)] }
  pure resolved

/-- A component that is not settled is compiled, and settled then. -/
theorem declareSchema_of_free {engine : Engine} {job : Job} {key : String} {node : SchemaNode}
    {s : State} (hfree : s.schemas.lookup key = none) :
    declareSchema engine job key node s =
      (insideSchema engine job key node >>= settleSchema key) s := by
  rw [declareSchema, bind_of_ok (get_eq_ok.mpr ⟨rfl, rfl⟩)]
  simp only [hfree]
  rfl

/-- Settling a component declares its type and notes it down. -/
theorem settleSchema_eq_ok {key : String} {compiled : Option MessageDraft} {result : ComponentType}
    {t u : State} : settleSchema key compiled t = .ok result u ↔
      ∃ v, declareType compiled t = .ok result v ∧
        u = { v with schemas := v.schemas ++ [(key, result)] } := by
  simp only [settleSchema, bind_eq_ok, pure_eq_ok]
  constructor
  · rintro ⟨resolved, v, hdeclared, _, w, hsettled, rfl, rfl⟩
    cases hsettled
    exact ⟨v, hdeclared, rfl⟩
  · rintro ⟨v, hdeclared, rfl⟩
    exact ⟨result, v, hdeclared, ⟨⟩, _, rfl, rfl, rfl⟩

/-- In the state `t`, the schema component of the key has been compiled. It is declared and settled
then, and a run goes on from there to `s`. -/
structure CompiledAt (job : Job) (key : String) (compiled : Option MessageDraft) (t s : State) :
    Prop where
  run : ∃ node start, job.document.components.schemas.find? key = some node ∧
    Justified job start ∧ start.schemas.lookup key = none ∧
    insideSchema job.engine job key node start = .ok compiled t
  settled : ∃ result u, declareType compiled t = .ok result u ∧
    Grows { u with schemas := u.schemas ++ [(key, result)] } s

/-- What is declared and settled later leaves the record of a component true. -/
theorem CompiledAt.mono {job : Job} {key : String} {compiled : Option MessageDraft} {t s s' : State}
    (h : CompiledAt job key compiled t s) (hgrows : Grows s s') :
    CompiledAt job key compiled t s' where
  run := h.run
  settled :=
    have ⟨result, u, hdeclared, hlater⟩ := h.settled
    ⟨result, u, hdeclared, hlater.trans hgrows⟩

/-- A justified state in which every settled component was compiled at some moment before. -/
structure Chronicled (job : Job) (s : State) : Prop where
  justified : Justified job s
  moments : ∀ entry ∈ s.schemas, ∃ compiled t, CompiledAt job entry.1 compiled t s

/-- No new component is settled. -/
theorem Chronicled.of_grows {job : Job} {s t : State} (h : Chronicled job s) (hgrows : Grows s t)
    (hschemas : t.schemas = s.schemas) (ht : Justified job t) : Chronicled job t where
  justified := ht
  moments entry hentry :=
    have ⟨compiled, moment, hcompiled⟩ := h.moments entry (hschemas ▸ hentry)
    ⟨compiled, moment, hcompiled.mono hgrows⟩

/-- The progress of a run that declares types and settles components. -/
def chronicle (job : Job) : Progress where
  Valid := Chronicled job
  Le s t := Grows s t ∧ Chronicled job t
  valid_of_le h := h.2
  trans h h' := ⟨h.1.trans h'.1, h'.2⟩
  le_of_same hs h :=
    have hgrows := Grows.of_sameTables h
    ⟨hgrows, hs.of_grows hgrows h.schemas (hs.justified.of_eq h.file h.schemas h.bodies)⟩
  le_addDependency {s} name hs :=
    have hadds : Adds [] s { s with file := s.file.addDependency name } := .addDependency s name
    have hgrows := Grows.of_adds hadds
    ⟨hgrows, hs.of_grows hgrows rfl (hs.justified.grown_addDependency name).justified⟩

/-! ### Components -/

section

variable {job : Job} {cut full : Engine}

/-- Where the lower step succeeds, the upper one does the same. -/
theorem Below.eq_ok {α : Type} {step other : M α} {a : α} {s t : State} (h : Below step other)
    (hrun : step s = .ok a t) : other s = .ok a t := by
  rcases h s with ⟨_, _, herror, -⟩ | heq
  · cases hrun.symm.trans herror
  · exact heq.symm.trans hrun

/-- Once a component is compiled, it is declared and settled, and that does not fail. -/
theorem declareSchema_interrupts (h : cut.Interrupts job (chronicle job) full)
    (hfull : full.Sound job) (hjob : full.Below job.engine) {key : String} {node : SchemaNode}
    (hnode : job.document.components.schemas.find? key = some node) :
    Interrupts (chronicle job) (declareSchema cut job key node)
      (declareSchema full job key node) := by
  refine ⟨fun {s} hs => ?_⟩
  cases hlookup : s.schemas.lookup key with
  | some known =>
    have hrun : ∀ engine, declareSchema engine job key node s = (pure known : M _) s := by
      intro engine
      rw [declareSchema, bind_of_ok (get_eq_ok.mpr ⟨rfl, rfl⟩)]
      simp only [hlookup]
    exact ((Interrupts.pure known).inState hs).congr (hrun cut) (hrun full)
  | none =>
    have hinside : Interrupts (chronicle job) (insideSchema cut job key node)
        (insideSchema full job key node) := ((h.node _ _).under _).entering _
    refine ((hinside.inState hs).bind fun {compiled t} hcompiled hle => .of_advances ?_).congr
      (declareSchema_of_free hlookup) (declareSchema_of_free hlookup)
    -- what follows the inner call cannot fail, so a run stops inside the call or not at all
    obtain ⟨result, u, hresult⟩ := infallible_declareType compiled t
    have hsettle := (settleSchema_eq_ok : settleSchema key compiled t = _ ↔ _).mpr ⟨u, hresult, rfl⟩
    have hsound := declareSchema_sound hfull ((declareSchema_of_free hlookup).trans
      (bind_eq_ok.mpr ⟨compiled, t, hcompiled, hsettle⟩)) hnode hs.justified
    obtain ⟨hgrows, hschemas, -⟩ := declareType_grows hresult
    have hlater : Grows t { u with schemas := u.schemas ++ [(key, result)] } :=
      { hgrows with schemas := hgrows.schemas.trans (List.prefix_append _ _) }
    rw [stateAfter_of_ok hsettle]
    refine ⟨hlater, hsound.1.justified, fun entry hentry => ?_⟩
    rcases List.mem_append.mp hentry with hold | hnew
    · obtain ⟨compiled', t', hmoment⟩ := hle.2.moments entry (hschemas ▸ hold)
      exact ⟨compiled', t', hmoment.mono hlater⟩
    -- the new entry was compiled in this very call
    · cases List.mem_singleton.mp hnew
      have hmoment : insideSchema job.engine job key node s = .ok compiled t :=
        (((hjob.node _ _).under _).entering _).eq_ok hcompiled
      exact ⟨compiled, t, ⟨node, s, hnode, hs.justified, hlookup, hmoment⟩,
        result, u, hresult, .refl _⟩

/-- The type of a shared request body may be broken off in its schema. -/
theorem typeOfBody_interrupts (h : cut.Interrupts job (chronicle job) full)
    (hfull : full.Sound job) {key : String} {body : Referable RequestBody}
    (hbody : job.document.components.requestBodies.find? key = some body) :
    Interrupts (chronicle job) (typeOfBody cut job key body) (typeOfBody full job key body) := by
  refine ⟨fun {s} hs => ?_⟩
  refine ((followFrom_interrupts body).inState hs).bind fun {content t} hfollow hle => ?_
  cases follow_eq_ok hfollow
  cases hschema : content.content.jsonSchema? with
  | none => exact (Interrupts.pure _).inState hs
  | some node =>
    cases node with
    | ref reference => exact (referencedType_interrupts h reference).inState hs
    | inline schema =>
      refine ((h.schema _ schema).inState hs).bind fun {compiled t} hcompiled hle =>
        .of_advances ?_
      -- the type is declared, and that does not fail
      obtain ⟨result, u, hresult⟩ := infallible_declareType
        (compiled.map fun draft => { draft with comment := draft.comment <|> content.description }) t
      have hrun : typeOfBody full job key body s = .ok result u := by
        refine bind_eq_ok.mpr ⟨content, s, hfollow, ?_⟩
        simp only [hschema]
        exact bind_eq_ok.mpr ⟨compiled, t, hcompiled, hresult⟩
      obtain ⟨hgrows, hschemas, -⟩ := declareType_grows hresult
      rw [stateAfter_of_ok hresult]
      exact ⟨hgrows, hle.2.of_grows hgrows hschemas
        (typeOfBody_sound hfull hrun hbody hs.justified).1.justified⟩

/-- A shared request body is settled at the end, or it is broken off before that. -/
theorem declareBody_interrupts (h : cut.Interrupts job (chronicle job) full)
    (hfull : full.Sound job) {key : String} {body : Referable RequestBody}
    (hbody : job.document.components.requestBodies.find? key = some body) :
    Interrupts (chronicle job) (declareBody cut job key body) (declareBody full job key body) := by
  refine ⟨fun {s} hs => ?_⟩
  cases hlookup : s.bodies.lookup key with
  | some known =>
    have hrun : ∀ engine, declareBody engine job key body s = (pure known : M _) s := by
      intro engine
      rw [declareBody, bind_of_ok (get_eq_ok.mpr ⟨rfl, rfl⟩)]
      simp only [hlookup]
    exact ((Interrupts.pure known).inState hs).congr (hrun cut) (hrun full)
  | none =>
    -- what follows the inner step, which cannot fail
    let settle (resolved : ComponentType) : M ComponentType := do
      modify fun state => { state with bodies := state.bodies ++ [(key, resolved)] }
      pure resolved
    have hrun : ∀ engine, declareBody engine job key body s =
        (entering ("requestBodies." ++ key)
          (under ["components", "requestBodies", key] (typeOfBody engine job key body)) >>=
            settle) s := by
      intro engine
      rw [declareBody, bind_of_ok (get_eq_ok.mpr ⟨rfl, rfl⟩)]
      simp only [hlookup]
      rfl
    refine ((((typeOfBody_interrupts h hfull hbody).under _).entering _).inState hs |>.bind
      fun {result t} hresult hle => .of_advances ?_).congr (hrun cut) (hrun full)
    have hsettle : settle result t =
        .ok result { t with bodies := t.bodies ++ [(key, result)] } := rfl
    have hsound := declareBody_sound hfull
      ((hrun full).trans (bind_eq_ok.mpr ⟨result, t, hresult, hsettle⟩)) hbody hs.justified
    have hgrows : Grows t { t with bodies := t.bodies ++ [(key, result)] } :=
      { Grows.refl t with bodies := List.prefix_append _ _ }
    rw [stateAfter_of_ok hsettle]
    exact ⟨hgrows, hle.2.of_grows hgrows rfl hsound.1.justified⟩

end

/-! ### Runs that are broken off -/

/-- Ends the run in a state that `stop` picks. -/
def breakOff (stop : State → Bool) : M Unit := do
  if stop (← get) then throw .exhausted

/-- Breaks a step off when it starts or ends in a state that `stop` picks. -/
def stopping {α : Type} (stop : State → Bool) (step : M α) : M α := do
  breakOff stop
  let a ← step
  breakOff stop
  pure a

/-- The engine whose calls are broken off when they start or end in such a state. -/
def Engine.stopping (stop : State → Bool) (engine : Engine) : Engine where
  node hint node := Compile.stopping stop (engine.node hint node)
  schema hint schema := Compile.stopping stop (engine.schema hint schema)
  absorb draft node := Compile.stopping stop (engine.absorb draft node)
  component key node := Compile.stopping stop (engine.component key node)
  requestBody key body := Compile.stopping stop (engine.requestBody key body)

/-- The engine with the given number of levels, where calls are broken off on every level. -/
def Engine.stoppingLevels (stop : State → Bool) (job : Job) (levels : Nat) : Engine :=
  Nat.repeat (fun engine => (Engine.step job engine).stopping stop) levels Engine.exhausted

/-- A compilation that ends as soon as a call starts or ends in a state that `stop` picks. -/
def compileUntil (stop : State → Bool) (job : Job) : M Unit :=
  (Engine.stoppingLevels stop job job.levels).compileDocument job

section

variable {α : Type} {progress : Progress} {stop earlier : State → Bool} {job : Job}

/-- Breaking off does nothing or fails. -/
theorem breakOff_below : Below (breakOff stop) (pure ()) := by
  refine .bind (.refl get) fun state => ?_
  split
  · exact fun s => .inl (fails_throw.mpr rfl)
  · exact .refl _

/-- A step that may be stopped does what the step does, or fails. -/
theorem stopping_below (step : M α) : Below (stopping stop step) step := by
  have hbelow : Below (stopping stop step)
      (pure () >>= fun _ => step >>= fun a => pure () >>= fun _ => pure a) :=
    .bind breakOff_below fun _ => .bind (.refl step) fun _ => .bind breakOff_below fun _ => .refl _
  simpa using hbelow

/-- A step that is never stopped is the step. -/
theorem stopping_never (step : M α) : stopping (fun _ => false) step = step := by
  have hnever : breakOff (fun _ => false) = pure () := rfl
  rw [stopping, hnever]
  simp

/-- A run is broken off in the states that are picked, and they are left as they are. -/
theorem breakOff_eq (s : State) :
    breakOff stop s = if stop s then .error .exhausted s else .ok () s := by
  rw [breakOff, bind_of_ok (get_eq_ok.mpr ⟨rfl, rfl⟩)]
  split <;> rfl

/-- What picks more states ends a run earlier. -/
theorem breakOff_interrupts (hmore : ∀ s, stop s = true → earlier s = true) :
    Interrupts progress (breakOff earlier) (breakOff stop) := by
  have hleaves : ∀ (stop : State → Bool) s, stateAfter (breakOff stop) s = s := by
    intro stop s
    rw [stateAfter, breakOff_eq]
    cases stop s <;> rfl
  refine ⟨fun {s} hs => ?_⟩
  have hkept := progress.le_of_same hs ⟨rfl, rfl, rfl⟩
  refine ⟨by rwa [hleaves], ?_⟩
  cases hearlier : earlier s with
  | true => exact .inr ⟨_, s, by rw [breakOff_eq, if_pos hearlier], by rwa [hleaves]⟩
  | false =>
    have hstop : ¬ stop s = true := fun hstop => by simp [hmore s hstop] at hearlier
    exact .inl (by rw [breakOff_eq, breakOff_eq, hearlier, if_neg hstop]; rfl)

/-- A step that is broken off in more states is broken off earlier. -/
theorem Interrupts.stopping {cut full : M α} (hmore : ∀ s, stop s = true → earlier s = true)
    (h : Interrupts progress cut full) :
    Interrupts progress (Compile.stopping earlier cut) (Compile.stopping stop full) :=
  .bind (breakOff_interrupts hmore) fun _ => .bind h fun _ =>
    .bind (breakOff_interrupts hmore) fun _ => .pure _

/-- The more states are picked, the earlier an engine breaks off. -/
theorem Engine.Interrupts.stopping {cut full : Engine}
    (hmore : ∀ s, stop s = true → earlier s = true) (h : cut.Interrupts job progress full) :
    (cut.stopping earlier).Interrupts job progress (full.stopping stop) where
  node hint node := (h.node hint node).stopping hmore
  schema hint schema := (h.schema hint schema).stopping hmore
  absorb draft node := (h.absorb draft node).stopping hmore
  component hnode := (h.component hnode).stopping hmore
  requestBody hbody := (h.requestBody hbody).stopping hmore

/-- An engine that may be stopped does what the engine does, or fails. -/
theorem Engine.stopping_below (engine : Engine) : (engine.stopping stop).Below engine where
  node _ _ := Compile.stopping_below _
  schema _ _ := Compile.stopping_below _
  absorb _ _ := Compile.stopping_below _
  component _ _ := Compile.stopping_below _
  requestBody _ _ := Compile.stopping_below _

/-- An engine that is never stopped is the engine. -/
theorem Engine.stopping_never (engine : Engine) : engine.stopping (fun _ => false) = engine := by
  simp only [Engine.stopping, Compile.stopping_never]

/-- Calls that may be stopped are sound, as they do nothing new. -/
theorem Engine.Sound.stopping {engine : Engine} (h : engine.Sound job) :
    (engine.stopping stop).Sound job where
  node hrun hs := h.node ((Compile.stopping_below _).eq_ok hrun) hs
  schema hrun hs := h.schema ((Compile.stopping_below _).eq_ok hrun) hs
  absorb hrun hs := h.absorb ((Compile.stopping_below _).eq_ok hrun) hs
  component hrun hnode hs := h.component ((Compile.stopping_below _).eq_ok hrun) hnode hs
  requestBody hrun hbody hs := h.requestBody ((Compile.stopping_below _).eq_ok hrun) hbody hs

/-! ### Levels -/

/-- A step below a lower one is below the upper one. -/
theorem Below.trans {step other third : M α} (h : Below step other) (h' : Below other third) :
    Below step third := by
  intro s
  rcases h s with hfails | heq
  · exact .inl hfails
  · rw [Fails, heq]
    exact h' s

/-- An engine below a lower one is below the upper one. -/
theorem Engine.Below.trans {engine other third : Engine} (h : engine.Below other)
    (h' : other.Below third) : engine.Below third where
  node hint node := (h.node hint node).trans (h'.node hint node)
  schema hint schema := (h.schema hint schema).trans (h'.schema hint schema)
  absorb draft node := (h.absorb draft node).trans (h'.absorb draft node)
  component key node := (h.component key node).trans (h'.component key node)
  requestBody key body := (h.requestBody key body).trans (h'.requestBody key body)

/-- However many levels there are, stopping only fails more often. -/
theorem Engine.stoppingLevels_below (stop : State → Bool) (job : Job) (levels : Nat) :
    (Engine.stoppingLevels stop job levels).Below (Engine.ofLevels job levels) := by
  induction levels with
  | zero => exact Engine.exhausted_below _
  | succ levels ih => exact (Engine.stopping_below _).trans ih.step

/-- An engine all of whose levels are never stopped is the engine of these levels. -/
theorem Engine.stoppingLevels_never (job : Job) (levels : Nat) :
    Engine.stoppingLevels (fun _ => false) job levels = Engine.ofLevels job levels := by
  unfold stoppingLevels ofLevels
  simp only [Engine.stopping_never]

/-- An engine that may be stopped at all levels is sound. -/
theorem Engine.Sound.stoppingLevels (stop : State → Bool) (job : Job) (levels : Nat) :
    (Engine.stoppingLevels stop job levels).Sound job := by
  induction levels with
  | zero => exact .exhausted job
  | succ levels ih => exact ih.step.stopping

/-- The calls of a job are broken off earlier when more states are picked. -/
theorem Engine.stoppingLevels_interrupts (hmore : ∀ s, stop s = true → earlier s = true)
    {levels : Nat} (hlevels : levels ≤ job.levels) :
    (Engine.stoppingLevels earlier job levels).Interrupts job (chronicle job)
      (Engine.stoppingLevels stop job levels) := by
  induction levels with
  | zero => exact .exhausted job _
  | succ levels ih =>
    have hfewer : levels ≤ job.levels := Nat.le_of_succ_le hlevels
    have hsound := Engine.Sound.stoppingLevels stop job levels
    have hbelow : (Engine.stoppingLevels stop job levels).Below job.engine :=
      (Engine.stoppingLevels_below stop job levels).trans (Engine.ofLevels_below job hfewer)
    exact ((ih hfewer).step (declareSchema_interrupts (ih hfewer) hsound hbelow)
      (declareBody_interrupts (ih hfewer) hsound)).stopping hmore

end

/-! ### The passes -/

section

variable {job : Job} {cut full : Engine}

/-- Nothing can fail once the payloads of a method are compiled. -/
theorem infallible_finishMethod (name path : String) (verb : Verb) (item : PathItem)
    (operation : Operation) (payloads : Bool × MessageDraft × MessageDraft) :
    Infallible (finishMethod job name path verb item operation payloads) :=
  .bind (infallible_payloadType _) fun _ => .bind (infallible_payloadType _) fun _ =>
    infallible_annotate _ _ _

/-- Once the messages of a method are compiled, they are declared, and that does not fail. -/
theorem methodFor_interrupts (h : cut.Interrupts job (chronicle job) full)
    (hjob : full.Interrupts job (chronicle job) job.engine) {path : String} {item : PathItem}
    {verb : Verb} {operation : Operation} (hitem : (path, item) ∈ job.document.paths.entries)
    (hentry : (verb, operation) ∈ item.operations) :
    Interrupts (chronicle job)
      (cut.payloads job (job.methodName path verb) item operation >>=
        finishMethod job (job.methodName path verb) path verb item operation)
      (full.payloads job (job.methodName path verb) item operation >>=
        finishMethod job (job.methodName path verb) path verb item operation) := by
  refine ⟨fun {s} hs => ?_⟩
  refine ((payloads_interrupts h _ _ _).inState hs).bind fun {payloads t} hpayloads hle =>
    .of_advances ?_
  obtain ⟨hasBody, request, response⟩ := payloads
  obtain ⟨method, u, hfinish⟩ := infallible_finishMethod (job.methodName path verb) path verb item
    operation (hasBody, request, response) t
  -- what is not broken off is a method of the job
  have hmethod : methodFor job (job.methodName path verb) path verb item operation s =
      .ok method u := by
    rw [methodFor_eq]
    exact bind_eq_ok.mpr
      ⟨_, t, ((payloads_interrupts hjob _ _ _).inState hs).full_eq_ok hpayloads, hfinish⟩
  obtain ⟨hrequest, hresponse⟩ := payloads_name hpayloads
  obtain ⟨-, hadds⟩ := finishMethod_adds hrequest hresponse hfinish
  rw [stateAfter_of_ok hfinish]
  exact ⟨.of_adds hadds, hle.2.of_grows (.of_adds hadds) hadds.schemas
    (methodFor_sound hitem hentry hmethod hs.justified).1.justified⟩

/-- An operation may be broken off in its payloads. -/
theorem addOperation_interrupts (h : cut.Interrupts job (chronicle job) full)
    (hjob : full.Interrupts job (chronicle job) job.engine) {path : String} {item : PathItem}
    {entry : Verb × Operation} (hitem : (path, item) ∈ job.document.paths.entries)
    (hentry : entry ∈ item.operations) (service : ServiceDraft) :
    Interrupts (chronicle job) (cut.addOperation job path item service entry)
      (full.addOperation job path item service entry) := by
  obtain ⟨verb, operation⟩ := entry
  unfold Engine.addOperation
  dsimp only
  split
  · exact .pure _
  · split
    · exact .bind (.warn _) fun _ => .pure _
    · exact .bind ((methodFor_interrupts h hjob hitem hentry).under _) fun _ => .pure _

/-- The service may be broken off in any of its operations. -/
theorem declareService_interrupts (h : cut.Interrupts job (chronicle job) full)
    (hjob : full.Interrupts job (chronicle job) job.engine) :
    Interrupts (chronicle job) (cut.declareService job) (full.declareService job) := by
  refine .bind .read fun state => .bind (.foldlM (fun entry hitem service =>
    .foldlM (fun operation hentry service => addOperation_interrupts h hjob hitem hentry service) _)
    _) fun service => ?_
  split
  · refine ⟨fun {s} hs => .of_advances ?_⟩
    -- a service changes none of what is recorded of the file
    have hfile : (s.file.addService service).messages = s.file.messages ∧
        (s.file.addService service).enums = s.file.enums ∧
        (s.file.addService service).takenTypes = s.file.takenTypes ∧
        (s.file.addService service).dependencies = s.file.dependencies := by
      unfold FileDraft.addService
      split <;> exact ⟨rfl, rfl, rfl, rfl⟩
    obtain ⟨hmessages, henums, htaken, hdependencies⟩ := hfile
    have hgrows : Grows s { s with file := s.file.addService service } :=
      { Grows.refl s with
        messages := hmessages ▸ List.prefix_rfl
        enums := henums ▸ List.prefix_rfl }
    exact ⟨hgrows, hs.of_grows hgrows rfl
      (hs.justified.of_same hmessages henums htaken hdependencies rfl rfl)⟩
  · exact .pure _

/-- The components may be broken off in any of them. -/
theorem declareComponents_interrupts (h : cut.Interrupts job (chronicle job) full) :
    Interrupts (chronicle job) (cut.declareComponents job) (full.declareComponents job) := by
  refine .bind ⟨fun {s} hs => .of_advances ?_⟩ fun _ =>
    .bind (.forM fun entry hentry => .bind (h.component (Table.find?_eq_some_iff.mpr hentry))
      fun _ => .pure _) fun _ =>
    .forM fun entry hentry => .bind (h.requestBody (Table.find?_eq_some_iff.mpr hentry))
      fun _ => .pure _
  -- names are kept, and that declares nothing
  obtain ⟨_, t, hkeep⟩ := infallible_keepNames job s
  obtain ⟨reserved, rfl⟩ := keepNames_eq_ok hkeep
  rw [stateAfter_of_ok hkeep]
  have hgrows : Grows s { s with file := { s.file with reserved } } := { Grows.refl s with }
  exact ⟨hgrows, hs.of_grows hgrows rfl (hs.justified.of_same rfl rfl rfl rfl rfl rfl)⟩

/-- The whole run may be broken off in the components or in the service. -/
theorem compileDocument_interrupts (h : cut.Interrupts job (chronicle job) full)
    (hjob : full.Interrupts job (chronicle job) job.engine) :
    Interrupts (chronicle job) (cut.compileDocument job) (full.compileDocument job) := by
  refine .bind (declareComponents_interrupts h) fun _ => ?_
  split
  · exact declareService_interrupts h hjob
  · exact .pure _

/-- A call of the job that is not broken off takes nothing back. -/
theorem Engine.ofLevels_chronicles (job : Job) {levels : Nat} (hlevels : levels ≤ job.levels) :
    (Engine.ofLevels job levels).Interrupts job (chronicle job) (Engine.ofLevels job levels) := by
  have h : (Engine.stoppingLevels (fun _ => false) job levels).Interrupts job (chronicle job)
      (Engine.stoppingLevels (fun _ => false) job levels) :=
    Engine.stoppingLevels_interrupts (fun _ hstop => hstop) hlevels
  rwa [Engine.stoppingLevels_never] at h

/-- A step that succeeds has only added, and every component that is settled then has its record. -/
theorem chronicle_le_of_ok {α : Type} {job : Job} {step : M α} {a : α} {s t : State}
    (h : Interrupts (chronicle job) step step) (hrun : step s = .ok a t) (hs : Chronicled job s) :
    Grows s t ∧ Chronicled job t :=
  (h.inState hs).le_of_ok hrun

/-- A compilation that is broken off in more states ends earlier. -/
theorem compileUntil_interrupts {stop earlier : State → Bool}
    (hmore : ∀ s, stop s = true → earlier s = true) :
    Interrupts (chronicle job) (compileUntil earlier job) (compileUntil stop job) := by
  have hjob : (Engine.stoppingLevels stop job job.levels).Interrupts job (chronicle job)
      (Engine.stoppingLevels (fun _ => false) job job.levels) :=
    Engine.stoppingLevels_interrupts (by simp) (Nat.le_refl _)
  rw [Engine.stoppingLevels_never] at hjob
  exact compileDocument_interrupts (Engine.stoppingLevels_interrupts hmore (Nat.le_refl _)) hjob

/-- A compilation that is never broken off is that of the job. -/
theorem compileUntil_never (job : Job) :
    compileUntil (fun _ => false) job = compileDocument job := by
  rw [compileUntil, Engine.stoppingLevels_never]
  exact Engine.compileDocument_eq job

end

/-- At the start no component is settled, so there is nothing to record. -/
theorem chronicled_start (job : Job) :
    Chronicled job { file := startFile job.document job.config } :=
  ⟨justified_start job, by simp⟩

end Compile

end Protoscribe
