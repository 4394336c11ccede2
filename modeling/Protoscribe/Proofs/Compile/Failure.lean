import Protoscribe.Proofs.Compile.Run

/-!
# `Protoscribe.Proofs.Compile.Failure`: where a failing step failed

`Fails bad step s` says that a step fails in a state with an error of the kind `bad`. As
`Protoscribe.Proofs.Compile.Run` does for successful runs, the lemmas here read a failing run
backwards:

* `fails_bind`: a sequence fails when its first step fails, or when its second step fails in the
  state that the first one leaves.
* `fails_within`, `fails_under`: a step in a changed surrounding fails when the inner step does.
  `fails_entering` says that it also fails in a component that is being compiled already.
* `fails_foldlM`: a loop fails in one of its rounds.

Some steps cannot fail at all (`Infallible`).

Errors that a single place of the description is to blame for do not come from the recursion
(`OfRecursion`). Where only errors of the recursion count, looking up a reference does not fail.
-/

set_option autoImplicit false

namespace Protoscribe.Compile

open OpenApi (Referable Section SchemaNode)

variable {α β : Type} {bad : CompileError → Prop}

/-- A step fails in a state with an error of a kind. -/
def Fails (bad : CompileError → Prop) (step : M α) (s : State) : Prop :=
  ∃ error s', step s = .error error s' ∧ bad error

/-! ### Single steps -/

/-- Of two steps, the first one fails, or the second one does after it. -/
theorem fails_bind {step : M α} {next : α → M β} {s : State} :
    Fails bad (step >>= next) s ↔
      Fails bad step s ∨ ∃ a t, step s = .ok a t ∧ Fails bad (next a) t := by
  show (∃ error s', EStateM.bind step next s = .error error s' ∧ bad error) ↔ _
  unfold EStateM.bind Fails
  cases hstep : step s with
  | ok a t =>
    constructor
    · exact fun h => .inr ⟨a, t, rfl, h⟩
    · rintro (⟨_, _, h, -⟩ | ⟨_, _, hok, h⟩)
      · cases h
      · cases hok
        exact h
  | error e t => simp

/-- What becomes of a result afterwards cannot fail. -/
theorem fails_map {step : M α} {f : α → β} {s : State} :
    Fails bad (f <$> step) s ↔ Fails bad step s := by
  show (∃ error s', EStateM.map f step s = .error error s' ∧ bad error) ↔ _
  unfold EStateM.map Fails
  cases hstep : step s with
  | ok a t => simp
  | error e t => simp

/-- A result that is given back at once is no failure. -/
theorem not_fails_pure {a : α} {s : State} : ¬ Fails bad (pure a : M α) s := by
  rintro ⟨_, _, h, -⟩
  cases h

/-- Looking at the state is no failure. -/
theorem not_fails_get {s : State} : ¬ Fails bad (get : M State) s := by
  rintro ⟨_, _, h, -⟩
  cases h

/-- A change of the state is no failure. -/
theorem not_fails_modify {change : State → State} {s : State} :
    ¬ Fails bad (modify change : M PUnit) s := by
  rintro ⟨_, _, h, -⟩
  cases h

/-- An error that is raised is a failure if it counts as one. -/
theorem fails_throw {error : CompileError} {s : State} :
    Fails bad (throw error : M α) s ↔ bad error := by
  constructor
  · rintro ⟨_, _, h, hbad⟩
    cases h
    exact hbad
  · exact fun hbad => ⟨error, s, rfl, hbad⟩

/-- Putting something back afterwards neither brings nor takes a failure. -/
theorem fails_restoring {restore : State → State} {step : M α} {s : State} :
    Fails bad (restoring restore step) s ↔ Fails bad step s := by
  unfold Fails restoring
  cases hstep : step s with
  | ok a t => simp
  | error e t => simp

/-! ### Steps that cannot fail -/

/-- A step that succeeds in every state. -/
def Infallible (step : M α) : Prop :=
  ∀ s, ∃ a t, step s = .ok a t

namespace Infallible

/-- A step that cannot fail does not. -/
theorem not_fails {step : M α} (h : Infallible step) {s : State} : ¬ Fails bad step s := by
  rintro ⟨_, _, herror, -⟩
  obtain ⟨_, _, hok⟩ := h s
  cases hok.symm.trans herror

/-- Two steps that cannot fail. -/
theorem bind {step : M α} {next : α → M β} (hstep : Infallible step)
    (hnext : ∀ a, Infallible (next a)) : Infallible (step >>= next) := by
  intro s
  obtain ⟨a, t, ha⟩ := hstep s
  obtain ⟨b, u, hb⟩ := hnext a t
  exact ⟨b, u, bind_eq_ok.mpr ⟨a, t, ha, hb⟩⟩

/-- A result that is given back at once cannot fail. -/
theorem pure (a : α) : Infallible (Pure.pure a : M α) :=
  fun s => ⟨a, s, rfl⟩

/-- Looking at the state cannot fail. -/
theorem get : Infallible (MonadState.get : M State) :=
  fun s => ⟨s, s, rfl⟩

/-- A warning cannot fail. -/
theorem warn (warning : Warning) : Infallible (Compile.warn warning) :=
  fun _ => ⟨⟨⟩, _, rfl⟩

/-- A change of the file cannot fail. -/
theorem updateFile (change : FileDraft → FileDraft) : Infallible (Compile.updateFile change) :=
  fun _ => ⟨⟨⟩, _, rfl⟩

/-- Reading the place of the run cannot fail. -/
theorem place : Infallible Compile.place :=
  .bind .get fun _ => .pure _

/-- A loop cannot fail if no round can. -/
theorem foldlM {γ : Type} {round : α → γ → M α} (hround : ∀ a item, Infallible (round a item))
    (items : List γ) (init : α) : Infallible (items.foldlM round init) := by
  induction items generalizing init with
  | nil => exact .pure init
  | cons item rest ih =>
    rw [List.foldlM_cons]
    exact (hround init item).bind ih

end Infallible

/-! ### Steps in a changed surrounding -/

/-- A step inside a part of the description fails as it does there. -/
theorem fails_within {part : String} {step : M α} {s : State} :
    Fails bad (within part step) s ↔ Fails bad step { s with scope := s.scope ++ [part] } := by
  simp only [within, fails_bind, modify_eq_ok, fails_restoring, not_fails_modify, false_or]
  constructor
  · rintro ⟨_, _, rfl, hstep⟩
    exact hstep
  · exact fun hstep => ⟨⟨⟩, _, rfl, hstep⟩

/-- A step at another place of the description fails as it does there. -/
theorem fails_under {parts : List String} {step : M α} {s : State} :
    Fails bad (under parts step) s ↔ Fails bad step { s with scope := parts } := by
  simp only [under, fails_bind, get_eq_ok, modify_eq_ok, fails_restoring, not_fails_get,
    not_fails_modify, false_or]
  constructor
  · rintro ⟨_, _, ⟨rfl, rfl⟩, _, _, rfl, hstep⟩
    exact hstep
  · exact fun hstep => ⟨_, _, ⟨rfl, rfl⟩, ⟨⟩, _, rfl, hstep⟩

/-- A component is entered when it is not being compiled yet; otherwise a circle is reported. -/
theorem fails_entering {key : String} {step : M α} {s : State} :
    Fails bad (entering key step) s ↔
      key ∈ s.chain ∧ bad (.cycle key (s.chain ++ [key])) ∨
        key ∉ s.chain ∧ Fails bad step { s with chain := s.chain ++ [key] } := by
  simp only [entering, fails_bind, get_eq_ok, not_fails_get, false_or]
  -- a key that is on the chain is reported, any other one is put on it
  constructor
  · rintro ⟨_, _, ⟨rfl, rfl⟩, h⟩
    split at h
    · rename_i hkey
      simp only [fails_bind, fails_throw] at h
      rcases h with hcycle | ⟨_, _, hthrow, -⟩
      · exact .inl ⟨by simpa using hkey, hcycle⟩
      · exact absurd hthrow throw_ne_ok
    · rename_i hkey
      simp only [fails_bind, modify_eq_ok, not_fails_modify, false_or, fails_restoring] at h
      obtain ⟨_, _, rfl, hstep⟩ := h
      exact .inr ⟨by simpa using hkey, hstep⟩
  · rintro (⟨hkey, hcycle⟩ | ⟨hkey, hstep⟩)
    · refine ⟨s, s, ⟨rfl, rfl⟩, ?_⟩
      rw [if_pos (by simpa using hkey)]
      exact fails_bind.mpr (.inl (fails_throw.mpr hcycle))
    · refine ⟨s, s, ⟨rfl, rfl⟩, ?_⟩
      rw [if_neg (by simpa using hkey)]
      refine fails_bind.mpr (.inr ⟨⟨⟩, _, modify_eq_ok.mpr rfl, ?_⟩)
      exact fails_restoring.mpr hstep

/-! ### References -/

/-- Errors that come from the recursion, and not from one place of the description alone. -/
structure OfRecursion (bad : CompileError → Prop) : Prop where
  reference : ∀ reference place, ¬ bad (.unresolvedReference reference place)
  order : ∀ place, ¬ bad (.invalidPropertyOrder place)

/-- A reference to nothing is no error of the recursion. -/
theorem OfRecursion.not_fails_dangling (hbad : OfRecursion bad) {reference : String} {s : State} :
    ¬ Fails bad (dangling reference : M α) s := by
  intro h
  simp only [dangling, fails_bind, fails_throw, Infallible.place.not_fails, false_or] at h
  obtain ⟨_, _, -, hthrow⟩ := h
  exact hbad.reference _ _ hthrow

/-- A component that is not there is no error of the recursion. -/
theorem OfRecursion.not_fails_findSchema (hbad : OfRecursion bad) {job : Job} {reference : String}
    {s : State} : ¬ Fails bad (findSchema job reference) s := by
  intro h
  unfold findSchema at h
  split at h
  · exact hbad.not_fails_dangling h
  · split at h
    · exact hbad.not_fails_dangling h
    · exact not_fails_pure h

/-- A definition in place is followed no further. -/
theorem not_fails_followFrom_inline {part : Section} {table : Table (Referable α)} {fuel : Nat}
    {seen : List String} {item : α} {s : State} :
    ¬ Fails bad (followFrom part table fuel seen (.inline item)) s := by
  unfold followFrom
  exact not_fails_pure

/-- A reference that is followed either closes a circle of keys, or the failure comes from the node
that it leads to. -/
theorem OfRecursion.fails_followFrom_ref (hbad : OfRecursion bad) {part : Section}
    {table : Table (Referable α)} {fuel : Nat} {seen : List String} {reference : String} {s : State}
    (h : Fails bad (followFrom part table (fuel + 1) seen (.ref reference)) s) :
    ∃ key, part.key? reference = some key ∧
      (key ∈ seen ∧ bad (.cycle key (seen ++ [key])) ∨
        key ∉ seen ∧ ∃ target, table.find? key = some target ∧
          Fails bad (followFrom part table fuel (seen ++ [key]) target) s) := by
  unfold followFrom at h
  cases hkey : part.key? reference with
  | none =>
    simp only [hkey] at h
    exact absurd h hbad.not_fails_dangling
  | some key =>
    simp only [hkey] at h
    refine ⟨key, rfl, ?_⟩
    split at h
    · rename_i hseen
      exact .inl ⟨by simpa using hseen, fails_throw.mp h⟩
    · rename_i hseen
      cases htarget : table.find? key with
      | none =>
        simp only [htarget] at h
        exact absurd h hbad.not_fails_dangling
      | some target =>
        simp only [htarget] at h
        exact .inr ⟨by simpa using hseen, target, rfl, h⟩

/-! ### Loops -/

/-- A loop fails in one of its rounds, where what the rounds before keep still holds. -/
theorem fails_foldlM {γ : Type} {round : α → γ → M α} {P : State → α → Prop} {items : List γ}
    (hround : ∀ {a item b s t}, item ∈ items → round a item s = .ok b t → P s a → P t b)
    {init : α} {s : State} (h : Fails bad (items.foldlM round init) s) (hinit : P s init) :
    ∃ item ∈ items, ∃ a t, P t a ∧ Fails bad (round a item) t := by
  induction items generalizing init s with
  | nil => exact absurd h not_fails_pure
  | cons item rest ih =>
    rw [List.foldlM_cons, fails_bind] at h
    rcases h with hfirst | ⟨a, t, hfirst, hrest⟩
    · exact ⟨item, List.mem_cons_self .., init, s, hinit, hfirst⟩
    · obtain ⟨other, hother, hfails⟩ := ih (fun hmem => hround (List.mem_cons_of_mem _ hmem)) hrest
        (hround (List.mem_cons_self ..) hfirst hinit)
      exact ⟨other, List.mem_cons_of_mem _ hother, hfails⟩

/-- The same for a loop without a value that is carried along. -/
theorem fails_forM {γ : Type} {round : γ → M PUnit} {P : State → Prop} {items : List γ}
    {s : State}
    (hround : ∀ {item t u}, item ∈ items → round item t = .ok ⟨⟩ u → P t → P u)
    (h : Fails bad (items.forM round) s) (hstart : P s) :
    ∃ item ∈ items, ∃ t, P t ∧ Fails bad (round item) t := by
  induction items generalizing s with
  | nil => exact absurd h not_fails_pure
  | cons item rest ih =>
    rcases fails_bind.mp h with hfirst | ⟨_, t, hfirst, hrest⟩
    · exact ⟨item, List.mem_cons_self .., s, hstart, hfirst⟩
    · obtain ⟨other, hother, hfails⟩ := ih (fun hmem => hround (List.mem_cons_of_mem _ hmem)) hrest
        (hround (List.mem_cons_self ..) hfirst hstart)
      exact ⟨other, List.mem_cons_of_mem _ hother, hfails⟩

end Protoscribe.Compile
