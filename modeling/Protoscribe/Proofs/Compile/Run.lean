import Protoscribe.Compile.State

/-!
# `Protoscribe.Proofs.Compile.Run`: what a successful step went through

A step of a compilation is a function on the state that may fail. The lemmas here read a successful
run backwards, one operation at a time:

* `bind_eq_ok`: a sequence succeeds when its first step succeeds and its second step succeeds in
  the state that the first one leaves. `pure_eq_ok`, `get_eq_ok`, `modify_eq_ok`, and
  `throw_ne_ok` settle the single steps.
* `within_eq_ok`, `under_eq_ok`, `entering_eq_ok`: the run of the inner step, the state that it
  starts in, and the state that is put in order behind it.
* `findSchema_eq_ok` and `follow_eq_ok`: what a reference names, without a change to the state.
* `foldlM_cons_eq_ok`: the first round of a loop and the remaining ones.
-/

set_option autoImplicit false

namespace Protoscribe.Compile

open OpenApi (Referable Section SchemaNode)

variable {α β : Type}

/-! ### Single steps -/

/-- Two steps succeed when both do, one after the other. -/
theorem bind_eq_ok {step : M α} {next : α → M β} {s s' : State} {b : β} :
    (step >>= next) s = .ok b s' ↔ ∃ a s₁, step s = .ok a s₁ ∧ next a s₁ = .ok b s' := by
  show EStateM.bind step next s = .ok b s' ↔ _
  unfold EStateM.bind
  cases hstep : step s with
  | ok a s₁ =>
    constructor
    · intro h
      exact ⟨a, s₁, rfl, h⟩
    · rintro ⟨a, s₁, ha, h⟩
      cases ha
      exact h
  | error e s₁ => simp

/-- A result that is given back at once. -/
theorem pure_eq_ok {a b : α} {s s' : State} :
    (pure a : M α) s = .ok b s' ↔ b = a ∧ s' = s := by
  constructor
  · intro h
    cases h
    exact ⟨rfl, rfl⟩
  · rintro ⟨rfl, rfl⟩
    rfl

/-- Looking at the state. -/
theorem get_eq_ok {a s s' : State} : (get : M State) s = .ok a s' ↔ a = s ∧ s' = s := by
  constructor
  · intro h
    cases h
    exact ⟨rfl, rfl⟩
  · rintro ⟨rfl, rfl⟩
    rfl

/-- Changing the state. -/
theorem modify_eq_ok {change : State → State} {a : PUnit} {s s' : State} :
    (modify change : M PUnit) s = .ok a s' ↔ s' = change s := by
  constructor
  · intro h
    cases h
    rfl
  · rintro rfl
    rfl

/-- An error is no success. -/
theorem throw_ne_ok {e : CompileError} {a : α} {s s' : State} :
    (throw e : M α) s ≠ .ok a s' := by
  intro h
  cases h

/-- What becomes of a result afterwards. -/
theorem map_eq_ok {step : M α} {f : α → β} {s s' : State} {b : β} :
    (f <$> step) s = .ok b s' ↔ ∃ a, step s = .ok a s' ∧ b = f a := by
  show EStateM.map f step s = .ok b s' ↔ _
  unfold EStateM.map
  cases hstep : step s with
  | ok a s₁ =>
    constructor
    · intro h
      cases h
      exact ⟨a, rfl, rfl⟩
    · rintro ⟨a, ha, rfl⟩
      cases ha
      rfl
  | error e s₁ => simp

/-- What is put back after a success. -/
theorem restoring_eq_ok {restore : State → State} {step : M α} {s s' : State} {a : α} :
    restoring restore step s = .ok a s' ↔ ∃ s₁, step s = .ok a s₁ ∧ s' = restore s₁ := by
  unfold restoring
  cases hstep : step s with
  | ok b s₁ =>
    constructor
    · intro h
      cases h
      exact ⟨s₁, rfl, rfl⟩
    · rintro ⟨s₁, hb, rfl⟩
      cases hb
      rfl
  | error e s₁ => simp

/-- Reading the place leaves the state alone. -/
theorem place_eq_ok {a : String} {s s' : State} (h : place s = .ok a s') : s' = s := by
  simp only [place, bind_eq_ok, get_eq_ok, pure_eq_ok] at h
  obtain ⟨_, _, ⟨rfl, rfl⟩, _, rfl⟩ := h
  rfl

/-- A warning comes behind those that are there. -/
theorem warn_eq_ok {warning : Warning} {a : Unit} {s s' : State} :
    warn warning s = .ok a s' ↔ s' = { s with warnings := s.warnings ++ [warning] } :=
  modify_eq_ok

/-- Changing the file. -/
theorem updateFile_eq_ok {change : FileDraft → FileDraft} {a : Unit} {s s' : State} :
    updateFile change s = .ok a s' ↔ s' = { s with file := change s.file } :=
  modify_eq_ok

/-- A reference that names nothing ends the run. -/
theorem dangling_ne_ok {reference : String} {a : α} {s s' : State} :
    (dangling reference : M α) s ≠ .ok a s' := by
  intro h
  simp only [dangling, bind_eq_ok] at h
  obtain ⟨_, _, -, h⟩ := h
  exact throw_ne_ok h

/-! ### Steps in a changed surrounding -/

/-- A success inside a part of the description, which is left afterwards. -/
theorem within_eq_ok {part : String} {step : M α} {s s' : State} {a : α} :
    within part step s = .ok a s' ↔
      ∃ s₁, step { s with scope := s.scope ++ [part] } = .ok a s₁ ∧
        s' = { s₁ with scope := s₁.scope.dropLast } := by
  simp only [within, bind_eq_ok, modify_eq_ok, restoring_eq_ok]
  constructor
  · rintro ⟨_, _, rfl, h⟩
    exact h
  · intro h
    exact ⟨⟨⟩, _, rfl, h⟩

/-- A success at another place of the description, which is left afterwards. -/
theorem under_eq_ok {parts : List String} {step : M α} {s s' : State} {a : α} :
    under parts step s = .ok a s' ↔
      ∃ s₁, step { s with scope := parts } = .ok a s₁ ∧ s' = { s₁ with scope := s.scope } := by
  simp only [under, bind_eq_ok, get_eq_ok, modify_eq_ok, restoring_eq_ok]
  constructor
  · rintro ⟨_, _, ⟨rfl, rfl⟩, _, _, rfl, h⟩
    exact h
  · intro h
    exact ⟨_, _, ⟨rfl, rfl⟩, ⟨⟩, _, rfl, h⟩

/-- A component that is entered was not being compiled before. -/
theorem entering_eq_ok {key : String} {step : M α} {s s' : State} {a : α}
    (h : entering key step s = .ok a s') :
    key ∉ s.chain ∧ ∃ s₁, step { s with chain := s.chain ++ [key] } = .ok a s₁ ∧
      s' = { s₁ with chain := s₁.chain.dropLast } := by
  simp only [entering, bind_eq_ok, get_eq_ok] at h
  obtain ⟨_, _, ⟨rfl, rfl⟩, h⟩ := h
  split at h
  · simp only [bind_eq_ok] at h
    obtain ⟨_, _, h, -⟩ := h
    exact absurd h throw_ne_ok
  · rename_i hfree
    simp only [bind_eq_ok, modify_eq_ok, restoring_eq_ok] at h
    obtain ⟨_, _, rfl, h⟩ := h
    exact ⟨by simpa using hfree, h⟩

/-! ### References -/

/-- What `findSchema` gives is the component of the key that the reference names. -/
theorem findSchema_eq_ok {job : Job} {reference : String} {found : String × SchemaNode}
    {s s' : State} (h : findSchema job reference s = .ok found s') :
    Section.schemas.key? reference = some found.1 ∧
      job.document.components.schemas.find? found.1 = some found.2 ∧ s' = s := by
  unfold findSchema at h
  cases hkey : Section.schemas.key? reference with
  | none =>
    simp only [hkey] at h
    exact absurd h dangling_ne_ok
  | some key =>
    simp only [hkey] at h
    cases hnode : job.document.components.schemas.find? key with
    | none =>
      simp only [hnode] at h
      exact absurd h dangling_ne_ok
    | some node =>
      simp only [hnode, pure_eq_ok] at h
      obtain ⟨rfl, rfl⟩ := h
      exact ⟨rfl, hnode, rfl⟩

/-- A reference that is followed to a definition has an entry, and this one is followed on. -/
theorem followFrom_ref_eq_ok {part : Section} {table : Table (Referable α)} {fuel : Nat}
    {seen : List String} {reference : String} {item : α} {s s' : State}
    (h : followFrom part table (fuel + 1) seen (.ref reference) s = .ok item s') :
    ∃ key next, part.key? reference = some key ∧ table.find? key = some next ∧
      followFrom part table fuel (seen ++ [key]) next s = .ok item s' := by
  unfold followFrom at h
  cases hkey : part.key? reference with
  | none =>
    simp only [hkey] at h
    exact absurd h dangling_ne_ok
  | some key =>
    simp only [hkey] at h
    split at h
    · exact absurd h throw_ne_ok
    · cases hnext : table.find? key with
      | none =>
        simp only [hnext] at h
        exact absurd h dangling_ne_ok
      | some next =>
        simp only [hnext] at h
        exact ⟨key, next, rfl, hnext, h⟩

/-- Following references leaves the state as it is. -/
theorem followFrom_eq_ok {part : Section} {table : Table (Referable α)} {fuel : Nat}
    {seen : List String} {node : Referable α} {item : α} {s s' : State}
    (h : followFrom part table fuel seen node s = .ok item s') : s' = s := by
  induction fuel generalizing seen node with
  | zero =>
    cases node with
    | inline value => exact (pure_eq_ok.mp h).2
    | ref reference => exact absurd h throw_ne_ok
  | succ fuel ih =>
    cases node with
    | inline value => exact (pure_eq_ok.mp h).2
    | ref reference =>
      obtain ⟨key, next, -, -, hrest⟩ := followFrom_ref_eq_ok h
      exact ih hrest

/-- Following references reads the document only. -/
theorem follow_eq_ok {part : Section} {table : Table (Referable α)} {node : Referable α}
    {item : α} {s s' : State} (h : follow part table node s = .ok item s') : s' = s :=
  followFrom_eq_ok h

/-! ### Loops -/

/-- A loop succeeds when its first round and the rest do. -/
theorem foldlM_cons_eq_ok {γ : Type} {round : α → γ → M α} {init result : α} {first : γ}
    {rest : List γ} {s s' : State} :
    (first :: rest).foldlM round init s = .ok result s' ↔
      ∃ a s₁, round init first s = .ok a s₁ ∧ rest.foldlM round a s₁ = .ok result s' := by
  rw [List.foldlM_cons, bind_eq_ok]

/-- A loop over nothing. -/
theorem foldlM_nil_eq_ok {γ : Type} {round : α → γ → M α} {init result : α} {s s' : State} :
    ([] : List γ).foldlM round init s = .ok result s' ↔ result = init ∧ s' = s := by
  rw [List.foldlM_nil, pure_eq_ok]

end Protoscribe.Compile
