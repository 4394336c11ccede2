import Protoscribe.Proofs.Identifier.Words

/-!
# `Protoscribe.Proofs.Identifier.SnakeCase`: the form of field names

A field name is in snake case: runs of small letters and digits, joined by single underscores, with
one more underscore in front of a first run that begins with a digit (`SnakeCase`). The underscores
separate, and inside a run there are no capitals, so the words of such a name are its runs
(`words_intercalate`). The underscore in front is a separator too, and it comes back behind the
second cut. So the names in snake case are exactly those that stay as they are
(`snake_eq_self_iff`), and naming a field after a field name changes nothing.
-/

set_option autoImplicit false

namespace Protoscribe.Identifier

/-- A run of small letters and digits. -/
structure IsRun (run : List Char) : Prop where
  ne_nil : run ≠ []
  small : ∀ c ∈ run, c.isLower = true ∨ c.isDigit = true

/-- Nothing, or runs with a single underscore between each two of them. One more underscore stands
in front exactly when the first run begins with a digit. -/
inductive SnakeCase : List Char → Prop
  | empty : SnakeCase []
  | letter {run : List Char} {rest : List (List Char)} (hruns : ∀ part ∈ run :: rest, IsRun part)
      (hfirst : ∀ c ∈ run.head?, c.isDigit = false) :
      SnakeCase (['_'].intercalate (run :: rest))
  | digit {run : List Char} {rest : List (List Char)} (hruns : ∀ part ∈ run :: rest, IsRun part)
      (hfirst : ∀ c ∈ run.head?, c.isDigit = true) :
      SnakeCase ('_' :: ['_'].intercalate (run :: rest))

/-! ### Runs -/

namespace IsRun

variable {run : List Char}

/-- A run has letters and digits only. -/
theorem isAlphanum (h : IsRun run) {c : Char} (hc : c ∈ run) : c.isAlphanum = true := by
  rcases h.small c hc with hlower | hdigit
  · simp [Char.isAlphanum, isAlpha_eq, hlower]
  · simp [Char.isAlphanum, hdigit]

/-- A run has no capitals. -/
theorem isUpper (h : IsRun run) {c : Char} (hc : c ∈ run) : c.isUpper = false := by
  have hsmall := h.small c hc
  rw [isLower_iff, isDigit_iff] at hsmall
  rw [Bool.eq_false_iff, ne_eq, isUpper_iff]
  omega

/-- A run is one word. -/
theorem words_eq (h : IsRun run) : words run = [run] :=
  words_of_no_capital h.ne_nil fun _ hc => ⟨h.isAlphanum hc, h.isUpper hc⟩

/-- A run is in lower case. -/
theorem map_toLower (h : IsRun run) : run.map Char.toLower = run := by
  have hsame : ∀ c ∈ run, c.toLower = id c := by
    intro c hc
    exact toLower_eq_self (h.isUpper hc)
  rw [List.map_congr_left hsame, List.map_id]

/-- In lower case, a word is a run. -/
theorem of_mem_words {text word : List Char} (hword : word ∈ words text) :
    IsRun (word.map Char.toLower) where
  ne_nil := by simpa using ne_nil_of_mem_words hword
  small c hc := by
    obtain ⟨letter, hletter, rfl⟩ := List.mem_map.mp hc
    have halphanum := isAlphanum_of_mem_words hword hletter
    rw [← isAlphanum_toLower, Char.isAlphanum, isAlpha_eq, isUpper_toLower] at halphanum
    simpa using halphanum

end IsRun

/-- The words of joined runs are the runs. -/
theorem words_intercalate {runs : List (List Char)} (h : ∀ run ∈ runs, IsRun run) :
    words (['_'].intercalate runs) = runs := by
  induction runs with
  | nil => rfl
  | cons run rest ih =>
    obtain ⟨hrun, hrest⟩ := List.forall_mem_cons.mp h
    cases rest with
    | nil => rw [List.intercalate_singleton, hrun.words_eq]
    | cons next rest =>
      rw [List.intercalate_cons_cons, List.append_assoc, List.singleton_append,
        words_append_cons (by decide), ih hrest, hrun.words_eq, List.singleton_append]

/-- Joined runs that begin with a guarded digit stay as they are. -/
theorem snake_guardDigit_intercalate {runs : List (List Char)} (h : ∀ run ∈ runs, IsRun run) :
    snake (guardDigit (['_'].intercalate runs)) = guardDigit (['_'].intercalate runs) := by
  have hlower : ∀ run ∈ runs, run.map Char.toLower = id run := by
    intro run hrun
    exact (h run hrun).map_toLower
  rw [snake, words_guardDigit, words_intercalate h, List.map_congr_left hlower, List.map_id]

/-! ### Snake case -/

/-- Joined runs begin with a letter or a digit. -/
theorem exists_intercalate_eq_cons {run : List Char} (rest : List (List Char)) (h : IsRun run) :
    ∃ c text, run.head? = some c ∧ ['_'].intercalate (run :: rest) = c :: text := by
  obtain ⟨c, others, rfl⟩ := List.exists_cons_of_ne_nil h.ne_nil
  cases rest with
  | nil => exact ⟨c, others, rfl, List.intercalate_singleton⟩
  | cons next rest =>
    rw [List.intercalate_cons_cons]
    exact ⟨c, _, rfl, rfl⟩

/-- The underscore in front is the one that guards a digit. -/
theorem snakeCase_iff {text : List Char} :
    SnakeCase text ↔
      ∃ runs, (∀ run ∈ runs, IsRun run) ∧ text = guardDigit (['_'].intercalate runs) := by
  -- there is a guard where the first run begins with a digit, and nowhere else
  constructor
  · intro h
    cases h with
    | empty => exact ⟨[], by simp, rfl⟩
    | @letter run rest hruns hfirst =>
      obtain ⟨c, text, hhead, htext⟩ :=
        exists_intercalate_eq_cons rest (hruns run (List.mem_cons_self ..))
      refine ⟨run :: rest, hruns, ?_⟩
      rw [htext, guardDigit, hfirst c hhead, if_neg (by decide)]
    | @digit run rest hruns hfirst =>
      obtain ⟨c, text, hhead, htext⟩ :=
        exists_intercalate_eq_cons rest (hruns run (List.mem_cons_self ..))
      refine ⟨run :: rest, hruns, ?_⟩
      rw [htext, guardDigit, if_pos (hfirst c hhead)]
  · rintro ⟨runs, hruns, rfl⟩
    cases runs with
    | nil => exact .empty
    | cons run rest =>
      obtain ⟨c, text, hhead, htext⟩ :=
        exists_intercalate_eq_cons rest (hruns run (List.mem_cons_self ..))
      rw [htext, guardDigit]
      by_cases hdigit : c.isDigit = true
      · rw [if_pos hdigit, ← htext]
        refine .digit hruns ?_
        intro d hd
        cases hhead.symm.trans hd
        exact hdigit
      · rw [if_neg hdigit, ← htext]
        refine .letter hruns ?_
        intro d hd
        cases hhead.symm.trans hd
        simpa using hdigit

/-- Whatever is put into snake case is snake case. -/
theorem snake_snakeCase (text : List Char) : SnakeCase (snake text) := by
  rw [snakeCase_iff]
  refine ⟨(words text).map (·.map Char.toLower), ?_, rfl⟩
  intro run hrun
  obtain ⟨word, hword, rfl⟩ := List.mem_map.mp hrun
  exact .of_mem_words hword

/-- The texts in snake case are those that stay as they are. -/
theorem snake_eq_self_iff {text : List Char} : snake text = text ↔ SnakeCase text := by
  constructor
  · intro h
    rw [← h]
    exact snake_snakeCase text
  · intro h
    obtain ⟨runs, hruns, rfl⟩ := snakeCase_iff.mp h
    exact snake_guardDigit_intercalate hruns

instance (text : List Char) : Decidable (SnakeCase text) :=
  decidable_of_iff (snake text = text) snake_eq_self_iff

/-- Every field name is in snake case, and a text is its own field name exactly when it is in snake
case. So the field name of a field name is the same name again. -/
theorem fieldName_eq_self_iff (text : String) :
    SnakeCase (fieldName text).toList ∧ (fieldName text = text ↔ SnakeCase text.toList) ∧
      fieldName (fieldName text) = fieldName text := by
  have hform : ∀ text : String, SnakeCase (fieldName text).toList := by
    intro text
    rw [fieldName, String.toList_ofList]
    exact snake_snakeCase text.toList
  have hfixed : ∀ text : String, fieldName text = text ↔ SnakeCase text.toList := by
    intro text
    rw [← snake_eq_self_iff, ← String.toList_inj, fieldName, String.toList_ofList]
  exact ⟨hform text, hfixed text, (hfixed (fieldName text)).mpr (hform text)⟩

example : SnakeCase "_3d_model".toList ∧ ¬ SnakeCase "d__3".toList ∧ ¬ SnakeCase "_d3".toList := by
  decide

end Protoscribe.Identifier
