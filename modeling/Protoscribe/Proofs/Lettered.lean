import Protoscribe.Proofs.Spelling

/-!
# `Protoscribe.Proofs.Lettered`: texts that a name can be made from

A name keeps the letters and digits of its text and drops everything else. So it is empty exactly
when the text has neither letters nor digits (`fieldName_ne_empty_iff`, `messageName_ne_empty_iff`).
A name that is not empty has a letter or a digit itself, since the only other character is the
underscore in front of a first digit; so a name can be made from it again (`Lettered.fieldName`,
`Lettered.messageName`).
-/

set_option autoImplicit false

namespace Protoscribe

/-- The text has a letter or a digit. -/
def Lettered (text : String) : Prop :=
  ∃ c ∈ text.toList, c.isAlphanum = true

instance (text : String) : Decidable (Lettered text) :=
  decidable_of_iff (text.toList.any Char.isAlphanum = true) List.any_eq_true

namespace Lettered

variable {text first second : String}

/-- A text with a letter or a digit is not empty. -/
theorem ne_empty (h : Lettered text) : text ≠ "" := by
  rintro rfl
  obtain ⟨c, hc, -⟩ := h
  simp at hc

/-- A letter stays one when something comes behind it. -/
theorem append (h : Lettered first) (second : String) : Lettered (first ++ second) := by
  obtain ⟨c, hc, halphanum⟩ := h
  refine ⟨c, ?_, halphanum⟩
  rw [String.toList_append]
  exact List.mem_append_left _ hc

/-- A letter stays one when something comes in front of it. -/
theorem append_behind (first : String) (h : Lettered second) : Lettered (first ++ second) := by
  obtain ⟨c, hc, halphanum⟩ := h
  refine ⟨c, ?_, halphanum⟩
  rw [String.toList_append]
  exact List.mem_append_right _ hc

end Lettered

/-- A name is more than the underscore at its beginning. -/
theorem Guarded.lettered {name : String} (h : Guarded name.toList) (hname : name ≠ "") :
    Lettered name := by
  have hchars : name.toList ≠ [] := mt String.toList_eq_nil_iff.mp hname
  unfold Lettered
  generalize name.toList = chars at h hchars
  cases h with
  | nil => exact absurd rfl hchars
  | @letter c _ hc => exact ⟨c, List.mem_cons_self .., by simp [Char.isAlphanum, hc]⟩
  | @digit d _ hd => exact ⟨d, by simp, by simp [Char.isAlphanum, hd]⟩

/-! ### Names of fields -/

namespace Identifier

/-- A character that is added to words leaves one at least. -/
theorem extend_ne_nil (c : Char) (rest : List (List Char)) : extend c rest ≠ [] := by
  cases rest <;> simp [extend]

/-- A text has words exactly when it has a letter or a digit. -/
theorem words_eq_nil_iff {text : List Char} :
    words text = [] ↔ ∀ c ∈ text, c.isAlphanum = false := by
  fun_induction words text with
  | case1 => simp
  | case2 c hc => simp [hc]
  | case3 c hc => simpa using hc
  | case4 c next rest hc ih => simp [ih, show c.isAlphanum = false by simpa using hc]
  | case5 c next rest hc _ _ => simp [extend_ne_nil, show c.isAlphanum = true by simpa using hc]
  | case6 c next rest hc _ _ => simp [show c.isAlphanum = true by simpa using hc]

/-- A text has words exactly when it has a letter or a digit. -/
theorem words_ne_nil_iff {text : String} : words text.toList ≠ [] ↔ Lettered text := by
  rw [ne_eq, words_eq_nil_iff, Lettered]
  simp

/-- The underscore in front of a digit makes no name of nothing. -/
theorem guardDigit_eq_nil_iff {text : List Char} : guardDigit text = [] ↔ text = [] := by
  cases text with
  | nil => simp [guardDigit]
  | cons c rest =>
    rw [guardDigit]
    split <;> simp

/-- A text gives a field name exactly when it has a letter or a digit. -/
theorem fieldName_ne_empty_iff {text : String} : fieldName text ≠ "" ↔ Lettered text := by
  rw [← words_ne_nil_iff]
  refine not_congr ?_
  rw [fieldName, ← String.toList_eq_nil_iff, String.toList_ofList, snake, guardDigit_eq_nil_iff]
  constructor
  · intro hjoined
    cases hwords : words text.toList with
    | nil => rfl
    | cons word rest =>
      -- the first word would be a part of the name
      have hword : word ≠ [] := ne_nil_of_mem_words (hwords ▸ List.mem_cons_self ..)
      have hhead := congrArg List.head? hjoined
      rw [hwords, List.map_cons, head?_intercalate (by simpa using hword)] at hhead
      simp [hword] at hhead
  · intro hwords
    simp [hwords]

end Identifier

/-! ### Names of types -/

namespace Acronyms

open Identifier

/-- A word of a message name has the letters of the word in the text. -/
theorem map_toLower_wordInMessage (acronyms : Acronyms) (word : List Char) :
    (acronyms.wordInMessage word).map Char.toLower = word.map Char.toLower := by
  unfold wordInMessage
  simp only
  split
  · next spelling h => exact map_toLower_of_spelling? h
  · split
    · next spelling h =>
      -- a plural is spelled without its `s`, which comes back
      split at h
      · next hplural =>
        obtain ⟨stem, hstem⟩ := List.getLast?_eq_some_iff.mp hplural
        rw [hstem, List.dropLast_concat] at h
        rw [hstem, List.map_append, map_toLower_of_spelling? h]
        rfl
      · cases h
    · cases word with
      | nil => rfl
      | cons c rest => simp [capitalize]

/-- No word is lost to an acronym. -/
theorem wordInMessage_ne_nil (acronyms : Acronyms) {word : List Char} (h : word ≠ []) :
    acronyms.wordInMessage word ≠ [] := by
  intro hempty
  have hletters := acronyms.map_toLower_wordInMessage word
  rw [hempty, List.map_nil, List.nil_eq, List.map_eq_nil_iff] at hletters
  exact h hletters

/-- A text gives a message name exactly when it has a letter or a digit. -/
theorem messageName_ne_empty_iff {acronyms : Acronyms} {text : String} :
    acronyms.messageName text ≠ "" ↔ Lettered text := by
  rw [← words_ne_nil_iff]
  refine not_congr ?_
  rw [messageName, ← String.toList_eq_nil_iff, String.toList_ofList, camel,
    guardDigit_eq_nil_iff, List.flatMap_eq_nil_iff]
  constructor
  · intro hnone
    cases hwords : words text.toList with
    | nil => rfl
    | cons word rest =>
      have hmem : word ∈ words text.toList := hwords ▸ List.mem_cons_self ..
      exact absurd (hnone word hmem) (acronyms.wordInMessage_ne_nil (ne_nil_of_mem_words hmem))
  · intro hwords
    simp [hwords]

end Acronyms

/-! ### Names of names -/

/-- A field name has a letter or a digit if the text has. -/
theorem Lettered.fieldName {text : String} (h : Lettered text) :
    Lettered (Identifier.fieldName text) :=
  (Identifier.fieldName_guarded text).lettered (Identifier.fieldName_ne_empty_iff.mpr h)

/-- A message name has a letter or a digit if the text has. -/
theorem Lettered.messageName {text : String} (h : Lettered text) (acronyms : Acronyms) :
    Lettered (acronyms.messageName text) :=
  (acronyms.messageName_guarded text).lettered (Acronyms.messageName_ne_empty_iff.mpr h)

end Protoscribe
