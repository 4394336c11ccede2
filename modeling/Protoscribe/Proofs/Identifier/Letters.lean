import Protoscribe.Proofs.Identifier.Words

/-!
# `Protoscribe.Proofs.Identifier.Letters`: what a name keeps of its text

A name is made from the words of a text, and these are its letters and digits. A word of a message
name is spelled with the same letters as the word of the text, whether it is an abbreviation, the
plural of one, or neither (`map_toLower_wordInMessage`). Underscores are the only other characters,
and a message name has one at most, in front of a digit. So without its underscores and without
letter case, a name reads like the letters and digits of its text (`KeepsLetters`).
-/

set_option autoImplicit false

namespace Protoscribe

/-! ### Underscores -/

namespace Identifier

variable {text : List Char}

/-- The guard of a digit is an underscore and nothing else. -/
theorem filter_guardDigit (text : List Char) :
    (guardDigit text).filter (· != '_') = text.filter (· != '_') := by
  cases text with
  | nil => rfl
  | cons c rest =>
    rw [guardDigit]
    split
    · rw [List.filter_cons_of_neg (by decide)]
    · rfl

/-- Letters and digits are no underscores. -/
theorem filter_of_isAlphanum (h : ∀ c ∈ text, c.isAlphanum = true) :
    text.filter (· != '_') = text := by
  rw [List.filter_eq_self]
  intro c hc
  rw [bne_iff_ne]
  rintro rfl
  exact absurd (h '_' hc) (by decide)

/-- Without the underscores between them, the parts follow one another. -/
theorem filter_intercalate {parts : List (List Char)}
    (h : ∀ part ∈ parts, ∀ c ∈ part, c.isAlphanum = true) :
    (['_'].intercalate parts).filter (· != '_') = parts.flatten := by
  induction parts with
  | nil => rfl
  | cons part rest ih =>
    obtain ⟨hpart, hrest⟩ := List.forall_mem_cons.mp h
    cases rest with
    | nil => rw [List.intercalate_singleton, filter_of_isAlphanum hpart, List.flatten_singleton]
    | cons next rest =>
      rw [List.intercalate_cons_cons, List.filter_append, List.filter_append, ih hrest,
        filter_of_isAlphanum hpart, List.filter_cons_of_neg (by decide), List.filter_nil,
        List.append_nil, @List.flatten_cons _ part]

/-- In a text of letters and digits, the guard is the only underscore. -/
theorem underscore_not_mem_tail_guardDigit (h : ∀ c ∈ text, c.isAlphanum = true) :
    '_' ∉ (guardDigit text).tail := by
  intro hmem
  exact absurd (h '_' (mem_of_mem_tail_guardDigit hmem)) (by decide)

/-- A guarded text begins with an underscore exactly when there was a digit. -/
theorem head?_guardDigit (h : ∀ c ∈ text, c.isAlphanum = true) :
    (guardDigit text).head? = some '_' ↔ ∃ d, text.head? = some d ∧ d.isDigit = true := by
  cases text with
  | nil => simp [guardDigit]
  | cons c rest =>
    rw [guardDigit]
    by_cases hdigit : c.isDigit = true
    · simp [hdigit]
    · have hunderscore : c ≠ '_' := by
        rintro rfl
        exact absurd (h '_' (List.mem_cons_self ..)) (by decide)
      simp [hdigit, hunderscore]

/-! ### Letters -/

/-- The letters and digits of a text, in lower case. -/
def letters (text : List Char) : List Char :=
  (text.filter Char.isAlphanum).map Char.toLower

/-- Lower case is final. -/
theorem map_toLower_map_toLower (text : List Char) :
    (text.map Char.toLower).map Char.toLower = text.map Char.toLower := by
  rw [List.map_map]
  exact List.map_congr_left fun c _ => toLower_toLower c

/-- Field names keep letters and digits. -/
theorem map_toLower_snake (text : List Char) :
    ((snake text).filter (· != '_')).map Char.toLower = letters text := by
  have halphanum : ∀ part ∈ (words text).map (·.map Char.toLower), ∀ c ∈ part,
      c.isAlphanum = true := by
    intro part hpart c hc
    obtain ⟨word, hword, rfl⟩ := List.mem_map.mp hpart
    obtain ⟨letter, hletter, rfl⟩ := List.mem_map.mp hc
    rw [isAlphanum_toLower]
    exact isAlphanum_of_mem_words hword hletter
  rw [snake, filter_guardDigit, filter_intercalate halphanum, ← List.map_flatten, flatten_words,
    map_toLower_map_toLower, letters]

end Identifier

namespace Acronyms

open Identifier

variable {acronyms : Acronyms}

/-- Whatever the case, the words of a message name have the letters of the text. -/
theorem map_toLower_spelled (acronyms : Acronyms) (text : List Char) :
    ((words text).flatMap acronyms.wordInMessage).map Char.toLower = letters text := by
  have hwords : (words text).map (List.map Char.toLower ∘ acronyms.wordInMessage) =
      (words text).map (List.map Char.toLower) :=
    List.map_congr_left fun word _ => acronyms.map_toLower_wordInMessage word
  rw [List.flatMap_def, List.map_flatten, List.map_map, hwords, ← List.map_flatten,
    flatten_words, letters]

/-- Message names keep letters and digits. -/
theorem map_toLower_camel (acronyms : Acronyms) (text : List Char) :
    ((acronyms.camel text).filter (· != '_')).map Char.toLower = letters text := by
  rw [camel, filter_guardDigit, filter_of_isAlphanum fun _ => isAlphanum_of_mem_spelled,
    map_toLower_spelled]

/-- A message name begins with a digit, were it not guarded, when the first letter or digit of the
text is one. -/
theorem head?_spelled {text : List Char} :
    (∃ d, ((words text).flatMap acronyms.wordInMessage).head? = some d ∧ d.isDigit = true) ↔
      ∃ d, text.find? Char.isAlphanum = some d ∧ d.isDigit = true := by
  have hfirst := congrArg List.head? (acronyms.map_toLower_spelled text)
  rw [letters, List.head?_map, List.head?_map, List.head?_filter] at hfirst
  cases hspelled : ((words text).flatMap acronyms.wordInMessage).head? with
  | none =>
    rw [hspelled, Option.map_none] at hfirst
    rw [Option.map_eq_none_iff.mp hfirst.symm]
  | some c =>
    rw [hspelled, Option.map_some] at hfirst
    obtain ⟨d, hd, hsame⟩ := Option.map_eq_some_iff.mp hfirst.symm
    have hdigit : c.isDigit = d.isDigit := by
      rw [← isDigit_toLower c, ← isDigit_toLower d, hsame]
    simp [hd, hdigit]

end Acronyms

/-! ### Names -/

open Identifier (letters)

/-- The name has the letters and digits of the text. It is empty when there are none, and a legal
identifier otherwise. -/
structure KeepsLetters (text name : String) : Prop where
  letters : (name.toList.filter (· != '_')).map Char.toLower = letters text.toList
  empty_iff : name = "" ↔ ∀ c ∈ text.toList, c.isAlphanum = false
  legal : name ≠ "" → Legal name

/-- The underscore of a message name: it stands in front only, and only when the first letter or
digit of the text is a digit. -/
structure GuardsDigit (text name : String) : Prop where
  alone : '_' ∉ name.toList.tail
  head_iff : name.toList.head? = some '_' ↔
    ∃ d, text.toList.find? Char.isAlphanum = some d ∧ d.isDigit = true

/-- A text has no letters when no character is one. -/
theorem not_lettered_iff {text : String} :
    ¬ Lettered text ↔ ∀ c ∈ text.toList, c.isAlphanum = false := by
  simp [Lettered]

/-- Names of types and fields keep the letters and digits of their texts, and no name of a type has
an underscore besides the one that guards a digit. -/
theorem names_keep_letters (acronyms : Acronyms) (text : String) :
    KeepsLetters text (acronyms.messageName text) ∧
      KeepsLetters text (Identifier.fieldName text) ∧
      GuardsDigit text (acronyms.messageName text) := by
  refine ⟨⟨?_, ?_, ?_⟩, ⟨?_, ?_, ?_⟩, ⟨?_, ?_⟩⟩
  · rw [Acronyms.messageName, String.toList_ofList]
    exact acronyms.map_toLower_camel text.toList
  · rw [← not_lettered_iff, ← @Acronyms.messageName_ne_empty_iff acronyms,
      Decidable.not_not]
  · exact (acronyms.messageName_legalUnlessEmpty text).legal
  · rw [Identifier.fieldName, String.toList_ofList]
    exact Identifier.map_toLower_snake text.toList
  · rw [← not_lettered_iff, ← Identifier.fieldName_ne_empty_iff, Decidable.not_not]
  · exact (Identifier.fieldName_legalUnlessEmpty text).legal
  · rw [Acronyms.messageName, String.toList_ofList]
    exact Identifier.underscore_not_mem_tail_guardDigit fun _ => Acronyms.isAlphanum_of_mem_spelled
  · rw [Acronyms.messageName, String.toList_ofList, Acronyms.camel,
      Identifier.head?_guardDigit fun _ => Acronyms.isAlphanum_of_mem_spelled]
    exact Acronyms.head?_spelled

end Protoscribe
