import Protoscribe.Identifier

/-!
# `Protoscribe.Proofs.Identifier`: the characters of a name

Every name is put together from the words of a text, which are letters and digits, and from
underscores (`Plain`). An abbreviation keeps its own spelling, but that differs from the word that
it stands for in letter case only. So `messageName` and `fieldName` are plain for every text and
every table of abbreviations (`messageName_plain`, `fieldName_plain`); in particular no name has a
dot.
-/

set_option autoImplicit false

namespace Protoscribe

/-- Is the character an ASCII letter, a digit or an underscore? -/
def isPlainChar (c : Char) : Bool :=
  c.isAlphanum || c == '_'

/-- All characters of the name are ASCII letters, digits or underscores. -/
def Plain (name : String) : Prop :=
  ∀ c ∈ name.toList, isPlainChar c = true

instance (name : String) : Decidable (Plain name) :=
  decidable_of_iff (name.toList.all isPlainChar = true) List.all_eq_true

/-- Two plain names make one. -/
theorem Plain.append {first second : String} (hfirst : Plain first) (hsecond : Plain second) :
    Plain (first ++ second) := by
  intro c hc
  rw [String.toList_append, List.mem_append] at hc
  rcases hc with hc | hc
  · exact hfirst c hc
  · exact hsecond c hc

/-- Plain parts make a plain name. -/
theorem Plain.join {parts : List String} (h : ∀ part ∈ parts, Plain part) :
    Plain (String.join parts) := by
  intro c hc
  rw [String.toList_join] at hc
  obtain ⟨part, hpart, hmem⟩ := List.mem_flatMap.mp hc
  exact h part hpart c hmem

/-- A plain name has no dot. -/
theorem Plain.dot_not_mem {name : String} (h : Plain name) : '.' ∉ name.toList := by
  intro hdot
  have hplain := h '.' hdot
  revert hplain
  decide

/-- A number is a plain name. -/
theorem plain_toString (n : Nat) : Plain (toString n) := by
  intro c hc
  have hdigit : c.isDigit = true := by
    refine Nat.isDigit_of_mem_toDigits (by decide) (by decide) (n := n) (b := 10) ?_
    simpa using hc
  simp [isPlainChar, Char.isAlphanum, hdigit]

namespace Identifier

/-! ### Words -/

/-- Adding a character to words brings this character and no other one. -/
theorem mem_extend {c : Char} {rest : List (List Char)} {word : List Char}
    (hword : word ∈ extend c rest) {d : Char} (hd : d ∈ word) :
    d = c ∨ ∃ other ∈ rest, d ∈ other := by
  cases rest with
  | nil =>
    simp only [extend, List.mem_singleton] at hword
    subst hword
    exact .inl (List.mem_singleton.mp hd)
  | cons first rest =>
    rcases List.mem_cons.mp hword with rfl | hword
    · rcases List.mem_cons.mp hd with rfl | hd
      · exact .inl rfl
      · exact .inr ⟨first, List.mem_cons_self .., hd⟩
    · exact .inr ⟨word, List.mem_cons_of_mem _ hword, hd⟩

/-- Words hold letters and digits only. -/
theorem isAlphanum_of_mem_words {text word : List Char} (hword : word ∈ words text) {c : Char}
    (hc : c ∈ word) : c.isAlphanum = true := by
  fun_induction words text generalizing word c with
  | case1 => simp at hword
  | case2 d hd =>
    cases List.mem_singleton.mp hword
    cases List.mem_singleton.mp hc
    exact hd
  | case3 d hd => simp at hword
  | case4 d next rest hd ih => exact ih hword hc
  | case5 d next rest hd hjoin ih =>
    -- the character goes in front of the first word
    rcases mem_extend hword hc with rfl | ⟨other, hother, hmem⟩
    · simpa using hd
    · exact ih hother hmem
  | case6 d next rest hd hcut ih =>
    rcases List.mem_cons.mp hword with rfl | hword
    · cases List.mem_singleton.mp hc
      simpa using hd
    · exact ih hword hc

/-! ### Letter case -/

/-- The letters and digits in three ranges. -/
theorem isAlphanum_iff {c : Char} : c.isAlphanum = true ↔
    65 ≤ c.val.toNat ∧ c.val.toNat ≤ 90 ∨ 97 ≤ c.val.toNat ∧ c.val.toNat ≤ 122 ∨
      48 ≤ c.val.toNat ∧ c.val.toNat ≤ 57 := by
  show ((decide (c.val ≥ 65 ∧ c.val ≤ 90) || (decide (c.val ≥ 97) && decide (c.val ≤ 122))) ||
    (decide (c.val ≥ 48) && decide (c.val ≤ 57))) = true ↔ _
  simp only [Bool.or_eq_true, Bool.and_eq_true, decide_eq_true_eq, ge_iff_le,
    UInt32.le_iff_toNat_le]
  exact or_assoc

/-- Lower case moves the capitals to the small letters, and nothing else. -/
theorem toNat_toLower (c : Char) :
    c.toLower.val.toNat =
      if 65 ≤ c.val.toNat ∧ c.val.toNat ≤ 90 then c.val.toNat + 32 else c.val.toNat := by
  unfold Char.toLower
  split
  · next h =>
    have hlow : 65 ≤ c.val.toNat := h.1
    have hhigh : c.val.toNat ≤ 90 := h.2
    rw [if_pos ⟨hlow, hhigh⟩, UInt32.toNat_add, show ('a'.val - 'A'.val).toNat = 32 from rfl]
    omega
  · next h => exact (if_neg h).symm

/-- Upper case moves the small letters to the capitals, and nothing else. -/
theorem toNat_toUpper (c : Char) :
    c.toUpper.val.toNat =
      if 97 ≤ c.val.toNat ∧ c.val.toNat ≤ 122 then c.val.toNat - 32 else c.val.toNat := by
  unfold Char.toUpper
  split
  · next h =>
    have hlow : 97 ≤ c.val.toNat := h.1
    have hhigh : c.val.toNat ≤ 122 := h.2
    -- the difference of the two letters wraps around
    rw [if_pos ⟨hlow, hhigh⟩, UInt32.toNat_add,
      show ('A'.val - 'a'.val).toNat = 4294967264 from rfl]
    omega
  · next h => exact (if_neg h).symm

/-- Lower case leaves letters and digits what they are. -/
theorem isAlphanum_toLower (c : Char) : c.toLower.isAlphanum = c.isAlphanum := by
  rw [Bool.eq_iff_iff, isAlphanum_iff, isAlphanum_iff, toNat_toLower]
  split <;> omega

/-- Upper case leaves letters and digits what they are. -/
theorem isAlphanum_toUpper (c : Char) : c.toUpper.isAlphanum = c.isAlphanum := by
  rw [Bool.eq_iff_iff, isAlphanum_iff, isAlphanum_iff, toNat_toUpper]
  split <;> omega

/-- A capital at the front brings no other kind of character. -/
theorem isAlphanum_of_mem_capitalize {word : List Char}
    (hword : ∀ c ∈ word, c.isAlphanum = true) {c : Char} (hc : c ∈ capitalize word) :
    c.isAlphanum = true := by
  cases word with
  | nil => simp [capitalize] at hc
  | cons first rest =>
    rcases List.mem_cons.mp hc with rfl | hc
    · rw [isAlphanum_toUpper]
      exact hword first (List.mem_cons_self ..)
    · exact hword c (List.mem_cons_of_mem _ hc)

/-! ### Whole names -/

/-- Letters and digits are plain. -/
theorem isPlainChar_of_isAlphanum {c : Char} (h : c.isAlphanum = true) : isPlainChar c = true := by
  simp [isPlainChar, h]

/-- The underscore in front of a digit is the only character that the guard adds. -/
theorem mem_guardDigit {text : List Char} {c : Char} (hc : c ∈ guardDigit text) :
    c = '_' ∨ c ∈ text := by
  cases text with
  | nil => simp [guardDigit] at hc
  | cons first rest =>
    rw [guardDigit] at hc
    split at hc
    · exact List.mem_cons.mp hc
    · exact .inr hc

/-- The underscore in front of a digit is plain. -/
theorem isPlainChar_of_mem_guardDigit {text : List Char}
    (htext : ∀ c ∈ text, isPlainChar c = true) {c : Char} (hc : c ∈ guardDigit text) :
    isPlainChar c = true := by
  rcases mem_guardDigit hc with rfl | hc
  · decide
  · exact htext c hc

/-- What is put together of parts has the characters of the parts and those between them. -/
theorem mem_intercalate {α : Type} {separator : List α} {parts : List (List α)} {a : α}
    (h : a ∈ separator.intercalate parts) : a ∈ separator ∨ ∃ part ∈ parts, a ∈ part := by
  induction parts with
  | nil => simp at h
  | cons part rest ih =>
    cases rest with
    | nil =>
      rw [List.intercalate_singleton] at h
      exact .inr ⟨part, List.mem_cons_self .., h⟩
    | cons next rest =>
      rw [List.intercalate_cons_cons, List.mem_append, List.mem_append] at h
      rcases h with (h | h) | h
      · exact .inr ⟨part, List.mem_cons_self .., h⟩
      · exact .inl h
      · rcases ih h with h | ⟨other, hother, hmem⟩
        · exact .inl h
        · exact .inr ⟨other, List.mem_cons_of_mem _ hother, hmem⟩

/-- Field names are plain. -/
theorem fieldName_plain (text : String) : Plain (fieldName text) := by
  intro c hc
  rw [fieldName, String.toList_ofList] at hc
  refine isPlainChar_of_mem_guardDigit (fun d hd => ?_) hc
  rcases mem_intercalate hd with hd | ⟨part, hpart, hmem⟩
  · cases List.mem_singleton.mp hd
    decide
  · obtain ⟨word, hword, rfl⟩ := List.mem_map.mp hpart
    obtain ⟨letter, hletter, rfl⟩ := List.mem_map.mp hmem
    refine isPlainChar_of_isAlphanum ?_
    rw [isAlphanum_toLower]
    exact isAlphanum_of_mem_words hword hletter

end Identifier

namespace Acronyms

open Identifier

/-- A spelling differs in letter case only from the abbreviation that it stands for. -/
theorem map_toLower_of_spelling? {acronyms : Acronyms} {lower spelling : List Char}
    (h : acronyms.spelling? lower = some spelling) : spelling.map Char.toLower = lower := by
  unfold spelling? at h
  split at h
  · cases h
  · simpa using List.find?_some h

/-- A spelling has letters and digits only, as the abbreviation has that it stands for. -/
theorem isAlphanum_of_spelling? {acronyms : Acronyms} {lower spelling : List Char}
    (h : acronyms.spelling? lower = some spelling) (hlower : ∀ c ∈ lower, c.isAlphanum = true)
    {c : Char} (hc : c ∈ spelling) : c.isAlphanum = true := by
  rw [← isAlphanum_toLower]
  exact hlower _ (map_toLower_of_spelling? h ▸ List.mem_map_of_mem hc)

/-- An acronym is letters and digits if the word is, in either spelling. -/
theorem isAlphanum_of_mem_wordInMessage {acronyms : Acronyms} {word : List Char}
    (hword : ∀ c ∈ word, c.isAlphanum = true) {c : Char}
    (hc : c ∈ acronyms.wordInMessage word) : c.isAlphanum = true := by
  have hlower : ∀ d ∈ word.map Char.toLower, d.isAlphanum = true := by
    intro d hd
    obtain ⟨letter, hletter, rfl⟩ := List.mem_map.mp hd
    rw [isAlphanum_toLower]
    exact hword letter hletter
  unfold wordInMessage at hc
  simp only at hc
  split at hc
  · next spelling h => exact isAlphanum_of_spelling? h hlower hc
  · split at hc
    · next spelling h =>
      -- a plural: the spelling and an `s` behind it
      split at h
      · rcases List.mem_append.mp hc with hc | hc
        · exact isAlphanum_of_spelling? h
            (fun d hd => hlower d (List.dropLast_subset _ hd)) hc
        · cases List.mem_singleton.mp hc
          decide
      · cases h
    · exact isAlphanum_of_mem_capitalize hlower hc

/-- The words of a message name, in front of which a digit is guarded. -/
theorem isAlphanum_of_mem_spelled {acronyms : Acronyms} {text : List Char} {c : Char}
    (hc : c ∈ (words text).flatMap acronyms.wordInMessage) : c.isAlphanum = true := by
  obtain ⟨word, hword, hmem⟩ := List.mem_flatMap.mp hc
  exact isAlphanum_of_mem_wordInMessage (fun _ => isAlphanum_of_mem_words hword) hmem

/-- Names of messages, enums and methods are plain. -/
theorem messageName_plain (acronyms : Acronyms) (text : String) :
    Plain (acronyms.messageName text) := by
  intro c hc
  rw [messageName, String.toList_ofList] at hc
  refine isPlainChar_of_mem_guardDigit (fun d hd => ?_) hc
  exact isPlainChar_of_isAlphanum (isAlphanum_of_mem_spelled hd)

end Acronyms

end Protoscribe
