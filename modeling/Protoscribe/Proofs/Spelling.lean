import Protoscribe.Proofs.Identifier

/-!
# `Protoscribe.Proofs.Spelling`: how names begin, and which case they have

A name may not begin with a digit, so an underscore goes in front of one. No other name that is made
from a text begins with an underscore (`Guarded`). Fields have no capitals, values of enums have no
small letters (`UpperName`), and types have no underscores behind their first character, unless they
have a small letter (`TypeName`). So names of different kinds are often different: the name of a
oneof group that is made for one field, which is the name of the field behind an underscore, is the
name of nothing else (`UnderscoreGuards.ne_underscore_fieldName`), and a value that begins with a
letter is no field (`UpperName.ne_fieldName`) and, with an underscore in it, no type
(`UpperName.ne_typeName`).
-/

set_option autoImplicit false

namespace Protoscribe

/-! ### Characters -/

/-- The capital letters are those from `A` to `Z`. -/
theorem isUpper_iff {c : Char} :
    c.isUpper = true ↔ 65 ≤ c.val.toNat ∧ c.val.toNat ≤ 90 := by
  show decide (c.val ≥ 65 ∧ c.val ≤ 90) = true ↔ _
  simp only [decide_eq_true_eq, ge_iff_le, UInt32.le_iff_toNat_le]
  rfl

/-- The small letters are those from `a` to `z`. -/
theorem isLower_iff {c : Char} :
    c.isLower = true ↔ 97 ≤ c.val.toNat ∧ c.val.toNat ≤ 122 := by
  show (decide (c.val ≥ 97) && decide (c.val ≤ 122)) = true ↔ _
  simp only [Bool.and_eq_true, decide_eq_true_eq, ge_iff_le,
    UInt32.le_iff_toNat_le]
  rfl

/-- The digits are those from `0` to `9`. -/
theorem isDigit_iff {c : Char} :
    c.isDigit = true ↔ 48 ≤ c.val.toNat ∧ c.val.toNat ≤ 57 := by
  show (decide (c.val ≥ 48) && decide (c.val ≤ 57)) = true ↔ _
  simp only [Bool.and_eq_true, decide_eq_true_eq, ge_iff_le,
    UInt32.le_iff_toNat_le]
  rfl

/-- A letter is a capital or a small one. -/
theorem isAlpha_eq (c : Char) : c.isAlpha = (c.isUpper || c.isLower) :=
  rfl

/-- The letters in two ranges. -/
theorem isAlpha_iff {c : Char} :
    c.isAlpha = true ↔ 65 ≤ c.val.toNat ∧ c.val.toNat ≤ 90 ∨
      97 ≤ c.val.toNat ∧ c.val.toNat ≤ 122 := by
  rw [isAlpha_eq, Bool.or_eq_true, isUpper_iff, isLower_iff]

/-- A character in lower case is no capital. -/
theorem isUpper_toLower (c : Char) : c.toLower.isUpper = false := by
  rw [Bool.eq_false_iff, ne_eq, isUpper_iff, Identifier.toNat_toLower]
  split <;> omega

/-- A character in upper case is no small letter. -/
theorem isLower_toUpper (c : Char) : c.toUpper.isLower = false := by
  rw [Bool.eq_false_iff, ne_eq, isLower_iff, Identifier.toNat_toUpper]
  split <;> omega

/-- Lower case leaves digits alone. -/
theorem isDigit_toLower (c : Char) : c.toLower.isDigit = c.isDigit := by
  rw [Bool.eq_iff_iff, isDigit_iff, isDigit_iff, Identifier.toNat_toLower]
  split <;> omega

/-- Upper case leaves digits alone. -/
theorem isDigit_toUpper (c : Char) : c.toUpper.isDigit = c.isDigit := by
  rw [Bool.eq_iff_iff, isDigit_iff, isDigit_iff, Identifier.toNat_toUpper]
  split <;> omega

/-- Upper case leaves letters letters. -/
theorem isAlpha_toUpper (c : Char) : c.toUpper.isAlpha = c.isAlpha := by
  rw [Bool.eq_iff_iff, isAlpha_iff, isAlpha_iff, Identifier.toNat_toUpper]
  split <;> omega

/-- The capitals in upper case are the letters. -/
theorem isUpper_toUpper (c : Char) : c.toUpper.isUpper = c.isAlpha := by
  rw [Bool.eq_iff_iff, isUpper_iff, isAlpha_iff, Identifier.toNat_toUpper]
  split <;> omega

/-- The small letters in lower case are the letters. -/
theorem isLower_toLower (c : Char) : c.toLower.isLower = c.isAlpha := by
  rw [Bool.eq_iff_iff, isLower_iff, isAlpha_iff, Identifier.toNat_toLower]
  split <;> omega

/-- What is no capital stays as it is in lower case. -/
theorem toLower_eq_self {c : Char} (h : c.isUpper = false) : c.toLower = c := by
  rw [Bool.eq_false_iff, ne_eq, isUpper_iff] at h
  apply Char.ext
  rw [← UInt32.toNat_inj, Identifier.toNat_toLower, if_neg h]

/-- What is no small letter stays as it is in upper case. -/
theorem toUpper_eq_self {c : Char} (h : c.isLower = false) : c.toUpper = c := by
  rw [Bool.eq_false_iff, ne_eq, isLower_iff] at h
  apply Char.ext
  rw [← UInt32.toNat_inj, Identifier.toNat_toUpper, if_neg h]

/-- Lower case is final. -/
@[simp] theorem toLower_toLower (c : Char) : c.toLower.toLower = c.toLower :=
  toLower_eq_self (isUpper_toLower c)

/-- Lower case does not see that there was an upper case before. -/
@[simp] theorem toLower_toUpper (c : Char) : c.toUpper.toLower = c.toLower := by
  apply Char.ext
  rw [← UInt32.toNat_inj, Identifier.toNat_toLower, Identifier.toNat_toLower,
    Identifier.toNat_toUpper]
  by_cases hsmall : 97 ≤ c.val.toNat ∧ c.val.toNat ≤ 122
  · rw [if_pos hsmall, if_pos (by omega), if_neg (by omega)]
    omega
  · rw [if_neg hsmall]

/-- Upper case does not see that there was a lower case before. -/
@[simp] theorem toUpper_toLower (c : Char) : c.toLower.toUpper = c.toUpper := by
  apply Char.ext
  rw [← UInt32.toNat_inj, Identifier.toNat_toUpper, Identifier.toNat_toUpper,
    Identifier.toNat_toLower]
  by_cases hcapital : 65 ≤ c.val.toNat ∧ c.val.toNat ≤ 90
  · rw [if_pos hcapital, if_pos (by omega), if_neg (by omega)]
    omega
  · rw [if_neg hcapital]

/-- A letter is no digit. -/
theorem not_isDigit_of_isAlpha {c : Char} (h : c.isAlpha = true) : c.isDigit = false := by
  rw [isAlpha_iff] at h
  rw [Bool.eq_false_iff, ne_eq, isDigit_iff]
  omega

/-! ### Beginnings -/

/-- A text that begins with a letter, or with an underscore in front of a digit, unless it is
empty. -/
inductive Guarded : List Char → Prop
  | nil : Guarded []
  | letter {c : Char} {rest : List Char} (h : c.isAlpha = true) : Guarded (c :: rest)
  | digit {d : Char} {rest : List Char} (h : d.isDigit = true) : Guarded ('_' :: d :: rest)

/-- An underscore at the beginning of the name stands in front of a digit or a capital. -/
def UnderscoreGuards (name : String) : Prop :=
  ∀ rest, name.toList = '_' :: rest →
    ∃ c, rest.head? = some c ∧ (c.isDigit = true ∨ c.isUpper = true)

/-- A guarded text stays guarded in upper case. -/
theorem Guarded.map_toUpper {text : List Char} (h : Guarded text) :
    Guarded (text.map Char.toUpper) := by
  cases h with
  | nil => exact .nil
  | letter h => exact .letter ((isAlpha_toUpper _).trans h)
  | digit h => exact .digit ((isDigit_toUpper _).trans h)

/-- A guarded text does not begin with a digit. -/
theorem Guarded.not_isDigit {text : List Char} (h : Guarded text) :
    ∀ c ∈ text.head?, c.isDigit = false := by
  cases h with
  | nil => simp
  | letter h =>
    rintro _ ⟨⟩
    exact not_isDigit_of_isAlpha h
  | digit _ =>
    rintro _ ⟨⟩
    decide

/-- An underscore at the beginning of a guarded text stands in front of a digit. -/
theorem Guarded.underscoreGuards {name : String} (h : Guarded name.toList) :
    UnderscoreGuards name := by
  intro rest hname
  rw [hname] at h
  cases h with
  | letter h => exact absurd h (by decide)
  | digit h => exact ⟨_, rfl, .inl h⟩

/-- A name in front keeps its beginning; an empty one leaves it to the name behind. -/
theorem UnderscoreGuards.append {first second : String} (hfirst : UnderscoreGuards first)
    (hsecond : UnderscoreGuards second) : UnderscoreGuards (first ++ second) := by
  intro rest hname
  rw [String.toList_append] at hname
  cases hchars : first.toList with
  | nil => exact hsecond rest (by simpa [hchars] using hname)
  | cons c others =>
    rw [hchars, List.cons_append, List.cons.injEq] at hname
    obtain ⟨rfl, rfl⟩ := hname
    obtain ⟨d, hhead, hd⟩ := hfirst others hchars
    exact ⟨d, by rw [List.head?_append, hhead]; rfl, hd⟩

/-- A text begins as the first of its parts does, the empty ones aside. -/
theorem UnderscoreGuards.join {parts : List String}
    (h : ∀ part ∈ parts, UnderscoreGuards part) : UnderscoreGuards (String.join parts) := by
  induction parts with
  | nil => exact fun rest hrest => by simp at hrest
  | cons part rest ih =>
    rw [String.join_cons]
    obtain ⟨hpart, hrest⟩ := List.forall_mem_cons.mp h
    exact hpart.append (ih hrest)

/-- A name that begins with a letter has no underscore to guard. -/
theorem underscoreGuards_of_head {name : String} {c : Char} (hhead : name.toList.head? = some c)
    (hc : c ≠ '_') : UnderscoreGuards name := by
  intro rest hname
  rw [hname] at hhead
  cases hhead
  exact absurd rfl hc

/-- A number begins with a digit. -/
theorem exists_digit_of_toString (n : Nat) :
    ∃ c, (toString n).toList.head? = some c ∧ c.isDigit = true := by
  rw [Nat.toString_eq_ofList_toDigits, String.toList_ofList]
  cases hdigits : Nat.toDigits 10 n with
  | nil => exact absurd hdigits Nat.toDigits_ne_nil
  | cons c rest =>
    have hmem : c ∈ Nat.toDigits 10 n := by simp [hdigits]
    exact ⟨c, rfl, Nat.isDigit_of_mem_toDigits (by decide) (by decide) hmem⟩

/-- A number does not begin with an underscore. -/
theorem underscoreGuards_toString (n : Nat) : UnderscoreGuards (toString n) := by
  obtain ⟨c, hhead, hdigit⟩ := exists_digit_of_toString n
  refine underscoreGuards_of_head hhead ?_
  rintro rfl
  exact absurd hdigit (by decide)

namespace Identifier

/-- A text that begins with a letter or a digit is guarded by the underscore that digits get. -/
theorem guarded_guardDigit {text : List Char} (h : ∀ c ∈ text.head?, c.isAlphanum = true) :
    Guarded (guardDigit text) := by
  cases text with
  | nil => exact .nil
  | cons c rest =>
    have hc : c.isAlpha = true ∨ c.isDigit = true := by
      simpa [Char.isAlphanum] using h c rfl
    rw [guardDigit]
    split
    · next hdigit => exact .digit hdigit
    · next hdigit => exact .letter (hc.resolve_right hdigit)

/-- Behind its first character, a guarded text has only characters of its own. -/
theorem mem_of_mem_tail_guardDigit {text : List Char} {c : Char} (hc : c ∈ (guardDigit text).tail) :
    c ∈ text := by
  cases text with
  | nil => simp [guardDigit] at hc
  | cons first rest =>
    rw [guardDigit] at hc
    split at hc
    · exact hc
    · exact List.mem_cons_of_mem _ hc

/-- A character that is added to words leaves no word empty. -/
theorem ne_nil_of_mem_extend {c : Char} {rest : List (List Char)} {word : List Char}
    (hrest : ∀ other ∈ rest, other ≠ []) (h : word ∈ extend c rest) : word ≠ [] := by
  cases rest with
  | nil =>
    cases List.mem_singleton.mp h
    simp
  | cons first rest =>
    rcases List.mem_cons.mp h with rfl | h
    · simp
    · exact hrest word (List.mem_cons_of_mem _ h)

/-- Words are not empty. -/
theorem ne_nil_of_mem_words {text word : List Char} (h : word ∈ words text) : word ≠ [] := by
  fun_induction words text generalizing word with
  | case1 => simp at h
  | case2 c _ =>
    cases List.mem_singleton.mp h
    simp
  | case3 c _ => simp at h
  | case4 c next rest _ ih => exact ih h
  | case5 c next rest _ _ ih => exact ne_nil_of_mem_extend (fun _ => ih) h
  | case6 c next rest _ _ ih =>
    rcases List.mem_cons.mp h with rfl | h
    · simp
    · exact ih h

/-- What is joined from words begins like the first one. -/
theorem head?_intercalate {separator word : List Char} {rest : List (List Char)}
    (h : word ≠ []) : (separator.intercalate (word :: rest)).head? = word.head? := by
  cases word with
  | nil => exact absurd rfl h
  | cons c others =>
    cases rest with
    | nil => simp
    | cons next rest => simp [List.intercalate_cons_cons]

/-- A text in snake case is guarded. -/
theorem snake_guarded (text : List Char) : Guarded (snake text) := by
  refine guarded_guardDigit fun c hc => ?_
  cases hwords : words text with
  | nil => simp [hwords] at hc
  | cons word rest =>
    have hmem : word ∈ words text := by simp [hwords]
    rw [hwords, List.map_cons, head?_intercalate (by simpa using ne_nil_of_mem_words hmem),
      List.head?_map] at hc
    obtain ⟨letter, hletter, rfl⟩ := Option.map_eq_some_iff.mp hc
    rw [isAlphanum_toLower]
    exact isAlphanum_of_mem_words hmem (List.mem_of_mem_head? hletter)

/-- A field name is guarded. -/
theorem fieldName_guarded (text : String) : Guarded (fieldName text).toList := by
  rw [fieldName, String.toList_ofList]
  exact snake_guarded _

/-- The name of an enum value is guarded. -/
theorem enumValueName_guarded (text : String) : Guarded (enumValueName text).toList := by
  rw [enumValueName, String.toList_ofList]
  exact (snake_guarded _).map_toUpper

/-! ### Letter case -/

/-- Field names have no capitals. -/
theorem isUpper_of_mem_fieldName {text : String} {c : Char}
    (hc : c ∈ (fieldName text).toList) : c.isUpper = false := by
  rw [fieldName, String.toList_ofList] at hc
  rcases mem_guardDigit hc with rfl | hc
  · decide
  · rcases mem_intercalate hc with hc | ⟨part, hpart, hmem⟩
    · cases List.mem_singleton.mp hc
      decide
    · obtain ⟨word, -, rfl⟩ := List.mem_map.mp hpart
      obtain ⟨letter, -, rfl⟩ := List.mem_map.mp hmem
      exact isUpper_toLower letter

/-- Names of values have no small letters. -/
theorem isLower_of_mem_enumValueName {text : String} {c : Char}
    (hc : c ∈ (enumValueName text).toList) : c.isLower = false := by
  rw [enumValueName, String.toList_ofList] at hc
  obtain ⟨letter, -, rfl⟩ := List.mem_map.mp hc
  exact isLower_toUpper letter

/-- Names of values are plain. -/
theorem enumValueName_plain (text : String) : Plain (enumValueName text) := by
  intro c hc
  rw [enumValueName, String.toList_ofList] at hc
  obtain ⟨letter, hletter, rfl⟩ := List.mem_map.mp hc
  have hplain := fieldName_plain text letter (by rwa [fieldName, String.toList_ofList])
  rw [isPlainChar, Bool.or_eq_true, beq_iff_eq] at hplain ⊢
  rcases hplain with hplain | rfl
  · exact .inl ((isAlphanum_toUpper letter).trans hplain)
  · exact .inr (by decide)

end Identifier

/-- A message name is guarded, also with acronyms. -/
theorem Acronyms.messageName_guarded (acronyms : Acronyms) (text : String) :
    Guarded (acronyms.messageName text).toList := by
  rw [messageName, String.toList_ofList]
  exact Identifier.guarded_guardDigit fun c hc =>
    isAlphanum_of_mem_spelled (List.mem_of_mem_head? hc)

/-! ### Types -/

/-- What the names of types have in common: an underscore that is not the first character comes
with a small letter. -/
structure TypeName (name : String) : Prop where
  guards : UnderscoreGuards name
  small : '_' ∈ name.toList.tail → ∃ c ∈ name.toList, c.isLower = true

/-- The underscore in front of a digit is the only one. -/
theorem Acronyms.messageName_typeName (acronyms : Acronyms) (text : String) :
    TypeName (acronyms.messageName text) where
  guards := (acronyms.messageName_guarded text).underscoreGuards
  small hunderscore := by
    rw [messageName, String.toList_ofList, camel] at hunderscore
    have hletter := isAlphanum_of_mem_spelled (Identifier.mem_of_mem_tail_guardDigit hunderscore)
    exact absurd hletter (by decide)

/-! ### Legal identifiers -/

/-- A legal identifier: letters, digits, and underscores, with no digit at the beginning. -/
structure Legal (name : String) : Prop where
  ne_empty : name ≠ ""
  plain : Plain name
  start : ∀ c ∈ name.toList.head?, c.isDigit = false

/-- What is behind a legal name does not change how it begins. -/
theorem Legal.append {first second : String} (h : Legal first) (hsecond : Plain second) :
    Legal (first ++ second) := by
  obtain ⟨c, rest, hchars⟩ := List.exists_cons_of_ne_nil (mt String.toList_eq_nil_iff.mp h.ne_empty)
  refine ⟨?_, h.plain.append hsecond, fun d hd => h.start d ?_⟩
  · intro hempty
    simpa [hchars] using congrArg String.toList hempty
  · rw [String.toList_append, hchars] at hd
    rw [hchars]
    exact hd

/-- A legal identifier, or no name at all. -/
structure LegalUnlessEmpty (name : String) : Prop where
  plain : Plain name
  start : ∀ c ∈ name.toList.head?, c.isDigit = false

namespace LegalUnlessEmpty

variable {first second name : String}

/-- A name that is legal unless it is empty, and is not empty. -/
theorem legal (h : LegalUnlessEmpty name) (hname : name ≠ "") : Legal name :=
  ⟨hname, h.plain, h.start⟩

/-- The empty name. -/
theorem empty : LegalUnlessEmpty "" :=
  ⟨by decide, by simp⟩

/-- An empty name leaves the beginning to the name behind it. -/
theorem append (hfirst : LegalUnlessEmpty first) (hsecond : LegalUnlessEmpty second) :
    LegalUnlessEmpty (first ++ second) where
  plain := hfirst.plain.append hsecond.plain
  start c hc := by
    rw [String.toList_append, List.head?_append] at hc
    cases hchars : first.toList with
    | nil => exact hsecond.start c (by simpa [hchars] using hc)
    | cons d rest =>
      rw [hchars] at hc
      exact hfirst.start c (by rw [hchars]; exact hc)

/-- Parts that are legal unless they are empty make such a name. -/
theorem join {parts : List String} (h : ∀ part ∈ parts, LegalUnlessEmpty part) :
    LegalUnlessEmpty (String.join parts) := by
  induction parts with
  | nil => exact empty
  | cons part rest ih =>
    rw [String.join_cons]
    obtain ⟨hpart, hrest⟩ := List.forall_mem_cons.mp h
    exact hpart.append (ih hrest)

end LegalUnlessEmpty

/-- A field name is legal unless it is empty. -/
theorem Identifier.fieldName_legalUnlessEmpty (text : String) : LegalUnlessEmpty (fieldName text) :=
  ⟨fieldName_plain text, (fieldName_guarded text).not_isDigit⟩

/-- A message name is legal unless it is empty. -/
theorem Acronyms.messageName_legalUnlessEmpty (acronyms : Acronyms) (text : String) :
    LegalUnlessEmpty (acronyms.messageName text) :=
  ⟨acronyms.messageName_plain text, (acronyms.messageName_guarded text).not_isDigit⟩

/-! ### Values -/

/-- What the names of values have in common with the parts that they are put together from. -/
structure UpperName (name : String) : Prop where
  plain : Plain name
  start : ∀ c ∈ name.toList.head?, c.isDigit = false
  guards : UnderscoreGuards name
  capitals : ∀ c ∈ name.toList, c.isLower = false

namespace UpperName

variable {first second name : String}

/-- A name in capitals is legal unless it is empty. -/
theorem legalUnlessEmpty (h : UpperName name) : LegalUnlessEmpty name :=
  ⟨h.plain, h.start⟩

/-- A name in capitals is legal when it is not empty. -/
theorem legal (h : UpperName name) (hname : name ≠ "") : Legal name :=
  h.legalUnlessEmpty.legal hname

/-- Two names in capitals make one. -/
theorem append (hfirst : UpperName first) (hsecond : UpperName second) :
    UpperName (first ++ second) where
  plain := hfirst.plain.append hsecond.plain
  start := hfirst.legalUnlessEmpty.append hsecond.legalUnlessEmpty |>.start
  guards := hfirst.guards.append hsecond.guards
  capitals c hc := by
    rw [String.toList_append, List.mem_append] at hc
    rcases hc with hc | hc
    · exact hfirst.capitals c hc
    · exact hsecond.capitals c hc

/-- A name without underscores at the beginning. -/
theorem of_head (name : String) {c : Char} (hhead : name.toList.head? = some c) (hc : c ≠ '_')
    (hdigit : c.isDigit = false) (hplain : Plain name)
    (hcapitals : ∀ c ∈ name.toList, c.isLower = false) : UpperName name where
  plain := hplain
  start d hd := by
    cases hhead.symm.trans hd
    exact hdigit
  guards := underscoreGuards_of_head hhead hc
  capitals := hcapitals

/-- An underscore with a digit or a capital behind it. -/
theorem underscore (name : String) {c : Char} (hhead : name.toList.head? = some c)
    (hc : c.isDigit = true ∨ c.isUpper = true) (hplain : Plain name)
    (hcapitals : ∀ c ∈ name.toList, c.isLower = false) : UpperName ("_" ++ name) where
  plain := Plain.append (by decide) hplain
  start d hd := by
    rw [String.toList_append] at hd
    cases hd
    decide
  guards rest hrest := by
    rw [String.toList_append] at hrest
    cases hrest
    exact ⟨c, hhead, hc⟩
  capitals d hd := by
    rw [String.toList_append, List.mem_append] at hd
    rcases hd with hd | hd
    · cases List.mem_singleton.mp hd
      decide
    · exact hcapitals d hd

/-- A value has no small letters, so it is no name that has one. -/
theorem ne_of_isLower (h : UpperName first) {c : Char} (hc : c ∈ second.toList)
    (hlower : c.isLower = true) : first ≠ second := by
  rintro rfl
  rw [h.capitals c hc] at hlower
  cases hlower

/-- A value that begins with a letter is no name of a field: the letter is a capital. -/
theorem ne_fieldName (h : UpperName name) (hname : name ≠ "")
    (hstart : name.toList.head? ≠ some '_') (text : String) : name ≠ Identifier.fieldName text := by
  obtain ⟨c, rest, hchars⟩ := List.exists_cons_of_ne_nil (mt String.toList_eq_nil_iff.mp hname)
  have hmem : c ∈ name.toList := by simp [hchars]
  have hunderscore : c ≠ '_' := by simpa [hchars] using hstart
  have hplain := h.plain c hmem
  have hupper : c.isUpper = true := by
    simpa [isPlainChar, Char.isAlphanum, isAlpha_eq, hunderscore, h.capitals c hmem,
      h.start c (by simp [hchars])] using hplain
  rintro rfl
  rw [Identifier.isUpper_of_mem_fieldName hmem] at hupper
  cases hupper

/-- A value that begins with a letter and has an underscore is no name of a type. -/
theorem ne_typeName (h : UpperName name) (hunderscore : '_' ∈ name.toList)
    (hstart : name.toList.head? ≠ some '_') {type : String} (htype : TypeName type) :
    name ≠ type := by
  rintro rfl
  obtain ⟨c, hc, hlower⟩ := htype.small <| by
    cases hchars : name.toList with
    | nil => simp [hchars] at hunderscore
    | cons first rest =>
      rw [hchars] at hunderscore hstart
      refine (List.mem_cons.mp hunderscore).resolve_left fun hfirst => hstart ?_
      rw [hfirst]
      rfl
  exact h.ne_of_isLower hc hlower rfl

/-- A number behind an underscore may end a name in capitals. -/
theorem number (n : Nat) : UpperName ("_" ++ toString n) := by
  obtain ⟨c, hhead, hdigit⟩ := exists_digit_of_toString n
  refine underscore _ hhead (.inl hdigit) (plain_toString n) fun d hd => ?_
  have hdigits : d.isDigit = true := by
    rw [Nat.toString_eq_ofList_toDigits, String.toList_ofList] at hd
    exact Nat.isDigit_of_mem_toDigits (by decide) (by decide) hd
  rw [isDigit_iff] at hdigits
  rw [Bool.eq_false_iff, ne_eq, isLower_iff]
  omega

end UpperName

/-- The name of an enum value is in capitals. -/
theorem Identifier.enumValueName_upperName (text : String) : UpperName (enumValueName text) where
  plain := enumValueName_plain text
  start := (enumValueName_guarded text).not_isDigit
  guards := (enumValueName_guarded text).underscoreGuards
  capitals _ := isLower_of_mem_enumValueName

/-- An underscore in front of the name of a field guards neither a digit nor a capital. -/
theorem UnderscoreGuards.ne_underscore_fieldName {name : String} (h : UnderscoreGuards name)
    (text : String) : name ≠ "_" ++ Identifier.fieldName text := by
  intro heq
  have hchars : name.toList = '_' :: (Identifier.fieldName text).toList := by
    rw [heq, String.toList_append]
    rfl
  obtain ⟨c, hhead, hc⟩ := h _ hchars
  rcases hc with hdigit | hupper
  · rw [(Identifier.fieldName_guarded text).not_isDigit c hhead] at hdigit
    cases hdigit
  · rw [Identifier.isUpper_of_mem_fieldName (List.mem_of_mem_head? hhead)] at hupper
    cases hupper

end Protoscribe
