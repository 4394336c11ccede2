import Mathlib.Data.List.Chain
import Protoscribe.Proofs.Identifier.Letters

/-!
# `Protoscribe.Proofs.Identifier.Repeated`: names that are made from names

A message name joins its words without a sign between them, and only letter case tells them apart.
When a name is made from it again, it is cut anew: two words may have run into one, and the spelling
of an abbreviation may fall apart. So the second name is the first one exactly when each word that
it is cut into is spelled as the table wants it (`camel_camel_eq_iff`).

Without abbreviations, a word has no capital behind its first character, and a capital starts a word
again unless the word in front is a single letter and no small letter behind the capital shows that
it is more than the end of a run (`runsInto`). So the names that stay are those of texts in which no
word runs into the next one (`camel_camel_empty_iff`).
-/

set_option autoImplicit false

namespace Protoscribe

namespace Identifier

variable {c d : Char} {text rest : List Char}

/-- The underscore in front of a digit makes no two names the same. -/
theorem guardDigit_injective {first second : List Char}
    (hfirst : ∀ c ∈ first, c.isAlphanum = true) (hsecond : ∀ c ∈ second, c.isAlphanum = true)
    (h : guardDigit first = guardDigit second) : first = second := by
  calc first
    _ = (guardDigit first).filter (· != '_') := by
      rw [filter_guardDigit, filter_of_isAlphanum hfirst]
    _ = (guardDigit second).filter (· != '_') := by rw [h]
    _ = second := by rw [filter_guardDigit, filter_of_isAlphanum hsecond]

/-- Parts that keep their lengths keep the whole only when each of them is kept. -/
theorem flatMap_eq_flatten_iff {change : List Char → List Char}
    (hlength : ∀ part, (change part).length = part.length) {parts : List (List Char)} :
    parts.flatMap change = parts.flatten ↔ ∀ part ∈ parts, change part = part := by
  induction parts with
  | nil => simp
  | cons part rest ih =>
    rw [List.flatMap_cons, List.flatten_cons, List.forall_mem_cons, ← ih]
    constructor
    · intro h
      exact List.append_inj h (hlength part)
    · rintro ⟨hpart, hrest⟩
      rw [hpart, hrest]

end Identifier

namespace Acronyms

open Identifier

/-- An acronym is as long as the word that it stands for. -/
theorem length_wordInMessage (acronyms : Acronyms) (word : List Char) :
    (acronyms.wordInMessage word).length = word.length := by
  rw [← List.length_map (f := Char.toLower), map_toLower_wordInMessage, List.length_map]

/-- A guarded text of letters and digits is its own name exactly when its words are spelled as they
are. -/
theorem camel_guardDigit_eq_iff (acronyms : Acronyms) {text : List Char}
    (h : ∀ c ∈ text, c.isAlphanum = true) :
    acronyms.camel (guardDigit text) = guardDigit text ↔
      ∀ word ∈ words text, acronyms.wordInMessage word = word := by
  rw [← flatMap_eq_flatten_iff acronyms.length_wordInMessage, flatten_words,
    List.filter_eq_self.mpr h, camel, words_guardDigit]
  constructor
  · intro hguarded
    exact guardDigit_injective (fun _ => isAlphanum_of_mem_spelled) h hguarded
  · intro hsame
    rw [hsame]

/-- The name of a name is the same name exactly when its words are spelled as they are. -/
theorem camel_camel_eq_iff (acronyms : Acronyms) (text : List Char) :
    acronyms.camel (acronyms.camel text) = acronyms.camel text ↔
      ∀ word ∈ words (acronyms.camel text), acronyms.wordInMessage word = word := by
  have hname : acronyms.camel text =
      guardDigit ((words text).flatMap acronyms.wordInMessage) := rfl
  rw [hname, camel_guardDigit_eq_iff acronyms fun _ => isAlphanum_of_mem_spelled, words_guardDigit]

end Acronyms

/-! ### Capitals -/

namespace Identifier

variable {c : Char} {text word rest behind : List Char}

/-- Does every capital but the first character start a word? -/
def capitalsStart : List Char → Bool
  | c :: next :: rest =>
    (!next.isUpper || startsWord c next rest) && capitalsStart (next :: rest)
  | _ => true

/-- A text of letters and digits begins with its first word. -/
theorem head?_of_words_cons {others : List (List Char)} (h : ∀ c ∈ text, c.isAlphanum = true)
    (hwords : words text = word :: others) : word.head? = text.head? := by
  have hflat := flatten_words text
  rw [hwords, List.flatten_cons, List.filter_eq_self.mpr h] at hflat
  have hword : word ≠ [] := ne_nil_of_mem_words (hwords ▸ List.mem_cons_self ..)
  obtain ⟨c, rest, rfl⟩ := List.exists_cons_of_ne_nil hword
  rw [← hflat]
  rfl

/-- All words but the first one begin with a capital. -/
theorem isUpper_head_of_mem_tail (h : ∀ c ∈ text, c.isAlphanum = true) :
    ∀ word ∈ (words text).tail, ∀ c ∈ word.head?, c.isUpper = true := by
  fun_induction words text with
  | case1 => simp
  | case2 c hc => simp
  | case3 c hc => simp
  | case4 c next rest hc ih => simp [h c (by simp)] at hc
  | case5 c next rest hc hjoin ih =>
    have ih := ih fun d hd => h d (List.mem_cons_of_mem _ hd)
    cases hwords : words (next :: rest) with
    | nil => simp [extend]
    | cons word others =>
      rw [hwords] at ih
      exact ih
  | case6 c next rest hc hcut ih =>
    have hrest : ∀ d ∈ next :: rest, d.isAlphanum = true :=
      fun d hd => h d (List.mem_cons_of_mem _ hd)
    intro word hword d hd
    rw [List.tail_cons] at hword
    cases hwords : words (next :: rest) with
    | nil => simp [hwords] at hword
    | cons first others =>
      rw [hwords] at hword ih
      rcases List.mem_cons.mp hword with rfl | hword
      · -- the first of these words begins where there is a cut
        rw [head?_of_words_cons hrest hwords] at hd
        cases hd
        simp only [hrest next (List.mem_cons_self ..), Bool.true_and, Bool.not_eq_true',
          Bool.not_eq_false, startsWord, Bool.and_eq_true] at hcut
        exact hcut.1
      · exact ih hrest word hword d hd

/-- Inside the words there are no capitals exactly when every capital starts one. -/
theorem capitalsStart_iff (h : ∀ c ∈ text, c.isAlphanum = true) :
    capitalsStart text = true ↔ ∀ word ∈ words text, ∀ c ∈ word.tail, c.isUpper = false := by
  fun_induction words text with
  | case1 => simp [capitalsStart]
  | case2 c hc => simp [capitalsStart]
  | case3 c hc => simp [capitalsStart]
  | case4 c next rest hc ih => simp [h c (by simp)] at hc
  | case5 c next rest hc hjoin ih =>
    have hrest : ∀ d ∈ next :: rest, d.isAlphanum = true :=
      fun d hd => h d (List.mem_cons_of_mem _ hd)
    simp only [hrest next (List.mem_cons_self ..), Bool.true_and, Bool.not_eq_true'] at hjoin
    rw [capitalsStart, hjoin, Bool.or_false, Bool.and_eq_true, ih hrest, Bool.not_eq_true']
    cases hwords : words (next :: rest) with
    | nil =>
      have hnone := words_eq_nil_iff.mp hwords next (List.mem_cons_self ..)
      rw [hrest next (List.mem_cons_self ..)] at hnone
      cases hnone
    | cons word others =>
      -- `next` is the head of this word, and inside the longer word it is not
      obtain ⟨tail, rfl⟩ : ∃ tail, word = next :: tail := by
        refine List.head?_eq_some_iff.mp ?_
        rw [head?_of_words_cons hrest hwords, List.head?_cons]
      simp [extend, and_assoc]
  | case6 c next rest hc hcut ih =>
    have hrest : ∀ d ∈ next :: rest, d.isAlphanum = true :=
      fun d hd => h d (List.mem_cons_of_mem _ hd)
    simp only [hrest next (List.mem_cons_self ..), Bool.true_and, Bool.not_eq_true',
      Bool.not_eq_false] at hcut
    rw [capitalsStart, hcut, Bool.or_true, Bool.true_and, ih hrest]
    simp

/-- The word with its first letter in upper case and the others in lower case. -/
def title (word : List Char) : List Char :=
  capitalize (word.map Char.toLower)

/-- An empty word has no capital. -/
@[simp] theorem title_nil : title [] = [] :=
  rfl

/-- A word in title case has its first letter as a capital and the others small. -/
@[simp] theorem title_cons (c : Char) (rest : List Char) :
    title (c :: rest) = c.toUpper :: rest.map Char.toLower := by
  rw [title, List.map_cons, capitalize, toUpper_toLower]

/-- A word begins with no small letter, and has no capital behind its first character. -/
structure Titled (word : List Char) : Prop where
  head : ∀ c ∈ word.head?, c.isLower = false
  tail : ∀ c ∈ word.tail, c.isUpper = false

/-- A word in title case is titled. -/
theorem titled_title (word : List Char) : Titled (title word) := by
  cases word with
  | nil => exact ⟨by simp, by simp⟩
  | cons first rest =>
    rw [title_cons]
    refine ⟨?_, ?_⟩
    · rintro _ ⟨⟩
      exact isLower_toUpper first
    · intro c hc
      obtain ⟨letter, -, rfl⟩ := List.mem_map.mp hc
      exact isUpper_toLower letter

/-- The words that stay as they are. -/
theorem title_eq_iff : title word = word ↔ Titled word := by
  constructor
  · intro h
    rw [← h]
    exact titled_title word
  · rintro ⟨hhead, htail⟩
    cases word with
    | nil => rfl
    | cons first rest =>
      have hrest : ∀ c ∈ rest, c.toLower = id c := fun c hc => toLower_eq_self (htail c hc)
      rw [title_cons, toUpper_eq_self (hhead first rfl), List.map_congr_left hrest, List.map_id]

/-- What is put together from such words begins with no small letter either. -/
theorem isLower_of_mem_head?_flatMap_title {parts : List (List Char)} :
    ∀ c ∈ (parts.flatMap title).head?, c.isLower = false := by
  induction parts with
  | nil => simp
  | cons part rest ih =>
    cases part with
    | nil => exact ih
    | cons first others =>
      rw [List.flatMap_cons, title_cons]
      rintro _ ⟨⟩
      exact isLower_toUpper first

/-- All words of a text of letters and digits stay as they are exactly when every capital starts
one, unless the text begins with a small letter. -/
theorem forall_title_eq_iff (h : ∀ c ∈ text, c.isAlphanum = true)
    (hhead : ∀ c ∈ text.head?, c.isLower = false) :
    (∀ word ∈ words text, title word = word) ↔
      capitalsStart text = true := by
  rw [capitalsStart_iff h]
  constructor
  · intro hsame word hword
    exact (title_eq_iff.mp (hsame word hword)).tail
  · intro htail word hword
    refine title_eq_iff.mpr ⟨?_, htail word hword⟩
    intro c hc
    cases hwords : words text with
    | nil => simp [hwords] at hword
    | cons first others =>
      rw [hwords] at hword
      rcases List.mem_cons.mp hword with rfl | hword
      · rw [head?_of_words_cons h hwords] at hc
        exact hhead c hc
      · have hupper := isUpper_head_of_mem_tail h word (by rwa [hwords]) c hc
        rw [isUpper_iff] at hupper
        rw [Bool.eq_false_iff, ne_eq, isLower_iff]
        omega

/-! ### Words that run into each other -/

/-- Is the word a single letter that runs into the next word? It does when that one begins with a
letter too, which no letter follows, or just a plural `s`. -/
def runsInto : List Char → List Char → Bool
  | [letter], first :: rest =>
    letter.isAlpha && first.isAlpha &&
      (!rest.head?.any Char.isAlpha || isPluralEnding (rest.map Char.toLower))
  | _, _ => false

/-- Behind the first character there may be no capital at all. -/
theorem capitalsStart_of_no_capital (h : ∀ d ∈ rest, d.isUpper = false) :
    capitalsStart (c :: rest) = true := by
  induction rest generalizing c with
  | nil => rfl
  | cons d rest ih =>
    obtain ⟨hd, hrest⟩ := List.forall_mem_cons.mp h
    rw [capitalsStart, hd, ih hrest]
    rfl

/-- Behind a word without capitals, only its last character counts. -/
theorem capitalsStart_append {next : Char} (hword : ∀ d ∈ word, d.isUpper = false) :
    capitalsStart (c :: word ++ next :: rest) =
      ((!next.isUpper || startsWord ((c :: word).getLast (by simp)) next rest) &&
        capitalsStart (next :: rest)) := by
  induction word generalizing c with
  | nil => rfl
  | cons d word ih =>
    obtain ⟨hd, hrest⟩ := List.forall_mem_cons.mp hword
    have ih := ih (c := d) hrest
    rw [List.cons_append] at ih
    rw [List.cons_append, List.cons_append, capitalsStart, ih, hd]
    simp

/-- The capital of a word starts a word again, unless the word in front runs into it. -/
theorem startsWord_capitalize {letter first : Char} {others rest : List Char}
    (h : ∀ c ∈ letter :: others, c.isAlphanum = true) :
    (!first.toUpper.isUpper ||
      startsWord ((letter.toUpper :: others.map Char.toLower).getLast (by simp)) first.toUpper
        (rest.map Char.toLower)) = !runsInto (letter :: others) (first :: rest) := by
  obtain ⟨hletter, hothers⟩ := List.forall_mem_cons.mp h
  cases others with
  | nil =>
    have hdigit : letter.isDigit = !letter.isAlpha := by
      rw [Char.isAlphanum, Bool.or_eq_true] at hletter
      rcases hletter with halpha | hdigit
      · rw [halpha, not_isDigit_of_isAlpha halpha, Bool.not_true]
      · cases halpha : letter.isAlpha with
        | false => exact hdigit
        | true => rw [not_isDigit_of_isAlpha halpha] at hdigit; cases hdigit
    have hsmall : ((rest.map Char.toLower).head?.any Char.isLower) =
        rest.head?.any Char.isAlpha := by
      cases rest with
      | nil => rfl
      | cons c rest => simp only [List.map_cons, List.head?_cons, Option.any_some, isLower_toLower]
    simp only [List.map_nil, List.getLast_singleton, startsWord, runsInto, isUpper_toUpper,
      isLower_toUpper, isDigit_toUpper, hdigit, hsmall]
    cases letter.isAlpha <;> cases first.isAlpha <;> simp
  | cons second others =>
    -- the last character of the word in front is a small letter or a digit
    have hlast : ∀ c ∈ (second :: others).map Char.toLower, (c.isLower || c.isDigit) = true := by
      intro c hc
      obtain ⟨d, hd, rfl⟩ := List.mem_map.mp hc
      rw [isLower_toLower, isDigit_toLower]
      exact hothers d hd
    rw [List.map_cons, List.getLast_cons_cons]
    rw [List.map_cons] at hlast
    have hlast := hlast _ (List.getLast_mem (List.cons_ne_nil _ _))
    simp [startsWord, hlast, runsInto]

/-- The capitals of such words start words exactly when no word runs into the next one. -/
theorem capitalsStart_flatMap_title {parts : List (List Char)}
    (h : ∀ part ∈ parts, part ≠ [] ∧ ∀ c ∈ part, c.isAlphanum = true) :
    capitalsStart (parts.flatMap title) = true ↔
      parts.IsChain fun word next => runsInto word next = false := by
  induction parts with
  | nil => simp [capitalsStart]
  | cons word parts ih =>
    obtain ⟨⟨hword, halphanum⟩, hrest⟩ := List.forall_mem_cons.mp h
    obtain ⟨letter, others, rfl⟩ := List.exists_cons_of_ne_nil hword
    -- inside a titled word there is no further capital
    have hsmall : ∀ c ∈ others.map Char.toLower, c.isUpper = false := by
      have htail := (titled_title (letter :: others)).tail
      rwa [title_cons] at htail
    have ih := ih hrest
    cases parts with
    | nil =>
      rw [List.flatMap_singleton, title_cons, capitalsStart_of_no_capital hsmall]
      simp
    | cons next parts =>
      obtain ⟨⟨hnext, -⟩, -⟩ := List.forall_mem_cons.mp hrest
      obtain ⟨first, rest, rfl⟩ := List.exists_cons_of_ne_nil hnext
      rw [List.flatMap_cons, title_cons, List.cons_append] at ih
      rw [List.flatMap_cons, List.flatMap_cons, title_cons, title_cons,
        List.cons_append (a := first.toUpper), capitalsStart_append hsmall,
        startsWord_append isLower_of_mem_head?_flatMap_title, startsWord_capitalize halphanum,
        Bool.and_eq_true, ih, List.isChain_cons_cons, Bool.not_eq_true']

end Identifier

/-! ### Names of names -/

namespace Acronyms

open Identifier

/-- Without abbreviations, a word of a message name is in lower case but for its first letter. -/
theorem wordInMessage_empty (word : List Char) :
    ({} : Acronyms).wordInMessage word = title word := by
  have hnone : ∀ lower, ({} : Acronyms).spelling? lower = none := by
    intro lower
    simp [spelling?]
  simp [wordInMessage, hnone, title]

/-- Without abbreviations, the name of a name is the same name exactly when no word of the text runs
into the next one. -/
theorem camel_camel_empty_iff (text : List Char) :
    ({} : Acronyms).camel (({} : Acronyms).camel text) = ({} : Acronyms).camel text ↔
      (words text).IsChain fun word next => runsInto word next = false := by
  have hspelled : ({} : Acronyms).wordInMessage = title := funext wordInMessage_empty
  have halphanum : ∀ c ∈ (words text).flatMap title, c.isAlphanum = true := by
    intro c hc
    rw [← hspelled] at hc
    exact isAlphanum_of_mem_spelled hc
  have hwords : ∀ word ∈ words text, word ≠ [] ∧ ∀ c ∈ word, c.isAlphanum = true :=
    fun word hword => ⟨ne_nil_of_mem_words hword, fun _ => isAlphanum_of_mem_words hword⟩
  have hname : ({} : Acronyms).camel text = guardDigit ((words text).flatMap title) := by
    rw [camel, hspelled]
  rw [hname, camel_guardDigit_eq_iff _ halphanum, hspelled,
    forall_title_eq_iff halphanum isLower_of_mem_head?_flatMap_title,
    capitalsStart_flatMap_title hwords]

/-- When the name of a name is the same name: with any abbreviations, when each word of the first
name is spelled as the second name spells it; without abbreviations, when no word of the text runs
into the next one. -/
theorem messageName_messageName_eq_iff (acronyms : Acronyms) (text : String) :
    (acronyms.messageName (acronyms.messageName text) = acronyms.messageName text ↔
      ∀ word ∈ words (acronyms.messageName text).toList, acronyms.wordInMessage word = word) ∧
    (({} : Acronyms).messageName (({} : Acronyms).messageName text) =
        ({} : Acronyms).messageName text ↔
      (words text.toList).IsChain fun word next => runsInto word next = false) := by
  have hsame : ∀ acronyms : Acronyms,
      acronyms.messageName (acronyms.messageName text) = acronyms.messageName text ↔
        acronyms.camel (acronyms.camel text.toList) = acronyms.camel text.toList := by
    intro acronyms
    rw [← String.toList_inj, messageName, messageName, String.toList_ofList, String.toList_ofList]
  constructor
  · rw [hsame, camel_camel_eq_iff, messageName, String.toList_ofList]
  · rw [hsame, camel_camel_empty_iff]

/-- Names of names may differ from them: without abbreviations two letters run into one word, and
two abbreviations that follow each other do. -/
theorem messageName_runs_together :
    ({} : Acronyms).messageName "a_b" = "AB" ∧ ({} : Acronyms).messageName "AB" = "Ab" ∧
      (⟨["NFT", "DID"]⟩ : Acronyms).messageName "nft_did" = "NFTDID" ∧
      (⟨["NFT", "DID"]⟩ : Acronyms).messageName "NFTDID" = "Nftdid" ∧
      ¬ ∀ (acronyms : Acronyms) (text : String),
        acronyms.messageName (acronyms.messageName text) = acronyms.messageName text := by
  have hname : ({} : Acronyms).messageName "a_b" = "AB" := by decide
  have hagain : ({} : Acronyms).messageName "AB" = "Ab" := by decide
  refine ⟨hname, hagain, by decide, by decide, ?_⟩
  intro hstable
  have hsame := hstable {} "a_b"
  rw [hname, hagain] at hsame
  exact absurd hsame (by decide)

end Acronyms

end Protoscribe
