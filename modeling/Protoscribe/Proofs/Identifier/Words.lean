import Protoscribe.Proofs.Lettered

/-!
# `Protoscribe.Proofs.Identifier.Words`: where a text is cut into words

The words of a text are its letters and digits, cut into pieces (`flatten_words`). A character that
is neither always cuts, and then the words on both sides have nothing to do with each other
(`words_append_cons`). Between letters and digits a cut depends on what stands around it, but not on
what follows a character that is no small letter (`startsWord_append`). Where there are no capitals
there are no such cuts (`words_of_no_capital`).
-/

set_option autoImplicit false

namespace Protoscribe.Identifier

variable {c previous current : Char} {text after behind : List Char}

/-! ### Pieces -/

/-- A character that is added to words comes in front of all of them. -/
theorem flatten_extend (c : Char) (rest : List (List Char)) :
    (extend c rest).flatten = c :: rest.flatten := by
  cases rest <;> simp [extend]

/-- Put together again, the words are what the text has of letters and digits. -/
theorem flatten_words (text : List Char) :
    (words text).flatten = text.filter Char.isAlphanum := by
  fun_induction words text with
  | case1 => rfl
  | case2 c hc => simp [hc]
  | case3 c hc => simp [hc]
  | case4 c next rest hc ih =>
    have hc : c.isAlphanum = false := by simpa using hc
    rw [ih, List.filter_cons_of_neg (a := c) (by simp [hc])]
  | case5 c next rest hc hjoin ih =>
    have hc : c.isAlphanum = true := by simpa using hc
    rw [flatten_extend, ih, List.filter_cons_of_pos (a := c) hc]
  | case6 c next rest hc hcut ih =>
    have hc : c.isAlphanum = true := by simpa using hc
    rw [List.flatten_cons, ih, List.filter_cons_of_pos (a := c) hc, List.singleton_append]

/-! ### Cuts -/

/-- Inside letters and digits, only a capital starts a word. -/
theorem startsWord_of_not_isUpper (h : current.isUpper = false) :
    startsWord previous current after = false := by
  simp [startsWord, h]

/-- Only small letters right behind a capital count. -/
theorem startsWord_append (h : ∀ c ∈ behind.head?, c.isLower = false) :
    startsWord previous current (after ++ behind) = startsWord previous current after := by
  have hsmall : ∀ c rest, behind = c :: rest → c.isLower = false := by
    intro c rest hbehind
    exact h c (by rw [hbehind]; rfl)
  match after with
  | [] =>
    cases behind with
    | nil => rfl
    | cons c rest => simp [startsWord, hsmall c rest rfl]
  | [c] =>
    cases behind with
    | nil => rfl
    | cons d rest =>
      by_cases hc : c = 's'
      · simp [startsWord, isPluralEnding, hc, hsmall d rest rfl]
      · simp [startsWord, isPluralEnding, hc]
  | c :: d :: rest =>
    by_cases hc : c = 's'
    · simp [startsWord, isPluralEnding, hc]
    · simp [startsWord, isPluralEnding, hc]

/-- What is no letter or digit belongs to no word. -/
theorem words_cons_of_not_isAlphanum (hc : c.isAlphanum = false) (text : List Char) :
    words (c :: text) = words text := by
  cases text <;> simp [words, hc]

/-- A separator keeps the words in front of it and behind it apart. -/
theorem words_append_cons (hc : c.isAlphanum = false) (text behind : List Char) :
    words (text ++ c :: behind) = words text ++ words behind := by
  have hsmall : ∀ d ∈ (c :: behind).head?, d.isLower = false := by
    intro d hd
    cases hd
    simp only [Char.isAlphanum, isAlpha_eq, Bool.or_eq_false_iff] at hc
    exact hc.1.2
  fun_induction words text with
  | case1 => exact words_cons_of_not_isAlphanum hc behind
  | case2 d hd =>
    simp [words, hd, hc, words_cons_of_not_isAlphanum hc behind]
  | case3 d hd =>
    simp [words, hd, words_cons_of_not_isAlphanum hc behind]
  | case4 d next rest hd ih =>
    rw [List.cons_append, words_cons_of_not_isAlphanum (by simpa using hd)]
    exact ih
  | case5 d next rest hd hjoin ih =>
    -- the separator does not change whether there is a cut in front of `next`
    rw [← startsWord_append hsmall] at hjoin
    rw [List.cons_append, List.cons_append, words, if_neg hd, if_pos hjoin]
    rw [List.cons_append] at ih
    rw [ih]
    have hnext : next.isAlphanum = true := (Bool.and_eq_true_iff.mp hjoin).1
    have hsome : words (next :: rest) ≠ [] := by
      rw [ne_eq, words_eq_nil_iff]
      intro hnone
      exact absurd hnext (by simp [hnone])
    obtain ⟨word, others, hwords⟩ := List.exists_cons_of_ne_nil hsome
    rw [hwords]
    rfl
  | case6 d next rest hd hcut ih =>
    rw [← startsWord_append hsmall] at hcut
    rw [List.cons_append, List.cons_append, words, if_neg hd, if_neg hcut]
    rw [List.cons_append] at ih
    rw [ih]
    rfl

/-- The underscore in front of a digit is in no word. -/
theorem words_guardDigit (text : List Char) : words (guardDigit text) = words text := by
  cases text with
  | nil => rfl
  | cons c rest =>
    rw [guardDigit]
    split
    · exact words_cons_of_not_isAlphanum (by decide) _
    · rfl

/-- Small letters and digits make up one word. -/
theorem words_of_no_capital (hne : text ≠ [])
    (h : ∀ c ∈ text, c.isAlphanum = true ∧ c.isUpper = false) : words text = [text] := by
  fun_induction words text with
  | case1 => exact absurd rfl hne
  | case2 c hc => rfl
  | case3 c hc => exact absurd (h c (by simp)).1 hc
  | case4 c next rest hc ih =>
    have hletter := (h c (by simp)).1
    simp [hletter] at hc
  | case5 c next rest hc hjoin ih =>
    rw [ih (by simp) fun d hd => h d (List.mem_cons_of_mem _ hd)]
    rfl
  | case6 c next rest hc hcut ih =>
    obtain ⟨hletter, hsmall⟩ := h next (by simp)
    exact absurd (by simp [hletter, startsWord_of_not_isUpper hsmall]) hcut

end Protoscribe.Identifier
