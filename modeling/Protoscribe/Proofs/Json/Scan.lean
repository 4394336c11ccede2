import Mathlib.Data.List.TakeWhile
import Protoscribe.Json.Source

/-!
# `Protoscribe.Proofs.Json.Scan`: what a scanner takes does not depend on what follows

Each scanner takes some characters of a text and stops. What it takes it would take in front of any
other text too, as long as that text cannot be read as more of the same value (`EndsValue`): a
closing mark, a comma, white space or the end. Texts in quotation marks say themselves where they
end; for words and numbers the condition is needed.
-/

set_option autoImplicit false

namespace Protoscribe.Json

/-! ### White space -/

/-- Is there nothing but white space? -/
def Blank (text : List Char) : Prop :=
  ∀ c ∈ text, isSpace c = true

/-- White space in front of a text is skipped. -/
theorem Blank.skipSpace_append {blank : List Char} (h : Blank blank) (rest : List Char) :
    skipSpace (blank ++ rest) = skipSpace rest :=
  List.dropWhile_append_of_pos h

/-- Only a text of white space has nothing behind it. -/
theorem skipSpace_eq_nil_iff {text : List Char} : skipSpace text = [] ↔ Blank text :=
  List.dropWhile_eq_nil_iff

/-- A text is its leading white space and what is behind it. -/
theorem exists_blank_append (text : List Char) :
    ∃ blank, Blank blank ∧ text = blank ++ skipSpace text :=
  ⟨text.takeWhile isSpace, fun _ hc => List.mem_takeWhile_imp hc,
    (List.takeWhile_append_dropWhile).symm⟩

/-- What follows white space is none. -/
theorem isSpace_of_skipSpace_eq_cons {text rest : List Char} {c : Char}
    (h : skipSpace text = c :: rest) : isSpace c = false := by
  have hlength : 0 < (text.dropWhile isSpace).length := by
    rw [← skipSpace, h]
    exact Nat.succ_pos _
  have hhead := List.dropWhile_get_zero_not isSpace text hlength
  have hget : (text.dropWhile isSpace).get ⟨0, hlength⟩ = c := by
    simp only [← skipSpace.eq_def, h, List.get_eq_getElem, List.getElem_cons_zero]
  simpa only [hget, Bool.not_eq_true] using hhead

/-- A text that does not begin with white space has none to skip. -/
theorem skipSpace_cons {c : Char} (h : isSpace c = false) (rest : List Char) :
    skipSpace (c :: rest) = c :: rest :=
  List.dropWhile_cons_of_neg (by simp [h])

/-- All white space is skipped at once. -/
theorem skipSpace_skipSpace (text : List Char) : skipSpace (skipSpace text) = skipSpace text := by
  cases hskip : skipSpace text with
  | nil => rfl
  | cons c rest => exact skipSpace_cons (isSpace_of_skipSpace_eq_cons hskip) rest

/-! ### What ends a value -/

/-- May a number go on with the character? -/
def continuesNumber (c : Char) : Bool :=
  c.isDigit || c = '.' || c = 'e' || c = 'E'

/-- A value ends in front of the text. -/
def EndsValue (text : List Char) : Prop :=
  ∀ c ∈ text.head?, continuesNumber c = false

/-- White space may stand between a value and what ends it. -/
theorem Blank.endsValue_append {blank rest : List Char} (h : Blank blank) (hrest : EndsValue rest) :
    EndsValue (blank ++ rest) := by
  cases blank with
  | nil => exact hrest
  | cons c others =>
    intro d hd
    cases Option.some.inj hd
    have hc := h c List.mem_cons_self
    simp only [isSpace, Bool.or_eq_true, decide_eq_true_eq, or_assoc] at hc
    rcases hc with rfl | rfl | rfl | rfl <;> decide

/-- White space ends a value. -/
theorem Blank.endsValue {blank : List Char} (h : Blank blank) : EndsValue blank := by
  have hends : EndsValue (blank ++ []) := h.endsValue_append (by simp [EndsValue])
  rwa [List.append_nil] at hends

/-! ### Prefixes that are read -/

/-- A word is expected where the text begins with it. -/
theorem expect_eq_ok_iff {word text rest : List Char} :
    expect word text = .ok rest ↔ text = word ++ rest := by
  induction word generalizing text with
  | nil => simp [expect]
  | cons c word ih =>
    cases text with
    | nil => simp [expect]
    | cons d text =>
      by_cases h : c = d
      · simp [expect, h, ih]
      · simp [expect, h, Ne.symm h]

/-- A character that is neither a quotation mark nor a backslash belongs to the text, unless it is a
control character. -/
theorem scanText_plain {c : Char} (hquote : c ≠ '"') (hbackslash : c ≠ '\\') (content : Content)
    (rest : List Char) :
    scanText content (c :: rest) =
      if c.toNat < 32 then .error (content.broken .malformed)
      else scanText (content.push c) rest := by
  rw [scanText] <;> simp [hquote, hbackslash]

/-- A text in quotation marks ends at its closing one, whatever follows. -/
theorem scanText_prefix {content : Content} {text rest : List Char} {value : Option String}
    (h : scanText content text = .ok (value, rest)) :
    ∃ used, text = used ++ rest ∧ ∀ more, scanText content (used ++ more) = .ok (value, more) := by
  -- every character that is read is read again with more text behind
  fun_induction scanText content text with
  | case1 | case3 | case5 | case6 | case8 | case9 => cases h
  | case2 content text =>
    cases h
    exact ⟨['"'], rfl, fun more => by simp [scanText]⟩
  | case4 content a b c d text unit hunit ih =>
    obtain ⟨used, rfl, hused⟩ := ih h
    exact ⟨'\\' :: 'u' :: a :: b :: c :: d :: used, rfl, fun more => by
      simp [scanText, hunit, hused]⟩
  | case7 content letter text hshort hlong c hc ih =>
    obtain ⟨used, rfl, hused⟩ := ih h
    refine ⟨'\\' :: letter :: used, rfl, fun more => ?_⟩
    have hletter : letter ≠ 'u' := fun heq => by subst heq; simp [escaped?] at hc
    rw [List.cons_append, List.cons_append, scanText.eq_def]
    simp [hletter, hc, hused]
  | case10 content c text hquote hlast hunit hshort hletter hc ih =>
    obtain ⟨used, rfl, hused⟩ := ih h
    have hbackslash : c ≠ '\\' := by
      intro heq
      cases hrest : used ++ rest with
      | nil => exact hlast heq hrest
      | cons letter others => exact hletter letter others heq hrest
    refine ⟨c :: used, rfl, fun more => ?_⟩
    rw [List.cons_append, scanText_plain hquote hbackslash, if_neg hc, hused]

/-! ### Numbers -/

/-- A scanner reads some text to its end and stops there, in front of anything that ends a
value. -/
def Takes {α : Type} (scanner : List Char → Except Break (α × List Char)) (used : List Char)
    (value : α) : Prop :=
  ∀ more, EndsValue more → scanner (used ++ more) = .ok (value, more)

/-- No digit comes first. -/
def NoDigit (text : List Char) : Prop :=
  ∀ c ∈ text.head?, c.isDigit = false

/-- What ends a value is no digit. -/
theorem EndsValue.noDigit {more : List Char} (h : EndsValue more) : NoDigit more := by
  intro c hc
  have hends := h c hc
  simp only [continuesNumber, Bool.or_eq_false_iff] at hends
  exact hends.1.1.1

/-- No digit follows all the digits. -/
theorem noDigit_dropWhile (text : List Char) : NoDigit (text.dropWhile Char.isDigit) := by
  intro c hc
  obtain ⟨rest, hrest⟩ := List.head?_eq_some_iff.mp hc
  have hlength : 0 < (text.dropWhile Char.isDigit).length := by rw [hrest]; exact Nat.succ_pos _
  have hhead := List.dropWhile_get_zero_not Char.isDigit text hlength
  simpa only [hrest, List.get_eq_getElem, List.getElem_cons_zero, Bool.not_eq_true] using hhead

/-- What is taken of a text without a digit in front has none in front either. -/
theorem NoDigit.append {used rest more : List Char} (h : NoDigit (used ++ rest))
    (hmore : EndsValue more) : NoDigit (used ++ more) := by
  cases used with
  | nil => exact hmore.noDigit
  | cons c others => exact h

/-- Digits are taken up to a text without a digit in front. -/
theorem NoDigit.takeWhile_append {digits more : List Char} (h : NoDigit more)
    (hdigits : ∀ c ∈ digits, c.isDigit) :
    (digits ++ more).takeWhile Char.isDigit = digits ∧
      (digits ++ more).dropWhile Char.isDigit = more := by
  have hnone : more.takeWhile Char.isDigit = [] ∧ more.dropWhile Char.isDigit = more := by
    cases more with
    | nil => exact ⟨rfl, rfl⟩
    | cons c rest => simp [h c rfl]
  rw [List.takeWhile_append_of_pos hdigits, List.dropWhile_append_of_pos hdigits, hnone.1, hnone.2,
    List.append_nil]
  exact ⟨rfl, rfl⟩

/-- The digits at the beginning are digits. -/
theorem isDigit_of_mem_takeWhile {text : List Char} {c : Char}
    (h : c ∈ text.takeWhile Char.isDigit) : c.isDigit = true :=
  List.mem_takeWhile_imp h

/-- The sign of an exponent, in front of what follows it. -/
inductive Sign : List Char → List Char → Prop
  | minus (behind : List Char) : Sign ['-'] behind
  | plus (behind : List Char) : Sign ['+'] behind
  | none {behind : List Char} (hminus : behind.head? ≠ some '-') (hplus : behind.head? ≠ some '+') :
      Sign [] behind

/-- A number may begin with a sign. -/
theorem exists_sign (text : List Char) :
    ∃ sign behind, text = sign ++ behind ∧ Sign sign behind := by
  by_cases hminus : text.head? = some '-'
  · obtain ⟨behind, rfl⟩ := List.head?_eq_some_iff.mp hminus
    exact ⟨['-'], behind, rfl, .minus behind⟩
  · by_cases hplus : text.head? = some '+'
    · obtain ⟨behind, rfl⟩ := List.head?_eq_some_iff.mp hplus
      exact ⟨['+'], behind, rfl, .plus behind⟩
    · exact ⟨[], text, rfl, .none hminus hplus⟩

/-- An exponent takes its sign and the digits behind it. -/
theorem scanExponent_eq {numeral : Numeral} {mark : Char} {sign behind : List Char}
    (hmark : ¬ (mark ≠ 'e' && mark ≠ 'E') = true) (hsign : Sign sign behind) :
    scanExponent numeral (mark :: (sign ++ behind)) =
      match behind.takeWhile Char.isDigit with
      | [] => .error (if behind.isEmpty then .insideNumber else .malformed)
      | digits =>
        .ok ({ numeral with exponent := some (sign = ['-'], digits) },
          behind.dropWhile Char.isDigit) := by
  rw [scanExponent, if_neg hmark]
  cases hsign with
  | minus => rfl
  | plus => rfl
  | none hminus hplus =>
    simp only [List.nil_append, hminus, hplus]
    rfl

/-- Digits behind the sign do not change what the sign is. -/
theorem Sign.digits {sign behind digits : List Char} (h : Sign sign behind) (hnil : digits ≠ [])
    (hdigits : ∀ c ∈ digits, c.isDigit) (more : List Char) : Sign sign (digits ++ more) := by
  cases h with
  | minus => exact .minus _
  | plus => exact .plus _
  | none =>
    obtain ⟨c, others, rfl⟩ := List.exists_cons_of_ne_nil hnil
    have hc : c.isDigit = true := hdigits c List.mem_cons_self
    refine .none ?_ ?_ <;> (intro heq; cases heq; exact absurd hc (by decide))

/-- An exponent takes what it is written with, whatever comes behind it. -/
theorem scanExponent_takes {numeral value : Numeral} {text rest : List Char}
    (h : scanExponent numeral text = .ok (value, rest)) :
    ∃ used, text = used ++ rest ∧ Takes (scanExponent numeral) used value := by
  -- nothing is taken where no exponent stands
  have hnone (heq : value = numeral) : Takes (scanExponent numeral) [] value := by
    subst heq
    intro more hmore
    cases more with
    | nil => rfl
    | cons c others =>
      have hc := hmore c rfl
      simp only [continuesNumber, Bool.or_eq_false_iff, decide_eq_false_iff_not] at hc
      rw [List.nil_append, scanExponent, if_pos (by simp [hc.1.2, hc.2])]
  cases text with
  | nil =>
    cases h
    exact ⟨[], rfl, hnone rfl⟩
  | cons mark text =>
    by_cases hmark : (mark ≠ 'e' && mark ≠ 'E') = true
    · rw [scanExponent, if_pos hmark] at h
      cases h
      exact ⟨[], rfl, hnone rfl⟩
    · obtain ⟨sign, behind, rfl, hsign⟩ := exists_sign text
      rw [scanExponent_eq hmark hsign] at h
      split at h
      · cases h
      · next hnil =>
        cases h
        have hsplit := behind.takeWhile_append_dropWhile (p := Char.isDigit)
        have hdigits (c : Char) (hc : c ∈ behind.takeWhile Char.isDigit) :=
          isDigit_of_mem_takeWhile hc
        refine ⟨mark :: (sign ++ behind.takeWhile Char.isDigit), by simp [hsplit], ?_⟩
        intro more hmore
        obtain ⟨htake, hdrop⟩ := hmore.noDigit.takeWhile_append hdigits
        rw [List.cons_append, List.append_assoc,
          scanExponent_eq hmark (hsign.digits hnil hdigits more), htake, hdrop]
        split
        · contradiction
        · rfl

/-- Digits in front of what a scanner takes. -/
theorem Takes.digits {α : Type} {scanner : List Char → Except Break (α × List Char)}
    {text used rest : List Char} {value : α} (h : Takes scanner used value)
    (hused : text.dropWhile Char.isDigit = used ++ rest) {more : List Char}
    (hmore : EndsValue more) :
    (text.takeWhile Char.isDigit ++ (used ++ more)).takeWhile Char.isDigit =
        text.takeWhile Char.isDigit ∧
      scanner ((text.takeWhile Char.isDigit ++ (used ++ more)).dropWhile Char.isDigit) =
        .ok (value, more) := by
  have hnone : NoDigit (used ++ more) := (hused ▸ noDigit_dropWhile text).append hmore
  obtain ⟨htake, hdrop⟩ := hnone.takeWhile_append fun c hc => isDigit_of_mem_takeWhile hc
  rw [htake, hdrop]
  exact ⟨rfl, h more hmore⟩

/-- A fraction takes what it is written with, whatever comes behind it. -/
theorem scanFraction_takes {numeral value : Numeral} {text rest : List Char}
    (h : scanFraction numeral text = .ok (value, rest)) :
    ∃ used, text = used ++ rest ∧ Takes (scanFraction numeral) used value := by
  unfold scanFraction at h
  split at h
  · next text =>
    split at h
    · cases h
    · next digits hnil =>
      obtain ⟨used, hused, htakes⟩ := scanExponent_takes h
      have hsplit := text.takeWhile_append_dropWhile (p := Char.isDigit)
      refine ⟨'.' :: (text.takeWhile Char.isDigit ++ used), ?_, fun more hmore => ?_⟩
      · rw [List.cons_append, List.append_assoc, ← hused, hsplit]
      · obtain ⟨htake, htakes⟩ := htakes.digits hused hmore
        rw [List.cons_append, List.append_assoc, scanFraction, htake]
        split
        · contradiction
        · exact htakes
  · next hpoint =>
    obtain ⟨used, rfl, htakes⟩ := scanExponent_takes h
    refine ⟨used, rfl, fun more hmore => ?_⟩
    -- no point comes first, whatever follows
    have hnone (text : List Char) : used ++ more = '.' :: text → False := by
      cases used with
      | nil =>
        rintro rfl
        exact absurd (hmore '.' rfl) (by decide)
      | cons c others =>
        rintro heq
        cases heq
        exact hpoint _ rfl
    rw [scanFraction]
    · exact htakes more hmore
    · exact hnone

/-- A number takes what it is written with, whatever comes behind it. -/
theorem scanNumber_takes {negative : Bool} {value : Numeral} {text rest : List Char}
    (h : scanNumber negative text = .ok (value, rest)) :
    ∃ used, text = used ++ rest ∧ Takes (scanNumber negative) used value := by
  unfold scanNumber at h
  split at h
  · cases h
  · next text =>
    split at h
    · cases h
    · next hzero =>
      obtain ⟨used, rfl, htakes⟩ := scanFraction_takes h
      refine ⟨'0' :: used, rfl, fun more hmore => ?_⟩
      -- behind a zero in front there must be no digit, also with more text behind
      have hdigit : NoDigit (used ++ rest) := by
        intro c hc
        simpa [Option.mem_def.mp hc] using hzero
      have hnone : ¬ (used ++ more).head?.any Char.isDigit = true := by
        rw [Option.any_eq_true]
        rintro ⟨c, hc, hisDigit⟩
        exact absurd hisDigit (by simp [hdigit.append hmore c hc])
      rw [List.cons_append, scanNumber, if_neg hnone]
      exact htakes more hmore
  · next c text hzero =>
    split at h
    · next hc =>
      obtain ⟨used, hused, htakes⟩ := scanFraction_takes h
      have hsplit := text.takeWhile_append_dropWhile (p := Char.isDigit)
      refine ⟨c :: (text.takeWhile Char.isDigit ++ used), ?_, fun more hmore => ?_⟩
      · rw [List.cons_append, List.append_assoc, ← hused, hsplit]
      · obtain ⟨htake, htakes⟩ := htakes.digits hused hmore
        rw [List.cons_append, List.append_assoc, scanNumber, if_pos hc, htake]
        · exact htakes
        · exact hzero
    · cases h

/-! ### Leaves -/

/-- Is the tree that of a value without parts? -/
def Tree.isLeaf : Tree → Bool
  | .null | .bool _ | .number _ | .text _ | .list [] none | .object [] none => true
  | _ => false

/-- White space in front of a value does not matter. -/
theorem scan_eq_scan {fuel : Nat} {text other : List Char} (h : skipSpace text = skipSpace other) :
    scan fuel text = scan fuel other := by
  cases fuel with
  | zero => rfl
  | succ fuel => rw [scan, scan, h]

/-- A digit in front makes a number. -/
theorem scan_digit {fuel : Nat} {c : Char} (h : c.isDigit = true) (rest : List Char) :
    scan (fuel + 1) (c :: rest) = leaf .number (scanNumber false (c :: rest)) := by
  have hspace : isSpace c = false := by
    by_contra hne
    simp only [isSpace, Bool.not_eq_false, Bool.or_eq_true, decide_eq_true_eq, or_assoc] at hne
    rcases hne with rfl | rfl | rfl | rfl <;> exact absurd h (by decide)
  rw [scan, skipSpace_cons hspace]
  split <;> simp_all

/-- A value whose text begins with `c`, behind white space. -/
theorem exists_used {text taken rest : List Char} {c : Char} {tree : Tree}
    (hskip : skipSpace text = c :: (taken ++ rest))
    (hscan : ∀ fuel more, EndsValue more →
      scan (fuel + 1) (c :: (taken ++ more)) = (tree, .ok more)) :
    ∃ used, text = used ++ rest ∧
      ∀ fuel more, EndsValue more → scan (fuel + 1) (used ++ more) = (tree, .ok more) := by
  obtain ⟨blank, hblank, htext⟩ := exists_blank_append text
  refine ⟨blank ++ c :: taken, by rw [htext, hskip]; simp, fun fuel more hmore => ?_⟩
  rw [← hscan fuel more hmore, List.append_assoc, List.cons_append]
  exact scan_eq_scan (hblank.skipSpace_append _)

/-- A literal is there when its letters are. -/
theorem word_eq_ok {value tree : Tree} {remaining text rest : List Char}
    (h : word value remaining text = (tree, .ok rest)) :
    tree = value ∧ text = remaining ++ rest := by
  unfold word at h
  split at h
  · next hexpect =>
    cases h
    exact ⟨rfl, expect_eq_ok_iff.mp hexpect⟩
  · cases h

/-- A literal takes its letters and leaves the rest. -/
theorem word_append (value : Tree) (remaining more : List Char) :
    word value remaining (remaining ++ more) = (value, .ok more) := by
  rw [word, expect_eq_ok_iff.mpr rfl]

/-- A word behind its first letter is taken whatever follows it. -/
theorem exists_used_word {text behind remaining rest : List Char} {c : Char} {value tree : Tree}
    (hskip : skipSpace text = c :: behind)
    (hscan : ∀ fuel more, scan (fuel + 1) (c :: more) = word value remaining more)
    (h : word value remaining behind = (tree, .ok rest)) :
    ∃ used, text = used ++ rest ∧
      ∀ fuel more, EndsValue more → scan (fuel + 1) (used ++ more) = (tree, .ok more) := by
  obtain ⟨rfl, rfl⟩ := word_eq_ok h
  refine exists_used hskip fun fuel more _ => ?_
  rw [hscan, word_append]

/-- Two brackets with nothing but white space between them are taken whatever follows them. -/
theorem exists_used_brackets {text inside rest : List Char} {opening closing : Char} {tree : Tree}
    (hclosing : isSpace closing = false) (hskip : skipSpace text = opening :: inside)
    (hinside : skipSpace inside = closing :: rest)
    (hscan : ∀ fuel inner more, skipSpace inner = closing :: more →
      scan (fuel + 1) (opening :: inner) = (tree, .ok more)) :
    ∃ used, text = used ++ rest ∧
      ∀ fuel more, EndsValue more → scan (fuel + 1) (used ++ more) = (tree, .ok more) := by
  obtain ⟨blank, hblank, htext⟩ := exists_blank_append inside
  have hsplit : skipSpace text = opening :: ((blank ++ [closing]) ++ rest) := by
    rw [hskip, htext, hinside, List.append_assoc]
    rfl
  refine exists_used hsplit fun fuel more _ => hscan fuel _ more ?_
  rw [List.append_assoc, hblank.skipSpace_append]
  exact skipSpace_cons hclosing more

/-- A leaf is there when what it is made of is. -/
theorem leaf_eq_ok {α : Type} {make : α → Tree} {outcome : Except Break (α × List Char)}
    {tree : Tree} {rest : List Char} (h : leaf make outcome = (tree, .ok rest)) :
    ∃ value, outcome = .ok (value, rest) ∧ tree = make value := by
  unfold leaf at h
  split at h
  · cases h
    exact ⟨_, rfl, rfl⟩
  · cases h

/-- A list in which an element has to stand is not empty. -/
theorem scanElements_nil {fuel : Nat} {text rest : List Char} :
    scanElements fuel text ≠ ([], .ok rest) := by
  intro h
  cases fuel with
  | zero => cases h
  | succ fuel =>
    rw [scanElements] at h
    repeat' split at h
    all_goals cases h

/-- An object in which a member has to stand is not empty. -/
theorem scanMembers_nil {fuel : Nat} {text rest : List Char} :
    scanMembers fuel text ≠ ([], .ok rest) := by
  intro h
  cases fuel with
  | zero => cases h
  | succ fuel =>
    rw [scanMembers] at h
    repeat' split at h
    all_goals cases h

/-- A value without parts is taken whatever ends it. -/
theorem scan_leaf {fuel : Nat} {text rest : List Char} {tree : Tree}
    (h : scan (fuel + 1) text = (tree, .ok rest)) (hleaf : tree.isLeaf = true) :
    ∃ used, text = used ++ rest ∧
      ∀ fuel more, EndsValue more → scan (fuel + 1) (used ++ more) = (tree, .ok more) := by
  rw [scan] at h
  -- by the first character that is not blank
  split at h
  · cases h
  · next hskip => exact exists_used_word hskip (fun _ _ => rfl) h
  · next hskip => exact exists_used_word hskip (fun _ _ => rfl) h
  · next hskip => exact exists_used_word hskip (fun _ _ => rfl) h
  · next hskip =>
    obtain ⟨content, hcontent, rfl⟩ := leaf_eq_ok h
    obtain ⟨used, rfl, hused⟩ := scanText_prefix hcontent
    refine exists_used hskip fun fuel more _ => ?_
    show leaf .text (scanText {} (used ++ more)) = _
    rw [hused, leaf]
  · next hskip =>
    obtain ⟨numeral, hnumeral, rfl⟩ := leaf_eq_ok h
    obtain ⟨used, rfl, htakes⟩ := scanNumber_takes hnumeral
    refine exists_used hskip fun fuel more hmore => ?_
    show leaf .number (scanNumber true (used ++ more)) = _
    rw [htakes more hmore, leaf]
  · next inside hskip =>
    split at h
    · next behind hinside =>
      cases h
      refine exists_used_brackets (by decide) hskip hinside fun fuel inner more hinner => ?_
      rw [scan, skipSpace_cons (by decide)]
      simp only [hinner]
    -- brackets with something inside are no leaf
    · dsimp only at h
      cases hscan : scanElements fuel (skipSpace inside) with
      | mk elements after =>
        rw [hscan] at h
        cases h
        cases elements with
        | nil => exact absurd hscan scanElements_nil
        | cons => cases hleaf
  · next inside hskip =>
    split at h
    · next behind hinside =>
      cases h
      refine exists_used_brackets (by decide) hskip hinside fun fuel inner more hinner => ?_
      rw [scan, skipSpace_cons (by decide)]
      simp only [hinner]
    · dsimp only at h
      cases hscan : scanMembers fuel (skipSpace inside) with
      | mk members after =>
        rw [hscan] at h
        cases h
        cases members with
        | nil => exact absurd hscan scanMembers_nil
        | cons => cases hleaf
  · next c behind _ _ _ _ _ _ _ hskip =>
    split at h
    · next hdigit =>
      obtain ⟨numeral, hnumeral, rfl⟩ := leaf_eq_ok h
      obtain ⟨used, hused, htakes⟩ := scanNumber_takes hnumeral
      cases used with
      | nil => cases htakes [] (by simp [EndsValue])
      | cons d taken =>
        obtain ⟨rfl, rfl⟩ := List.cons.inj hused
        refine exists_used hskip fun fuel more hmore => ?_
        rw [scan_digit hdigit, ← List.cons_append, htakes more hmore, leaf]
    · cases h

/-- Does the tree break off? -/
def Tree.breaksOff : Tree → Bool
  | .broken _ | .list _ (some _) | .object _ (some _) => true
  | _ => false

/-- A leaf does not break off. -/
theorem Tree.breaksOff_of_isLeaf {tree : Tree} (h : tree.isLeaf = true) :
    tree.breaksOff = false := by
  unfold isLeaf at h
  split at h <;> first | rfl | cases h

/-- A literal that is not complete breaks off. -/
theorem word_eq_error {value tree : Tree} {remaining text : List Char} {place : Break}
    (h : word value remaining text = (tree, .error place)) : tree.breaksOff = true := by
  unfold word at h
  split at h <;> cases h
  rfl

/-- A leaf that cannot be made breaks off. -/
theorem leaf_eq_error {α : Type} {make : α → Tree} {outcome : Except Break (α × List Char)}
    {tree : Tree} {place : Break} (h : leaf make outcome = (tree, .error place)) :
    tree.breaksOff = true := by
  unfold leaf at h
  split at h <;> cases h
  rfl

/-- A text that stops being JSON has a tree that breaks off. -/
theorem scan_error {fuel : Nat} {text : List Char} {tree : Tree} {place : Break}
    (h : scan fuel text = (tree, .error place)) : tree.breaksOff = true := by
  cases fuel with
  | zero =>
    cases h
    rfl
  | succ fuel =>
    rw [scan] at h
    split at h
    · cases h
      rfl
    · exact word_eq_error h
    · exact word_eq_error h
    · exact word_eq_error h
    · exact leaf_eq_error h
    · exact leaf_eq_error h
    · split at h
      · cases h
      · obtain ⟨rfl, hafter⟩ := Prod.mk.inj h
        rw [hafter]
        rfl
    · split at h
      · cases h
      · obtain ⟨rfl, hafter⟩ := Prod.mk.inj h
        rw [hafter]
        rfl
    · split at h
      · exact leaf_eq_error h
      · cases h
        rfl

end Protoscribe.Json
