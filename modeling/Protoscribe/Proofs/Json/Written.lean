import Protoscribe.Proofs.Json.Scan

/-!
# `Protoscribe.Proofs.Json.Written`: JSON texts by their parts

A `Written` is a JSON text in parts: the elements of its lists and the members of its objects, each
with the white space around it, down to values without parts. So the members of an object can be
told apart in the text itself, and moved.

The text of parts is read to the tree of these parts (`WellFormed.ofText_text`), and every text that
is read to its end is the text of some parts (`exists_wellFormed`).
-/

set_option autoImplicit false

namespace Protoscribe.Json

/-! ### Texts by their parts -/

/-- A JSON text by its parts. White space around a value belongs to the text of the value, and that
around the name of a member to the name. A value without parts is a leaf. -/
inductive Written where
  | leaf (text : List Char)
  | list (before : List Char) (elements : List Written) (behind : List Char)
  | object (before : List Char) (members : List (List Char × Written)) (behind : List Char)
  deriving Inhabited

/-- The name that is written in a text. -/
def writtenName (text : List Char) : Option String :=
  match (ofText (String.ofList text)).1 with
  | .text content => content
  | _ => none

namespace Written

mutual

/-- The text that is put together from its parts. -/
def characters : Written → List Char
  | .leaf text => text
  | .list before elements behind => before ++ '[' :: (elementCharacters elements ++ ']' :: behind)
  | .object before members behind =>
    before ++ '\x7b' :: (memberCharacters members ++ '\x7d' :: behind)

/-- The elements of a list, with commas between them. -/
def elementCharacters : List Written → List Char
  | [] => []
  | element :: rest =>
    characters element ++ if rest.isEmpty then [] else ',' :: elementCharacters rest

/-- The members of an object, with commas between them. -/
def memberCharacters : List (List Char × Written) → List Char
  | [] => []
  | (name, value) :: rest =>
    name ++ ':' :: (characters value ++ if rest.isEmpty then [] else ',' :: memberCharacters rest)

end

/-- The text as a string. -/
def text (written : Written) : String :=
  String.ofList written.characters

mutual

/-- The tree of the text. -/
def tree : Written → Tree
  | .leaf text => (ofText (String.ofList text)).1
  | .list _ elements _ => .list (trees elements) none
  | .object _ members _ => .object (memberTrees members) none

/-- The trees of the elements of a list. -/
def trees : List Written → List Tree
  | [] => []
  | element :: rest => tree element :: trees rest

/-- The names and the trees of the members of an object. -/
def memberTrees : List (List Char × Written) → List (Option String × Tree)
  | [] => []
  | (name, value) :: rest => (writtenName name, tree value) :: memberTrees rest

end

/-- Is a text a value without parts, and nothing behind it? -/
def IsLeaf (text : List Char) : Prop :=
  (ofText (String.ofList text)).2 = true ∧ (ofText (String.ofList text)).1.isLeaf = true

/-- Is a text one in quotation marks? -/
def IsName (text : List Char) : Prop :=
  (ofText (String.ofList text)).2 = true ∧
    (ofText (String.ofList text)).1 = .text (writtenName text)

/-- The parts are what they are meant to be, so the text put together from them is JSON. -/
inductive WellFormed : Written → Prop
  | leaf {text : List Char} (htext : IsLeaf text) : WellFormed (.leaf text)
  | list {before behind : List Char} {elements : List Written} (hbefore : Blank before)
      (hbehind : Blank behind) (hnil : elements ≠ [])
      (helements : ∀ element ∈ elements, WellFormed element) :
      WellFormed (.list before elements behind)
  | object {before behind : List Char} {members : List (List Char × Written)}
      (hbefore : Blank before) (hbehind : Blank behind) (hnil : members ≠ [])
      (hnames : ∀ member ∈ members, IsName member.1)
      (hmembers : ∀ member ∈ members, WellFormed member.2) :
      WellFormed (.object before members behind)

/-! ### The text of parts is scanned to their tree -/

/-- A leaf is scanned, whatever follows, up to the white space behind it. -/
theorem scan_isLeaf {text : List Char} (h : IsLeaf text) (fuel : Nat) {more : List Char}
    (hmore : EndsValue more) :
    ∃ blank, Blank blank ∧
      scan (fuel + 1) (text ++ more) = ((ofText (String.ofList text)).1, .ok (blank ++ more)) := by
  obtain ⟨hcomplete, hleaf⟩ := h
  unfold ofText at hcomplete hleaf ⊢
  rw [String.toList_ofList] at hcomplete hleaf ⊢
  dsimp only at hcomplete hleaf ⊢
  -- the text is complete in itself, so behind the value there are blanks only
  cases hscan : scan (2 * text.length + 2) text with
  | mk tree after =>
    rw [hscan] at hcomplete hleaf
    cases after with
    | error place =>
      have hbroken := scan_error hscan
      rw [Tree.breaksOff_of_isLeaf hleaf] at hbroken
      cases hbroken
    | ok rest =>
      obtain ⟨used, hused, htakes⟩ := scan_leaf hscan hleaf
      have hblank : Blank rest := skipSpace_eq_nil_iff.mp (by simpa using hcomplete)
      refine ⟨rest, hblank, ?_⟩
      rw [hused, List.append_assoc]
      exact htakes fuel _ (hblank.endsValue_append hmore)

/-- A text that is scanned begins with a quotation mark. -/
theorem scan_eq_text {fuel : Nat} {text rest : List Char} {content : Option String}
    (h : scan (fuel + 1) text = (.text content, .ok rest)) :
    ∃ inside, skipSpace text = '"' :: inside ∧ scanText {} inside = .ok (content, rest) := by
  rw [scan] at h
  split at h
  · cases h
  · exact absurd (word_eq_ok h).1 (by simp)
  · exact absurd (word_eq_ok h).1 (by simp)
  · exact absurd (word_eq_ok h).1 (by simp)
  · next inside hskip =>
    obtain ⟨value, hvalue, heq⟩ := leaf_eq_ok h
    cases heq
    exact ⟨inside, hskip, hvalue⟩
  · obtain ⟨value, hvalue, heq⟩ := leaf_eq_ok h
    cases heq
  · split at h <;> cases h
  · split at h <;> cases h
  · split at h
    · obtain ⟨value, hvalue, heq⟩ := leaf_eq_ok h
      cases heq
    · cases h

/-- Elements have their trees one by one. -/
theorem trees_eq (elements : List Written) : trees elements = elements.map tree := by
  induction elements with
  | nil => rfl
  | cons element rest ih => rw [trees, ih, List.map_cons]

/-- Members have their names and trees one by one. -/
theorem memberTrees_eq (members : List (List Char × Written)) :
    memberTrees members = members.map fun member => (writtenName member.1, tree member.2) := by
  induction members with
  | nil => rfl
  | cons member rest ih => rw [memberTrees, ih, List.map_cons]

/-- A list is scanned from its first element on. -/
theorem scan_list {fuel : Nat} {text inside rest : List Char} {elements : List Tree}
    (hskip : skipSpace text = '[' :: inside)
    (hscan : scanElements fuel inside = (elements, .ok rest)) :
    scan (fuel + 1) text = (.list elements none, .ok rest) := by
  cases fuel with
  | zero => cases hscan
  | succ fuel =>
    have hsame : scanElements (fuel + 1) (skipSpace inside) = scanElements (fuel + 1) inside := by
      rw [scanElements, scanElements, scan_eq_scan (skipSpace_skipSpace inside)]
    rw [scan]
    simp only [hskip]
    split
    · -- no element begins with a bracket that closes the list
      next hclosed =>
      rw [scanElements] at hscan
      cases fuel with
      | zero => cases hscan
      | succ fuel =>
        rw [scan] at hscan
        simp [hclosed] at hscan
    · rw [hsame, hscan]
      rfl

/-- An object is scanned behind its brace, member by member. -/
theorem scan_object {fuel : Nat} {text inside rest : List Char}
    {members : List (Option String × Tree)} (hskip : skipSpace text = '\x7b' :: inside)
    (hscan : scanMembers fuel inside = (members, .ok rest)) :
    scan (fuel + 1) text = (.object members none, .ok rest) := by
  cases fuel with
  | zero => cases hscan
  | succ fuel =>
    have hsame : scanMembers (fuel + 1) (skipSpace inside) = scanMembers (fuel + 1) inside := by
      rw [scanMembers, scanMembers, skipSpace_skipSpace]
    rw [scan]
    simp only [hskip]
    split
    · next hclosed =>
      rw [scanMembers] at hscan
      simp [hclosed] at hscan
    · rw [hsame, hscan]
      rfl

/-- A text is scanned to its tree, whatever follows, up to the white space behind it. -/
def Scans (written : Written) : Prop :=
  ∀ fuel more, 2 * written.characters.length ≤ fuel → EndsValue more →
    ∃ blank, Blank blank ∧
      scan fuel (written.characters ++ more) = (written.tree, .ok (blank ++ more))

/-- The name of a member is written like a value. -/
theorem IsName.isLeaf {text : List Char} (h : IsName text) : IsLeaf text :=
  ⟨h.1, by rw [h.2]; rfl⟩

/-- Behind its quotation mark a name is scanned up to the white space behind it. -/
theorem scanText_isName {text : List Char} (h : IsName text) (more : List Char) :
    ∃ inside blank, Blank blank ∧ skipSpace (text ++ ':' :: more) = '"' :: inside ∧
      scanText {} inside = .ok (writtenName text, blank ++ ':' :: more) := by
  have hends : EndsValue (':' :: more) := by simp [EndsValue, continuesNumber]
  obtain ⟨blank, hblank, hscan⟩ := scan_isLeaf h.isLeaf 0 hends
  rw [h.2] at hscan
  obtain ⟨inside, hskip, hscan⟩ := scan_eq_text hscan
  exact ⟨inside, blank, hblank, hskip, hscan⟩

section

variable {element value : Written} {name more rest : List Char} {fuel : Nat}

/-- The last element of a list. -/
theorem Scans.lastElement (h : element.Scans) (hfuel : 2 * element.characters.length ≤ fuel) :
    scanElements (fuel + 1) (element.characters ++ ']' :: more) = ([element.tree], .ok more) := by
  obtain ⟨blank, hblank, hscan⟩ :=
    h fuel (']' :: more) hfuel (by simp [EndsValue, continuesNumber])
  have hclosed : skipSpace (blank ++ ']' :: more) = ']' :: more := hblank.skipSpace_append _
  simp only [scanElements, hscan, hclosed]

/-- An element of a list with others behind it. -/
theorem Scans.nextElement (h : element.Scans) (hfuel : 2 * element.characters.length ≤ fuel)
    {others : List Tree} (hothers : scanElements fuel rest = (others, .ok more)) :
    scanElements (fuel + 1) (element.characters ++ ',' :: rest) =
      (element.tree :: others, .ok more) := by
  obtain ⟨blank, hblank, hscan⟩ := h fuel (',' :: rest) hfuel (by simp [EndsValue, continuesNumber])
  have hcomma : skipSpace (blank ++ ',' :: rest) = ',' :: rest := hblank.skipSpace_append _
  simp only [scanElements, hscan, hcomma, hothers]

/-- The last member of an object. -/
theorem Scans.lastMember (hname : IsName name) (h : value.Scans)
    (hfuel : 2 * value.characters.length ≤ fuel) :
    scanMembers (fuel + 1) (name ++ ':' :: (value.characters ++ '\x7d' :: more)) =
      ([(writtenName name, value.tree)], .ok more) := by
  obtain ⟨gap, hgap, hscan⟩ :=
    h fuel ('\x7d' :: more) hfuel (by simp [EndsValue, continuesNumber])
  obtain ⟨inside, blank, hblank, hquote, htext⟩ :=
    scanText_isName hname (value.characters ++ '\x7d' :: more)
  have hcolon : skipSpace (blank ++ ':' :: (value.characters ++ '\x7d' :: more)) =
      ':' :: (value.characters ++ '\x7d' :: more) := hblank.skipSpace_append _
  have hclosed : skipSpace (gap ++ '\x7d' :: more) = '\x7d' :: more := hgap.skipSpace_append _
  simp only [scanMembers, hquote, htext, hcolon, hscan, hclosed]

/-- A member of an object with others behind it. -/
theorem Scans.nextMember (hname : IsName name) (h : value.Scans)
    (hfuel : 2 * value.characters.length ≤ fuel) {others : List (Option String × Tree)}
    (hothers : scanMembers fuel rest = (others, .ok more)) :
    scanMembers (fuel + 1) (name ++ ':' :: (value.characters ++ ',' :: rest)) =
      ((writtenName name, value.tree) :: others, .ok more) := by
  obtain ⟨gap, hgap, hscan⟩ := h fuel (',' :: rest) hfuel (by simp [EndsValue, continuesNumber])
  obtain ⟨inside, blank, hblank, hquote, htext⟩ :=
    scanText_isName hname (value.characters ++ ',' :: rest)
  have hcolon : skipSpace (blank ++ ':' :: (value.characters ++ ',' :: rest)) =
      ':' :: (value.characters ++ ',' :: rest) := hblank.skipSpace_append _
  have hcomma : skipSpace (gap ++ ',' :: rest) = ',' :: rest := hgap.skipSpace_append _
  simp only [scanMembers, hquote, htext, hcolon, hscan, hcomma, hothers]

end

/-- The elements of a list are scanned where their characters stand. -/
theorem scanElements_elementCharacters {elements : List Written} (hnil : elements ≠ [])
    (h : ∀ element ∈ elements, element.Scans) {fuel : Nat}
    (hfuel : 2 * (elementCharacters elements).length < fuel) (more : List Char) :
    scanElements fuel (elementCharacters elements ++ ']' :: more) =
      (trees elements, .ok more) := by
  induction elements generalizing fuel with
  | nil => contradiction
  | cons element rest ih =>
    obtain ⟨helement, hrest⟩ := List.forall_mem_cons.mp h
    obtain ⟨fuel, rfl⟩ := Nat.exists_eq_succ_of_ne_zero (Nat.ne_zero_of_lt hfuel)
    cases rest with
    | nil =>
      simp only [elementCharacters, List.isEmpty_nil, if_true, List.append_nil] at hfuel ⊢
      exact helement.lastElement (by omega)
    | cons next others =>
      simp only [elementCharacters.eq_2 element, List.isEmpty_cons, Bool.false_eq_true, if_false,
        List.length_append, List.length_cons, List.append_assoc, List.cons_append] at hfuel ⊢
      exact helement.nextElement (by omega) (ih (by simp) hrest (by omega))

/-- The members of an object are scanned where their characters stand. -/
theorem scanMembers_memberCharacters {members : List (List Char × Written)} (hnil : members ≠ [])
    (hnames : ∀ member ∈ members, IsName member.1) (h : ∀ member ∈ members, member.2.Scans)
    {fuel : Nat} (hfuel : 2 * (memberCharacters members).length < fuel) (more : List Char) :
    scanMembers fuel (memberCharacters members ++ '\x7d' :: more) =
      (memberTrees members, .ok more) := by
  induction members generalizing fuel with
  | nil => contradiction
  | cons member rest ih =>
    obtain ⟨name, value⟩ := member
    obtain ⟨hname, hnames⟩ := List.forall_mem_cons.mp hnames
    obtain ⟨hvalue, hrest⟩ := List.forall_mem_cons.mp h
    obtain ⟨fuel, rfl⟩ := Nat.exists_eq_succ_of_ne_zero (Nat.ne_zero_of_lt hfuel)
    -- the last member ends at the bracket, any other one at a comma
    cases rest with
    | nil =>
      simp only [memberCharacters, List.isEmpty_nil, if_true, List.append_nil, List.length_append,
        List.length_cons, List.append_assoc, List.cons_append] at hfuel ⊢
      exact hvalue.lastMember hname (by omega)
    | cons next others =>
      simp only [memberCharacters.eq_2 name, List.isEmpty_cons, Bool.false_eq_true, if_false,
        List.length_append, List.length_cons, List.append_assoc, List.cons_append] at hfuel ⊢
      have hlength : 2 * value.characters.length ≤ fuel := by omega
      exact hvalue.nextMember hname hlength (ih (by simp) hnames hrest (by omega))

/-- The text of parts is scanned to their tree. -/
theorem WellFormed.scans {written : Written} (h : WellFormed written) : written.Scans := by
  induction h with
  | @leaf text htext =>
    intro fuel more hfuel hmore
    cases fuel with
    | zero =>
      -- no value has an empty text
      simp only [characters] at hfuel
      have hempty : text = [] := List.length_eq_zero_iff.mp (by omega)
      subst hempty
      exact absurd htext.2 (by decide)
    | succ fuel => exact scan_isLeaf htext fuel hmore
  | @list before behind elements hbefore hbehind hnil helements ih =>
    intro fuel more hfuel hmore
    simp only [characters, List.length_append, List.length_cons] at hfuel
    obtain ⟨fuel, rfl⟩ := Nat.exists_eq_succ_of_ne_zero (n := fuel) (by omega)
    have hskip : skipSpace ((Written.list before elements behind).characters ++ more) =
        '[' :: (elementCharacters elements ++ ']' :: (behind ++ more)) := by
      simp only [characters, List.append_assoc, List.cons_append, hbefore.skipSpace_append]
      rfl
    exact ⟨behind, hbehind, scan_list hskip
      (scanElements_elementCharacters hnil ih (by omega) (behind ++ more))⟩
  | @object before behind members hbefore hbehind hnil hnames hmembers ih =>
    intro fuel more hfuel hmore
    simp only [characters, List.length_append, List.length_cons] at hfuel
    obtain ⟨fuel, rfl⟩ := Nat.exists_eq_succ_of_ne_zero (n := fuel) (by omega)
    have hskip : skipSpace ((Written.object before members behind).characters ++ more) =
        '\x7b' :: (memberCharacters members ++ '\x7d' :: (behind ++ more)) := by
      simp only [characters, List.append_assoc, List.cons_append, hbefore.skipSpace_append]
      rfl
    exact ⟨behind, hbehind, scan_object hskip
      (scanMembers_memberCharacters hnil hnames ih (by omega) (behind ++ more))⟩

/-- The text of parts is read to their tree, and nothing follows. -/
theorem WellFormed.ofText_text {written : Written} (h : WellFormed written) :
    ofText written.text = (written.tree, true) := by
  obtain ⟨blank, hblank, hscan⟩ := h.scans (2 * written.characters.length + 2) [] (by omega)
    (by simp [EndsValue])
  rw [List.append_nil, List.append_nil] at hscan
  rw [text, ofText, String.toList_ofList]
  simp only [hscan, skipSpace_eq_nil_iff.mpr hblank, List.isEmpty_nil]

/-! ### What is scanned is the text of parts -/

/-- The text of a leaf, with the white space behind it. -/
theorem exists_isLeaf {fuel : Nat} {text blank rest : List Char} {tree : Tree}
    (h : scan (fuel + 1) text = (tree, .ok (blank ++ rest))) (hleaf : tree.isLeaf = true)
    (hblank : Blank blank) :
    ∃ own, text = own ++ rest ∧ IsLeaf own ∧ (ofText (String.ofList own)).1 = tree := by
  obtain ⟨used, rfl, hused⟩ := scan_leaf h hleaf
  have hown : ofText (String.ofList (used ++ blank)) = (tree, true) := by
    rw [ofText, String.toList_ofList]
    simp only [hused _ blank hblank.endsValue, skipSpace_eq_nil_iff.mpr hblank, List.isEmpty_nil]
  exact ⟨used ++ blank, (List.append_assoc ..).symm, ⟨by rw [hown], by rw [hown]; exact hleaf⟩,
    by rw [hown]⟩

/-- The text of a name, with the white space around it. -/
theorem exists_isName {text inside rest : List Char} {content : Option String}
    (hquote : skipSpace text = '"' :: inside) {behind : List Char}
    (h : scanText {} inside = .ok (content, behind)) (hcolon : skipSpace behind = ':' :: rest) :
    ∃ own, text = own ++ ':' :: rest ∧ IsName own ∧ writtenName own = content := by
  obtain ⟨blank, hblank, hbehind⟩ := exists_blank_append behind
  have hscan : scan 1 text = (.text content, .ok (blank ++ ':' :: rest)) := by
    rw [scan]
    simp only [hquote, h, Json.leaf, ← hcolon, ← hbehind]
  obtain ⟨own, hown, hleaf, htree⟩ := exists_isLeaf hscan rfl hblank
  have hname : writtenName own = content := by rw [writtenName, htree]
  exact ⟨own, hown, ⟨hleaf.1, by rw [htree, hname]⟩, hname⟩

/-- What is scanned with some fuel is the text of parts. -/
def ScansWritten (fuel : Nat) : Prop :=
  ∀ text tree blank rest, Blank blank → scan fuel text = (tree, .ok (blank ++ rest)) →
    ∃ written : Written, text = written.characters ++ rest ∧ WellFormed written ∧
      written.tree = tree

/-- Elements that are scanned with some fuel are the text of parts. -/
def ScansElements (fuel : Nat) : Prop :=
  ∀ text elements rest, scanElements fuel text = (elements, .ok rest) →
    ∃ parts : List Written, text = elementCharacters parts ++ ']' :: rest ∧ parts ≠ [] ∧
      (∀ part ∈ parts, WellFormed part) ∧ trees parts = elements

/-- Members that are scanned with some fuel are the text of parts. -/
def ScansMembers (fuel : Nat) : Prop :=
  ∀ text members rest, scanMembers fuel text = (members, .ok rest) →
    ∃ parts : List (List Char × Written), text = memberCharacters parts ++ '\x7d' :: rest ∧
      parts ≠ [] ∧ (∀ part ∈ parts, IsName part.1) ∧ (∀ part ∈ parts, WellFormed part.2) ∧
      memberTrees parts = members

/-- If values come from parts, so do the elements of a list that is one level longer. -/
theorem ScansElements.succ {fuel : Nat} (h : ScansWritten fuel) (helements : ScansElements fuel) :
    ScansElements (fuel + 1) := by
  intro text elements rest hscan
  rw [scanElements] at hscan
  cases helement : scan fuel text with
  | mk element after =>
    simp only [helement] at hscan
    split at hscan
    · cases hscan
    · next behind =>
      -- White space in front of the mark behind an element belongs to the element.
      obtain ⟨blank, hblank, hbehind⟩ := exists_blank_append behind
      rw [hbehind] at helement
      obtain ⟨part, rfl, hpart, rfl⟩ := h _ _ _ _ hblank helement
      split at hscan
      · next hclosed =>
        cases hscan
        exact ⟨[part], by simp [elementCharacters, hclosed], by simp, by simpa using hpart, rfl⟩
      · next others hcomma =>
        cases hothers : scanElements fuel others with
        | mk trees' after =>
          rw [hothers] at hscan
          cases hscan
          obtain ⟨parts, rfl, hnil, hparts, rfl⟩ := helements _ _ _ hothers
          refine ⟨part :: parts, ?_, by simp, List.forall_mem_cons.mpr ⟨hpart, hparts⟩, rfl⟩
          rw [elementCharacters, if_neg (by simpa using hnil), hcomma]
          simp
      · cases hscan
      · cases hscan

/-- If values come from parts, so do the members of an object that is one level longer. -/
theorem ScansMembers.succ {fuel : Nat} (h : ScansWritten fuel) (hmembers : ScansMembers fuel) :
    ScansMembers (fuel + 1) := by
  intro text members rest hscan
  rw [scanMembers] at hscan
  split at hscan
  · cases hscan
  · next inside hquote =>
    split at hscan
    · cases hscan
    · next content behind hcontent =>
      split at hscan
      · next valueText hcolon =>
        obtain ⟨name, rfl, hname, rfl⟩ := exists_isName hquote hcontent hcolon
        cases hvalue : scan fuel valueText with
        | mk value after =>
          simp only [hvalue] at hscan
          split at hscan
          · cases hscan
          · next behind =>
            -- blanks behind a value go with the value
            obtain ⟨blank, hblank, hbehind⟩ := exists_blank_append behind
            rw [hbehind] at hvalue
            obtain ⟨part, rfl, hpart, rfl⟩ := h _ _ _ _ hblank hvalue
            split at hscan
            · next hclosed =>
              cases hscan
              exact ⟨[(name, part)], by simp [memberCharacters, hclosed], by simp,
                by simpa using hname, by simpa using hpart, rfl⟩
            · next others hcomma =>
              cases hothers : scanMembers fuel others with
              | mk trees' after =>
                rw [hothers] at hscan
                cases hscan
                obtain ⟨parts, rfl, hnil, hnames, hparts, rfl⟩ := hmembers _ _ _ hothers
                refine ⟨(name, part) :: parts, ?_, by simp,
                  List.forall_mem_cons.mpr ⟨hname, hnames⟩,
                  List.forall_mem_cons.mpr ⟨hpart, hparts⟩, rfl⟩
                rw [memberCharacters, if_neg (by simpa using hnil), hcomma]
                simp
            · cases hscan
            · cases hscan
      · cases hscan
      · cases hscan
  · cases hscan

/-- White space in front of an element does not matter. -/
theorem scanElements_skipSpace (fuel : Nat) (text : List Char) :
    scanElements fuel (skipSpace text) = scanElements fuel text := by
  cases fuel with
  | zero => rfl
  | succ fuel => rw [scanElements, scanElements, scan_eq_scan (skipSpace_skipSpace text)]

/-- White space in front of a member does not matter. -/
theorem scanMembers_skipSpace (fuel : Nat) (text : List Char) :
    scanMembers fuel (skipSpace text) = scanMembers fuel text := by
  cases fuel with
  | zero => rfl
  | succ fuel => rw [scanMembers, scanMembers, skipSpace_skipSpace]

/-- If elements and members come from parts, so do values one level up. -/
theorem ScansWritten.succ {fuel : Nat} (helements : ScansElements fuel)
    (hmembers : ScansMembers fuel) : ScansWritten (fuel + 1) := by
  intro text tree blank rest hblank hscan
  -- A value without parts is a leaf, whatever kind of value it is.
  by_cases hleaf : tree.isLeaf = true
  · obtain ⟨own, hown, hisLeaf, htree⟩ := exists_isLeaf hscan hleaf hblank
    exact ⟨.leaf own, hown, .leaf hisLeaf, htree⟩
  · obtain ⟨before, hbefore, htext⟩ := exists_blank_append text
    rw [scan] at hscan
    split at hscan
    · cases hscan
    · exact absurd ((word_eq_ok hscan).1 ▸ rfl) hleaf
    · exact absurd ((word_eq_ok hscan).1 ▸ rfl) hleaf
    · exact absurd ((word_eq_ok hscan).1 ▸ rfl) hleaf
    · obtain ⟨_, _, rfl⟩ := leaf_eq_ok hscan
      exact absurd rfl hleaf
    · obtain ⟨_, _, rfl⟩ := leaf_eq_ok hscan
      exact absurd rfl hleaf
    · next inside hskip =>
      split at hscan
      · cases hscan
        exact absurd rfl hleaf
      · rw [scanElements_skipSpace] at hscan
        cases helement : scanElements fuel inside with
        | mk elements after =>
          rw [helement] at hscan
          cases hscan
          obtain ⟨parts, rfl, hnil, hparts, rfl⟩ := helements _ _ _ helement
          refine ⟨.list before parts blank, ?_, .list hbefore hblank hnil hparts, rfl⟩
          rw [htext, hskip, characters]
          simp
    · next inside hskip =>
      split at hscan
      · cases hscan
        exact absurd rfl hleaf
      · rw [scanMembers_skipSpace] at hscan
        cases hmember : scanMembers fuel inside with
        | mk members after =>
          rw [hmember] at hscan
          cases hscan
          obtain ⟨parts, rfl, hnil, hnames, hparts, rfl⟩ := hmembers _ _ _ hmember
          refine ⟨.object before parts blank, ?_, .object hbefore hblank hnil hnames hparts, rfl⟩
          rw [htext, hskip, characters]
          simp
    · split at hscan
      · obtain ⟨_, _, rfl⟩ := leaf_eq_ok hscan
        exact absurd rfl hleaf
      · cases hscan

/-- Whatever is scanned to its end comes from parts, by induction on the levels. -/
theorem scansWritten (fuel : Nat) :
    ScansWritten fuel ∧ ScansElements fuel ∧ ScansMembers fuel := by
  induction fuel with
  | zero =>
    refine ⟨?_, ?_, ?_⟩
    · intro text tree blank rest hblank hscan
      cases hscan
    · intro text elements rest hscan
      cases hscan
    · intro text members rest hscan
      cases hscan
  | succ fuel ih =>
    obtain ⟨h, helements, hmembers⟩ := ih
    exact ⟨.succ helements hmembers, .succ h helements, .succ h hmembers⟩

/-- A text whose tree does not break off, and that ends with it, is the text of parts. -/
theorem exists_wellFormed {text : String} {tree : Tree} (h : ofText text = (tree, true))
    (hwhole : tree.breaksOff = false) :
    ∃ written : Written, written.text = text ∧ WellFormed written ∧ written.tree = tree := by
  unfold ofText at h
  cases hscan : scan (2 * text.toList.length + 2) text.toList with
  | mk scanned after =>
    simp only [hscan] at h
    cases after with
    | error place =>
      cases h
      rw [scan_error hscan] at hwhole
      cases hwhole
    | ok rest =>
      obtain ⟨rfl, hrest⟩ := Prod.mk.inj h
      have hblank : Blank rest := skipSpace_eq_nil_iff.mp (by simpa using hrest)
      obtain ⟨written, hwritten, hwellFormed, htree⟩ :=
        (scansWritten _).1 _ _ rest [] hblank (by rw [hscan, List.append_nil])
      refine ⟨written, ?_, hwellFormed, htree⟩
      rw [Written.text, ← List.append_nil written.characters, ← hwritten, String.ofList_toList]

end Written

end Protoscribe.Json
