import Mathlib.Data.List.Basic
import Mathlib.Data.List.Induction
import Protoscribe.Draft.Link
import Protoscribe.Proofs.Identifier

/-!
# `Protoscribe.Proofs.Link.Resolve`: looking a name up

Scopes are texts, and the scopes around one are found by cutting it at its dots. Where the names on
the way have no dots, this is the walk from a message outward through the messages around it:

* `resolve_qualify`: a name is looked up in the innermost scope, and then as if seen from the scope
  around it.
* `resolve_fullName`: seen from a message at a path, the innermost message that declares the name
  decides (`Nearest`), and otherwise the name is looked up from the root.
* `resolve_mem_or`: the result is a declared name, or the name with a dot in front.
* `resolve_eq_absolute_iff`: when the name counts as absolute.
* `fullName_injective`: full names tell paths of plain names apart.
-/

set_option autoImplicit false

namespace Protoscribe.Link

/-- The full name of the type at a path, where the path starts below the root. -/
def fullName (root : String) (path : List String) : String :=
  path.foldl qualify root

variable {known : List String} {root scope name target : String} {path : List String}

/-- A full name is qualified by that of the scope. -/
theorem fullName_append (root name : String) (path : List String) :
    fullName root (path ++ [name]) = qualify (fullName root path) name := by
  rw [fullName, List.foldl_append]
  rfl

/-- A qualified name is the scope, a dot and the name. -/
theorem toList_qualify (scope name : String) :
    (qualify scope name).toList = scope.toList ++ '.' :: name.toList := by
  simp [qualify]

/-- A qualified name is longer than its scope. -/
theorem length_qualify (scope name : String) :
    (qualify scope name).length = scope.length + 1 + name.length := by
  rw [← String.length_toList, toList_qualify, List.length_append, List.length_cons,
    String.length_toList, String.length_toList]
  omega

/-- A name without dots does not start with one. -/
theorem head?_ne_dot (h : '.' ∉ name.toList) : name.toList.head? ≠ some '.' :=
  fun hdot => h (List.mem_of_head? hdot)

/-! ### Full names -/

/-- A full name is at least as long as its path. -/
theorem length_le_fullName (root : String) (path : List String) :
    root.length + path.length ≤ (fullName root path).length := by
  induction path using List.reverseRecOn with
  | nil => exact Nat.le_refl _
  | append_singleton path name ih =>
    rw [fullName_append, length_qualify, List.length_append, List.length_singleton]
    omega

/-- A list is cut in one way at the first place of an item. -/
theorem append_cons_inj {α : Type} {a : α} {xs ys zs ws : List α} (hxs : a ∉ xs) (hys : a ∉ ys)
    (h : xs ++ a :: zs = ys ++ a :: ws) : xs = ys ∧ zs = ws := by
  induction xs generalizing ys with
  | nil =>
    cases ys with
    | nil => exact ⟨rfl, (List.cons.inj h).2⟩
    | cons y ys =>
      have hhead : a = y := (List.cons.inj h).1
      simp [hhead] at hys
  | cons x xs ih =>
    cases ys with
    | nil =>
      have hhead : x = a := (List.cons.inj h).1
      simp [hhead] at hxs
    | cons y ys =>
      obtain ⟨rfl, htail⟩ := List.cons.inj h
      obtain ⟨rfl, rfl⟩ := ih (fun hmem => hxs (List.mem_cons_of_mem _ hmem))
        (fun hmem => hys (List.mem_cons_of_mem _ hmem)) htail
      exact ⟨rfl, rfl⟩

/-- The last part of a qualified name begins behind the last dot. -/
theorem qualify_inj {other name' : String} (hname : '.' ∉ name.toList)
    (hname' : '.' ∉ name'.toList) (h : qualify scope name = qualify other name') :
    scope = other ∧ name = name' := by
  have hlists : scope.toList ++ '.' :: name.toList = other.toList ++ '.' :: name'.toList := by
    rw [← toList_qualify, ← toList_qualify, h]
  -- read from behind, the last part ends at the first dot
  have hreversed : name.toList.reverse ++ '.' :: scope.toList.reverse =
      name'.toList.reverse ++ '.' :: other.toList.reverse := by
    simpa using congrArg List.reverse hlists
  obtain ⟨hpart, hscope⟩ := append_cons_inj (by simpa using hname) (by simpa using hname') hreversed
  exact ⟨String.toList_inj.mp (List.reverse_inj.mp hscope),
    String.toList_inj.mp (List.reverse_inj.mp hpart)⟩

/-- Paths of names without dots have different full names. -/
theorem fullName_injective {path' : List String} (hpath : ∀ name ∈ path, '.' ∉ name.toList)
    (hpath' : ∀ name ∈ path', '.' ∉ name.toList) (h : fullName root path = fullName root path') :
    path = path' := by
  induction path using List.reverseRecOn generalizing path' with
  | nil =>
    have hlength := length_le_fullName root path'
    rw [← h, show fullName root [] = root from rfl] at hlength
    exact (List.eq_nil_of_length_eq_zero (by omega)).symm
  | append_singleton path name ih =>
    rcases List.eq_nil_or_concat path' with rfl | ⟨path', name', rfl⟩
    · have hlength := length_le_fullName root (path ++ [name])
      rw [h, show fullName root [] = root from rfl, List.length_append,
        List.length_singleton] at hlength
      omega
    · rw [List.concat_eq_append] at *
      rw [fullName_append, fullName_append] at h
      obtain ⟨hscope, rfl⟩ := qualify_inj (hpath name (by simp)) (hpath' name' (by simp)) h
      rw [ih (fun other hother => hpath other (by simp [hother]))
        (fun other hother => hpath' other (by simp [hother])) hscope]

/-! ### Scopes -/

/-- A text is cut at its first dot and then behind it. -/
theorem cuts_append {front rest : List Char} (hfront : '.' ∉ front) :
    cuts (front ++ '.' :: rest) = rest.reverse :: cuts rest := by
  induction front with
  | nil => rfl
  | cons c front ih =>
    have hc : c ≠ '.' := fun heq => hfront (by simp [heq])
    rw [List.cons_append, cuts, if_neg hc]
    exact ih fun hmem => hfront (List.mem_cons_of_mem _ hmem)

/-- Around a message is what is around its scope, and the scope itself. -/
theorem scopes_qualify (hname : '.' ∉ name.toList) :
    scopes (qualify scope name).toList = (qualify scope name).toList :: scopes scope.toList := by
  rw [scopes, toList_qualify, List.reverse_append, List.reverse_cons, List.append_assoc]
  rw [List.singleton_append, cuts_append (by simpa using hname), List.reverse_reverse]
  rfl

/-- The innermost scope comes first. -/
theorem scopes_eq_cons (scope : List Char) : scopes scope = scope :: cuts scope.reverse :=
  rfl

/-! ### Looking up -/

/-- A name that is declared in the scope itself is found there. -/
theorem resolve_of_mem (htarget : target.toList.head? ≠ some '.')
    (h : qualify scope target ∈ known) : resolve known scope target = qualify scope target := by
  rw [resolve, if_neg htarget, scopes_eq_cons, List.map_cons, String.ofList_toList,
    List.find?_cons_of_pos (by simpa using h)]
  rfl

/-- A name that is not declared in the scope of a message is looked up around it. -/
theorem resolve_qualify_of_not_mem (hname : '.' ∉ name.toList)
    (htarget : target.toList.head? ≠ some '.')
    (h : qualify (qualify scope name) target ∉ known) :
    resolve known (qualify scope name) target = resolve known scope target := by
  rw [resolve, resolve, if_neg htarget, if_neg htarget, scopes_qualify hname, List.map_cons,
    String.ofList_toList, List.find?_cons_of_neg (by simpa using h)]

/-- What is found is declared, or nothing is and the name counts as absolute. -/
theorem resolve_mem_or (known : List String) (scope : String)
    (htarget : target.toList.head? ≠ some '.') :
    resolve known scope target ∈ known ∨ resolve known scope target = "." ++ target := by
  rw [resolve, if_neg htarget]
  cases hfind : ((scopes scope.toList).map
      fun around => qualify (String.ofList around) target).find? known.contains with
  | some found => exact .inl (by simpa using List.find?_some hfind)
  | none => exact .inr rfl

/-! ### Seen from a message -/

/-- Seen from the message at `path`, the message at `around` is the innermost one that declares
`target`. -/
structure Nearest (known : List String) (root : String) (path around : List String)
    (target : String) : Prop where
  encloses : around <+: path
  ne_root : around ≠ []
  declares : qualify (fullName root around) target ∈ known
  innermost : ∀ inner, around <+: inner → inner <+: path → inner ≠ around →
    qualify (fullName root inner) target ∉ known

/-- Seen from a message, the innermost message that declares a name decides what it stands for. When
there is none, the name is looked up from the root. -/
theorem resolve_fullName (known : List String) (root : String)
    (hpath : ∀ name ∈ path, '.' ∉ name.toList) (htarget : target.toList.head? ≠ some '.') :
    (∃ around, Nearest known root path around target ∧
      resolve known (fullName root path) target = qualify (fullName root around) target) ∨
    (∀ around, around ≠ [] → around <+: path →
      qualify (fullName root around) target ∉ known) ∧
      resolve known (fullName root path) target = resolve known root target := by
  induction path using List.reverseRecOn with
  | nil =>
    refine .inr ⟨fun around hne hwithin => ?_, rfl⟩
    exact absurd (List.prefix_nil.mp hwithin) hne
  | append_singleton path name ih =>
    -- the message itself comes first, and then the messages around it
    by_cases hmem : qualify (fullName root (path ++ [name])) target ∈ known
    · refine .inl ⟨path ++ [name], ⟨List.prefix_rfl, by simp, hmem, ?_⟩,
        resolve_of_mem htarget hmem⟩
      intro inner hinner hwithin hne
      exact absurd (hwithin.eq_of_length_le hinner.length_le) hne
    · have hstep : resolve known (fullName root (path ++ [name])) target =
          resolve known (fullName root path) target := by
        rw [fullName_append] at hmem ⊢
        exact resolve_qualify_of_not_mem (hpath name (by simp)) htarget hmem
      rw [hstep]
      rcases ih fun other hother => hpath other (by simp [hother]) with
        ⟨around, haround, heq⟩ | ⟨hnone, heq⟩
      · refine .inl ⟨around,
          ⟨haround.encloses.trans (List.prefix_append _ _), haround.ne_root, haround.declares, ?_⟩,
          heq⟩
        intro inner hinner hwithin hne
        rcases List.prefix_concat_iff.mp hwithin with rfl | hwithin
        · exact hmem
        · exact haround.innermost inner hinner hwithin hne
      · refine .inr ⟨fun around hne hwithin => ?_, heq⟩
        rcases List.prefix_concat_iff.mp hwithin with rfl | hwithin
        · exact hmem
        · exact hnone around hne hwithin

/-- Seen from a message, a name of the root stands for the type there exactly when no message around
declares it. -/
theorem resolve_fullName_eq_iff (hpath : ∀ name ∈ path, '.' ∉ name.toList)
    (htarget : target.toList.head? ≠ some '.') (hroot : qualify root target ∈ known) :
    resolve known (fullName root path) target = qualify root target ↔
      ∀ around, around ≠ [] → around <+: path →
        qualify (fullName root around) target ∉ known := by
  rcases resolve_fullName known root hpath htarget with
    ⟨around, haround, heq⟩ | ⟨hnone, heq⟩
  · -- the full names of the two types do not have the same length
    have hne : qualify (fullName root around) target ≠ qualify root target := by
      intro hsame
      have hlength := congrArg String.length hsame
      have hlonger := length_le_fullName root around
      have hpositive : 0 < around.length := List.length_pos_iff.mpr haround.ne_root
      rw [length_qualify, length_qualify] at hlength
      omega
    rw [heq]
    exact ⟨fun hsame => absurd hsame hne,
      fun hfree => absurd haround.declares (hfree around haround.ne_root haround.encloses)⟩
  · rw [heq, resolve_of_mem htarget hroot]
    exact ⟨fun _ => hnone, fun _ => rfl⟩

/-- A name that some message around declares, or the root, is found. -/
theorem resolve_mem_of_encloses {around : List String} (hpath : ∀ name ∈ path, '.' ∉ name.toList)
    (htarget : target.toList.head? ≠ some '.') (haround : around <+: path)
    (h : qualify (fullName root around) target ∈ known) :
    resolve known (fullName root path) target ∈ known := by
  rcases resolve_fullName known root hpath htarget with ⟨nearest, hnearest, heq⟩ | ⟨hnone, heq⟩
  · rw [heq]
    exact hnearest.declares
  · -- no message declares the name, so it is the root that does
    have hroot : around = [] := by
      by_contra hne
      exact hnone around hne haround h
    subst hroot
    have hmem : qualify root target ∈ known := h
    rw [heq, resolve_of_mem htarget hmem]
    exact hmem

/-! ### Seen from the root -/

/-- What stands in front of a dot is shorter than the text. -/
theorem length_lt_of_mem_cuts {text around : List Char} (h : around ∈ cuts text) :
    around.length < text.length := by
  induction text with
  | nil => simp [cuts] at h
  | cons c rest ih =>
    rw [cuts] at h
    split at h
    · rcases List.mem_cons.mp h with rfl | h
      · simp
      · exact Nat.lt_succ_of_lt (ih h)
    · exact Nat.lt_succ_of_lt (ih h)

/-- Each scope is shorter than those inside it. -/
theorem pairwise_cuts (text : List Char) :
    (cuts text).Pairwise fun inner outer => outer.length < inner.length := by
  induction text with
  | nil => simp [cuts]
  | cons c rest ih =>
    rw [cuts]
    split
    · refine List.pairwise_cons.mpr ⟨fun outer houter => ?_, ih⟩
      rw [List.length_reverse]
      exact length_lt_of_mem_cuts houter
    · exact ih

/-- The scopes come from the inside to the outside. -/
theorem pairwise_scopes (scope : List Char) :
    (scopes scope).Pairwise fun inner outer => outer.length < inner.length := by
  refine List.pairwise_cons.mpr ⟨fun outer houter => ?_, pairwise_cuts _⟩
  rw [← @List.length_reverse _ scope]
  exact length_lt_of_mem_cuts houter

/-- A name is qualified by nothing exactly in the outermost scope. -/
theorem qualify_ofList_eq_iff {around : List Char} :
    qualify (String.ofList around) target = "." ++ target ↔ around = [] := by
  constructor
  · intro h
    have hlength := congrArg String.length h
    rw [length_qualify, String.length_ofList, String.length_append,
      show ".".length = 1 from rfl] at hlength
    exact List.eq_nil_of_length_eq_zero (by omega)
  · rintro rfl
    rfl

/-- A name stands for itself with a dot in front exactly when no scope with a name declares it. -/
theorem resolve_eq_absolute_iff (htarget : target.toList.head? ≠ some '.') :
    resolve known scope target = "." ++ target ↔
      ∀ around ∈ scopes scope.toList, around ≠ [] →
        qualify (String.ofList around) target ∉ known := by
  rw [resolve, if_neg htarget]
  have hshorter := pairwise_scopes scope.toList
  -- scope by scope, where one without a name is the last
  generalize scopes scope.toList = around at hshorter
  induction around with
  | nil => simp
  | cons inner outer ih =>
    obtain ⟨hinner, houter⟩ := List.pairwise_cons.mp hshorter
    by_cases hknown : qualify (String.ofList inner) target ∈ known
    · rw [List.map_cons, List.find?_cons_of_pos (by simpa using hknown), Option.getD_some,
        qualify_ofList_eq_iff]
      constructor
      · rintro rfl other hother hne
        rcases List.mem_cons.mp hother with rfl | hother
        · exact absurd rfl hne
        · simpa using hinner other hother
      · intro hnone
        by_contra hne
        exact hnone inner (List.mem_cons_self ..) hne hknown
    · rw [List.map_cons, List.find?_cons_of_neg (by simpa using hknown)]
      refine (ih houter).trans ?_
      simp [hknown]

/-- Where only full names of paths are declared, a name without dots that the root does not declare
stands for nothing that is declared. -/
theorem resolve_root_not_mem (htarget : '.' ∉ target.toList)
    (hknown : ∀ full ∈ known, ∃ path name, '.' ∉ name.toList ∧
      full = fullName root (path ++ [name]))
    (h : qualify root target ∉ known) : resolve known root target ∉ known := by
  -- a declared name that ends in `target` lies at or below the root
  have hbelow : ∀ around : String, qualify around target ∈ known →
      root.length < around.length := by
    intro around haround
    obtain ⟨path, name, hname, heq⟩ := hknown _ haround
    rw [fullName_append] at heq
    obtain ⟨rfl, rfl⟩ := qualify_inj htarget hname heq
    have hlength := length_le_fullName root path
    have hne : path.length ≠ 0 := by
      intro hzero
      rw [List.eq_nil_of_length_eq_zero hzero] at haround
      exact h haround
    omega
  intro hmem
  rw [resolve, if_neg (head?_ne_dot htarget)] at hmem
  cases hfind : ((scopes root.toList).map
      fun around => qualify (String.ofList around) target).find? known.contains with
  | some found =>
    rw [hfind, Option.getD_some] at hmem
    obtain ⟨around, haround, rfl⟩ := List.mem_map.mp (List.mem_of_find?_eq_some hfind)
    have hlength := hbelow _ hmem
    rw [String.length_ofList] at hlength
    rw [scopes_eq_cons] at haround
    rcases List.mem_cons.mp haround with rfl | haround
    · rw [String.length_toList] at hlength
      omega
    · have hshorter := length_lt_of_mem_cuts haround
      rw [List.length_reverse, String.length_toList] at hshorter
      omega
  | none =>
    rw [hfind, Option.getD_none] at hmem
    have hlength := hbelow "" (by simpa [qualify] using hmem)
    simp at hlength

end Protoscribe.Link
