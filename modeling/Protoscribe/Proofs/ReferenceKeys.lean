import Protoscribe.Proofs.Compile.Needs

/-!
# `Protoscribe.Proofs.ReferenceKeys`: every key has a reference

A reference writes a key as one segment behind the pointer of a section, with `~0` for a tilde and
`~1` for a slash (`escape`). It is read in two passes over the segment, first for `~1` and then for
`~0`. The second pass sees what the first one wrote, and still the two come to the same as one pass
from left to right (`unescape_eq_decode`): the first pass puts down slashes only, so behind a tilde
it leaves no zero that was not there before.

One pass undoes the escapes of a key (`decode_escape`). A segment of a key is not empty and has no
slash, so a reference can be written for every key but the empty one, and it leads to that key.
`references_reach_keys` states this, with the references that name a key at all.
-/

set_option autoImplicit false

namespace Protoscribe

namespace OpenApi.Reference

/-! ### Escapes -/

/-- A character of a key as a reference writes it. -/
def escapeChar (c : Char) : List Char :=
  if c = '~' then ['~', '0'] else if c = '/' then ['~', '1'] else [c]

/-- The segment that stands for a key. -/
def escape (key : List Char) : List Char :=
  key.flatMap escapeChar

/-- The key of a segment in one pass. A tilde that begins no escape stands for itself. -/
def decode : List Char → List Char
  | '~' :: '1' :: rest => '/' :: decode rest
  | '~' :: '0' :: rest => '~' :: decode rest
  | c :: rest => c :: decode rest
  | [] => []

section

variable {digit replacement c : Char} {rest : List Char}

/-- An escape is replaced by what it stands for. -/
theorem replaceEscape_escape (digit replacement : Char) (rest : List Char) :
    replaceEscape digit replacement ('~' :: digit :: rest) =
      replacement :: replaceEscape digit replacement rest := by
  simp [replaceEscape]

/-- A character that begins no escape stays. -/
theorem replaceEscape_cons (h : c = '~' → rest.head? ≠ some digit) :
    replaceEscape digit replacement (c :: rest) = c :: replaceEscape digit replacement rest := by
  cases rest with
  | nil => rfl
  | cons next rest =>
    rw [replaceEscape, if_neg]
    simpa using h

/-- A pass begins with what was there, or with what it puts down. -/
theorem head?_replaceEscape (digit replacement : Char) (text : List Char) :
    (replaceEscape digit replacement text).head? = text.head? ∨
      (replaceEscape digit replacement text).head? = some replacement := by
  cases text with
  | nil => exact .inl rfl
  | cons c rest =>
    by_cases h : c = '~' → rest.head? ≠ some digit
    · rw [replaceEscape_cons h]
      exact .inl rfl
    · obtain ⟨rfl, hnext⟩ := Classical.not_imp.mp h
      obtain ⟨others, rfl⟩ := List.head?_eq_some_iff.mp (not_not.mp hnext)
      rw [replaceEscape_escape]
      exact .inr rfl

/-- A character that begins no escape stays as it is. -/
theorem decode_cons (hslash : c = '~' → rest.head? ≠ some '1')
    (htilde : c = '~' → rest.head? ≠ some '0') : decode (c :: rest) = c :: decode rest := by
  rw [decode]
  · rintro others rfl rfl
    exact hslash rfl rfl
  · rintro others rfl rfl
    exact htilde rfl rfl

end

/-- The two passes come to one. -/
theorem unescape_eq_decode (segment : List Char) : unescape segment = decode segment := by
  unfold unescape
  induction segment using decode.induct with
  | case1 rest ih =>
    rw [replaceEscape_escape, replaceEscape_cons (absurd · (by decide)), ih, decode]
  | case2 rest ih =>
    have hfirst : replaceEscape '1' '/' ('~' :: '0' :: rest) =
        '~' :: '0' :: replaceEscape '1' '/' rest := by
      rw [replaceEscape_cons (by simp), replaceEscape_cons (absurd · (by decide))]
    rw [hfirst, replaceEscape_escape, ih, decode]
  | case3 c rest hslash htilde ih =>
    have hone : c = '~' → rest.head? ≠ some '1' := by
      rintro rfl hhead
      obtain ⟨others, rfl⟩ := List.head?_eq_some_iff.mp hhead
      exact hslash others rfl rfl
    have hzero : c = '~' → rest.head? ≠ some '0' := by
      rintro rfl hhead
      obtain ⟨others, rfl⟩ := List.head?_eq_some_iff.mp hhead
      exact htilde others rfl rfl
    -- the first pass leaves no zero behind the character
    have hstill : c = '~' → (replaceEscape '1' '/' rest).head? ≠ some '0' := by
      intro hc
      rcases head?_replaceEscape '1' '/' rest with hsame | hwritten
      · rw [hsame]
        exact hzero hc
      · rw [hwritten]
        decide
    rw [replaceEscape_cons hone, replaceEscape_cons hstill, ih, decode_cons hone hzero]
  | case4 => rfl

/-- Decoding undoes escaping. -/
theorem decode_escape (key : List Char) : decode (escape key) = key := by
  induction key with
  | nil => rfl
  | cons c rest ih =>
    rw [escape, List.flatMap_cons, ← escape]
    by_cases htilde : c = '~'
    · subst htilde
      show '~' :: decode (escape rest) = '~' :: rest
      rw [ih]
    · by_cases hslash : c = '/'
      · subst hslash
        show '/' :: decode (escape rest) = '/' :: rest
        rw [ih]
      · have hsame : escapeChar c = [c] := by rw [escapeChar, if_neg htilde, if_neg hslash]
        rw [hsame, List.singleton_append, decode_cons (absurd · htilde) (absurd · htilde), ih]

/-- An escaped key has no slash in it. -/
theorem slash_not_mem_escape (key : List Char) : '/' ∉ escape key := by
  intro hmem
  obtain ⟨c, -, hc⟩ := List.mem_flatMap.mp hmem
  unfold escapeChar at hc
  split at hc
  · revert hc
    decide
  · split at hc
    · revert hc
      decide
    · next hslash => exact hslash (List.mem_singleton.mp hc).symm

/-- A key that is not empty stays so when it is escaped. -/
theorem escape_ne_nil {key : List Char} (h : key ≠ []) : escape key ≠ [] := by
  intro hnil
  rw [← decode_escape key, hnil] at h
  exact h rfl

/-! ### Segments -/

/-- A reference has one segment behind the pointer, and it is not empty. -/
theorem segment?_eq_some_iff {pointer reference segment : List Char} :
    segment? pointer reference = some segment ↔
      reference = pointer ++ segment ∧ segment ≠ [] ∧ '/' ∉ segment := by
  unfold segment?
  cases hpointer : List.isPrefixOf? pointer reference with
  | none =>
    refine iff_of_false (by simp) ?_
    rintro ⟨rfl, -⟩
    rw [List.isPrefixOf?_eq_some_iff_append_eq.mpr rfl] at hpointer
    cases hpointer
  | some rest =>
    cases List.isPrefixOf?_eq_some_iff_append_eq.mp hpointer
    simp only [Option.ite_none_left_eq_some, Option.some.injEq, List.append_cancel_left_eq,
      Bool.or_eq_true, List.isEmpty_iff, List.contains_iff_mem, not_or]
    constructor
    · rintro ⟨hsegment, rfl⟩
      exact ⟨rfl, hsegment⟩
    · rintro ⟨rfl, hsegment⟩
      exact ⟨hsegment, rfl⟩

/-- The reference that is written for a key. -/
def forKey (pointer key : String) : String :=
  pointer ++ String.ofList (escape key.toList)

/-- The reference for a key leads to the key. -/
theorem key?_forKey (pointer : String) {key : String} (h : key ≠ "") :
    key? pointer (forKey pointer key) = some key := by
  have hkey : key.toList ≠ [] := by simpa using h
  have hsegment : segment? pointer.toList (forKey pointer key).toList =
      some (escape key.toList) := by
    refine segment?_eq_some_iff.mpr ⟨?_, escape_ne_nil hkey, slash_not_mem_escape _⟩
    rw [forKey, String.toList_append, String.toList_ofList]
  rw [key?, hsegment, Option.map_some, unescape_eq_decode, decode_escape, String.ofList_toList]

/-- A reference gives a key exactly when one segment follows the pointer. -/
theorem exists_key?_iff {pointer reference : String} :
    (∃ key, key? pointer reference = some key) ↔
      ∃ segment : String, reference = pointer ++ segment ∧ segment ≠ "" ∧ '/' ∉ segment.toList := by
  constructor
  · rintro ⟨key, hkey⟩
    obtain ⟨segment, hsegment, -⟩ := Option.map_eq_some_iff.mp hkey
    obtain ⟨hreference, hne, hslash⟩ := segment?_eq_some_iff.mp hsegment
    refine ⟨String.ofList segment, ?_, by simpa using hne, by rwa [String.toList_ofList]⟩
    rw [← String.toList_inj, String.toList_append, String.toList_ofList, hreference]
  · rintro ⟨segment, rfl, hne, hslash⟩
    have hsegment : segment? pointer.toList (pointer ++ segment).toList = some segment.toList :=
      segment?_eq_some_iff.mpr ⟨String.toList_append, by simpa using hne, hslash⟩
    exact ⟨_, by rw [key?, hsegment, Option.map_some]⟩

end OpenApi.Reference

namespace Compile

open OpenApi (Referable Section SchemaNode)
open OpenApi.Reference (forKey)

/-! ### Lookups -/

/-- A component is found by the reference for its key. -/
theorem findSchema_forKey {job : Job} {key : String} {node : SchemaNode} (hkey : key ≠ "")
    (hnode : job.document.components.schemas.find? key = some node) (s : State) :
    findSchema job (forKey Section.schemas.pointer key) s = .ok (key, node) s := by
  have hname : Section.schemas.key? (forKey Section.schemas.pointer key) = some key :=
    OpenApi.Reference.key?_forKey _ hkey
  simp only [findSchema, hname, hnode]
  rfl

/-- A definition is found by the reference for its key. -/
theorem follow_forKey {α : Type} {part : Section} {table : Table (Referable α)} {key : String}
    {item : α} (hkey : key ≠ "") (hitem : table.find? key = some (.inline item)) (s : State) :
    follow part table (.ref (forKey part.pointer key)) s = .ok item s := by
  have hname : part.key? (forKey part.pointer key) = some key :=
    OpenApi.Reference.key?_forKey _ hkey
  simp only [follow, followFrom, hname, hitem]
  cases table.size <;> rfl

/-- What a reference leads to is the entry of the key that it names. -/
theorem find?_of_findSchema {job : Job} {reference key : String} {node : SchemaNode} {s t : State}
    (h : findSchema job reference s = .ok (key, node) t) :
    job.document.components.schemas.find? key = some node ∧
      ∃ segment : String, reference = Section.schemas.pointer ++ segment ∧ segment ≠ "" ∧
        '/' ∉ segment.toList := by
  obtain ⟨hkey, hnode, -⟩ := findSchema_eq_ok h
  exact ⟨hnode, OpenApi.Reference.exists_key?_iff.mp ⟨key, hkey⟩⟩

/-- A reference that names a key of one section names none of another one. -/
theorem key?_eq_none_of_ne {part other : Section} {reference key : String}
    (h : part.key? reference = some key) (hother : other ≠ part) : other.key? reference = none := by
  refine Option.eq_none_iff_forall_ne_some.mpr fun name hname => hother ?_
  have hsame : ((other, name) : Component) = (part, key) := component_eq_of_key? h hname
  exact congrArg Prod.fst hsame

/-- Every key but the empty one has a reference that names it. The references that name a key are
the pointer and a segment that is not empty, without a slash. So a component under a key is found,
and what is found stands in the section that the reference begins with. -/
theorem references_reach_keys :
    (∀ pointer key : String, key ≠ "" →
      OpenApi.Reference.key? pointer (forKey pointer key) = some key) ∧
    (∀ pointer reference : String, (∃ key, OpenApi.Reference.key? pointer reference = some key) ↔
      ∃ segment : String,
        reference = pointer ++ segment ∧ segment ≠ "" ∧ '/' ∉ segment.toList) ∧
    (∀ (job : Job) (key : String) (node : SchemaNode) (s : State), key ≠ "" →
      job.document.components.schemas.find? key = some node →
      findSchema job (forKey Section.schemas.pointer key) s = .ok (key, node) s) ∧
    (∀ {α : Type} (part : Section) (table : Table (Referable α)) (key : String) (item : α)
      (s : State), key ≠ "" → table.find? key = some (.inline item) →
      follow part table (.ref (forKey part.pointer key)) s = .ok item s) ∧
    (∀ (job : Job) (reference key : String) (node : SchemaNode) (s t : State),
      findSchema job reference s = .ok (key, node) t →
      job.document.components.schemas.find? key = some node ∧
        ∃ segment : String, reference = Section.schemas.pointer ++ segment ∧ segment ≠ "" ∧
          '/' ∉ segment.toList) ∧
    (∀ (part other : Section) (reference key : String), part.key? reference = some key →
      other ≠ part → other.key? reference = none) :=
  ⟨fun pointer _ hkey => OpenApi.Reference.key?_forKey pointer hkey,
    fun _ _ => OpenApi.Reference.exists_key?_iff,
    fun _ _ _ s hkey hnode => findSchema_forKey hkey hnode s,
    fun _ _ _ _ s hkey hitem => follow_forKey hkey hitem s,
    fun _ _ _ _ _ _ h => find?_of_findSchema h,
    fun _ _ _ _ hkey hother => key?_eq_none_of_ne hkey hother⟩

/-- A key that looks like an escape has a reference of its own. -/
theorem references_reach_keys_tilde :
    forKey Section.schemas.pointer "~1/~" = "#/components/schemas/~01~1~0" ∧
      Section.schemas.key? "#/components/schemas/~01~1~0" = some "~1/~" := by
  have hreference : forKey Section.schemas.pointer "~1/~" = "#/components/schemas/~01~1~0" := by
    decide
  have hkey : "~1/~" ≠ "" := by decide
  refine ⟨hreference, ?_⟩
  rw [← hreference]
  exact references_reach_keys.1 Section.schemas.pointer "~1/~" hkey

end Compile

end Protoscribe
