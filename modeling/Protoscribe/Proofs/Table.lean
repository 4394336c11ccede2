import Mathlib.Data.List.Forall2
import Mathlib.Data.List.Induction
import Mathlib.Data.List.Nodup
import Protoscribe.Table

/-!
# `Protoscribe.Proofs.Table`: looking up in a table

The keys of a table are strictly ascending, so each of them has one entry. `find?_eq_some_iff` says
that looking a key up gives exactly that entry, and `mem_keys_insert` which keys there are after an
insertion. A table that is made of a list has no other entries (`mem_of_mem_ofList`), and of equal
keys the last counts (`find?_ofList`). So the order of a list with distinct keys makes no difference
to its table (`ofList_eq_of_perm`). A table with other values under its keys (`Table.map`) is looked
up as before (`find?_map`).
-/

set_option autoImplicit false

namespace Protoscribe

/-- Of entries under equal keys the first is found. -/
theorem lookup_cons_eq {α : Type} (name key : String) (value : α) (rest : List (String × α)) :
    ((key, value) :: rest).lookup name = if name = key then some value else rest.lookup name := by
  rw [List.lookup_cons]
  by_cases h : name = key
  · rw [if_pos h, h, beq_self_eq_true]
  · rw [if_neg h, beq_eq_false_iff_ne.mpr h]

/-- In lists that agree place by place, each item has a partner. -/
theorem exists_of_forall₂ {α β : Type} {related : α → β → Prop} {items : List α}
    {others : List β} (h : List.Forall₂ related items others) :
    (∀ item ∈ items, ∃ other ∈ others, related item other) ∧
      ∀ other ∈ others, ∃ item ∈ items, related item other := by
  induction h with
  | nil => simp
  | @cons item other _ _ hfirst _ ih =>
    constructor
    · intro a ha
      rcases List.mem_cons.mp ha with rfl | ha
      · exact ⟨other, List.mem_cons_self .., hfirst⟩
      · obtain ⟨b, hb, hrelated⟩ := ih.1 a ha
        exact ⟨b, List.mem_cons_of_mem _ hb, hrelated⟩
    · intro b hb
      rcases List.mem_cons.mp hb with rfl | hb
      · exact ⟨item, List.mem_cons_self .., hfirst⟩
      · obtain ⟨a, ha, hrelated⟩ := ih.2 b hb
        exact ⟨a, List.mem_cons_of_mem _ ha, hrelated⟩

/-- In lists that agree place by place, an item has a partner, and what follows agrees. -/
theorem exists_split_of_forall₂ {α β : Type} {related : α → β → Prop} {front back : List α}
    {item : α} {others : List β} (h : List.Forall₂ related (front ++ item :: back) others) :
    ∃ start other rest, others = start ++ other :: rest ∧ related item other ∧
      List.Forall₂ related back rest := by
  induction front generalizing others with
  | nil =>
    obtain ⟨other, rest, hitem, hback, rfl⟩ := List.forall₂_cons_left_iff.mp h
    exact ⟨[], other, rest, rfl, hitem, hback⟩
  | cons first front ih =>
    obtain ⟨head, others, -, hrest, rfl⟩ := List.forall₂_cons_left_iff.mp h
    obtain ⟨start, other, rest, rfl, hitem, hback⟩ := ih hrest
    exact ⟨head :: start, other, rest, rfl, hitem, hback⟩

namespace Table

variable {α : Type}

/-- A table that nothing was put into has no keys. -/
@[simp] theorem keys_default : (default : Table α).keys = [] :=
  rfl

/-- Of entries with ascending keys, a key's own entry is the one that is found. -/
theorem lookup_eq_some_of_mem {entries : List (String × α)} (hentries : Ascending entries)
    {key : String} {value : α} (h : (key, value) ∈ entries) :
    entries.lookup key = some value := by
  induction entries with
  | nil => simp at h
  | cons head rest ih =>
    obtain ⟨hbelow, hrest⟩ := List.pairwise_cons.mp hentries
    rcases List.mem_cons.mp h with rfl | hmem
    · simp
    · have hlt : head.1 < key := hbelow _ hmem
      have hne : (key == head.1) = false := by
        rw [beq_eq_false_iff_ne]
        rintro rfl
        exact String.lt_irrefl _ hlt
      rw [List.lookup_cons, hne]
      exact ih hrest hmem

/-- What is found under a key is an entry. -/
theorem mem_of_lookup_eq_some {entries : List (String × α)} {key : String} {value : α}
    (h : entries.lookup key = some value) : (key, value) ∈ entries := by
  induction entries with
  | nil => simp at h
  | cons head rest ih =>
    obtain ⟨k, v⟩ := head
    rw [List.lookup_cons] at h
    by_cases hkey : key = k
    · subst hkey
      simp only [beq_self_eq_true, Option.some.injEq] at h
      simp [h]
    · have hne : (key == k) = false := beq_eq_false_iff_ne.mpr hkey
      rw [hne] at h
      exact List.mem_cons_of_mem _ (ih h)

/-- Looking a key up finds its entry. -/
theorem find?_eq_some_iff {table : Table α} {key : String} {value : α} :
    table.find? key = some value ↔ (key, value) ∈ table.entries :=
  ⟨mem_of_lookup_eq_some, lookup_eq_some_of_mem table.ascending⟩

/-- Placing an entry brings its key and no other one. -/
theorem mem_keys_place {key name : String} {value : α} {entries : List (String × α)} :
    name ∈ (place key value entries).map (·.1) ↔ name = key ∨ name ∈ entries.map (·.1) := by
  induction entries with
  | nil => simp [place]
  | cons head rest ih =>
    unfold place
    split
    · simp
    · split
      · rename_i heq
        simp [heq]
      · rw [List.map_cons, List.mem_cons, ih]
        rw [List.map_cons, List.mem_cons]
        exact or_left_comm

/-- Inserting an entry brings its key and no other one. -/
theorem mem_keys_insert {table : Table α} {key name : String} {value : α} :
    name ∈ (table.insert key value).keys ↔ name = key ∨ name ∈ table.keys :=
  mem_keys_place

/-- Where something is found, there is a key. -/
theorem mem_keys_of_find?_eq_some {table : Table α} {key : String} {value : α}
    (h : table.find? key = some value) : key ∈ table.keys :=
  List.mem_map_of_mem (f := Prod.fst) (find?_eq_some_iff.mp h)

/-- Where nothing is found, there is no key. -/
theorem not_mem_keys_of_find?_eq_none {table : Table α} {key : String}
    (h : table.find? key = none) : key ∉ table.keys := by
  intro hkey
  obtain ⟨entry, hentry, rfl⟩ := List.mem_map.mp hkey
  cases (find?_eq_some_iff.mpr hentry).symm.trans h

/-- The keys ascend. -/
theorem pairwise_keys (table : Table α) : table.keys.Pairwise (· < ·) :=
  List.pairwise_map.mpr table.ascending

/-- Placing an entry brings no other entry. -/
theorem eq_or_mem_of_mem_place {key : String} {value : α} {entries : List (String × α)}
    {entry : String × α} (h : entry ∈ place key value entries) :
    entry = (key, value) ∨ entry ∈ entries := by
  induction entries with
  | nil => simpa [place] using h
  | cons head rest ih =>
    unfold place at h
    split at h
    · exact List.mem_cons.mp h
    · split at h
      · exact (List.mem_cons.mp h).imp_right (List.mem_cons_of_mem _)
      · rcases List.mem_cons.mp h with rfl | hrest
        · exact .inr (List.mem_cons_self ..)
        · exact (ih hrest).imp_right (List.mem_cons_of_mem _)

/-- The entries of a table of a list are entries of the list. -/
theorem mem_of_mem_ofList {entries : List (String × α)} {entry : String × α}
    (h : entry ∈ (ofList entries).entries) : entry ∈ entries := by
  have hfold : ∀ (rest : List (String × α)) (table : Table α),
      entry ∈ (rest.foldl (fun table entry => table.insert entry.1 entry.2) table).entries →
        entry ∈ table.entries ∨ entry ∈ rest := by
    intro rest
    induction rest with
    | nil => exact fun _ h => .inl h
    | cons head rest ih =>
      intro table h
      rcases ih _ h with htable | hrest
      · rcases eq_or_mem_of_mem_place htable with rfl | hold
        · exact .inr (List.mem_cons_self ..)
        · exact .inl hold
      · exact .inr (List.mem_cons_of_mem _ hrest)
  exact (hfold entries {} h).resolve_left (by simp)

/-! ### Other values -/

/-- The table with other values under its keys. -/
def map {α β : Type} (change : α → β) (table : Table α) : Table β where
  entries := table.entries.map fun entry => (entry.1, change entry.2)
  ascending := by
    unfold Ascending
    rw [List.pairwise_map]
    exact table.ascending

variable {β : Type}

/-- Changing the values leaves the number of entries. -/
theorem size_map (change : α → β) (table : Table α) : (table.map change).size = table.size :=
  List.length_map _

/-- Changing the values leaves the keys. -/
theorem keys_map (change : α → β) (table : Table α) : (table.map change).keys = table.keys := by
  simp [keys, map, Function.comp_def]

/-- A changed value is found under the key of the value. -/
theorem lookup_map (change : α → β) (entries : List (String × α)) (key : String) :
    (entries.map fun entry => (entry.1, change entry.2)).lookup key =
      (entries.lookup key).map change := by
  induction entries with
  | nil => rfl
  | cons entry rest ih =>
    obtain ⟨own, value⟩ := entry
    rw [List.map_cons, lookup_cons_eq, lookup_cons_eq, ih]
    split <;> rfl

/-- A changed value is found in the table where the value was. -/
theorem find?_map (change : α → β) (table : Table α) (key : String) :
    (table.map change).find? key = (table.find? key).map change :=
  lookup_map change table.entries key

/-! ### The order of a list -/

/-- Under the key of the placed entry stands its value, and nothing else has changed. -/
theorem lookup_place (key name : String) (value : α) (entries : List (String × α)) :
    (place key value entries).lookup name =
      if name = key then some value else entries.lookup name := by
  induction entries with
  | nil => exact lookup_cons_eq name key value []
  | cons head rest ih =>
    obtain ⟨own, held⟩ := head
    unfold place
    split
    · exact lookup_cons_eq name key value _
    · split
      · next heq =>
        cases heq
        rw [lookup_cons_eq, lookup_cons_eq]
        split <;> rfl
      · next hne =>
        rw [lookup_cons_eq, ih, lookup_cons_eq]
        by_cases hown : name = own
        · rw [if_pos hown, if_pos hown, if_neg fun hkey : name = key => hne (hkey.symm.trans hown)]
        · rw [if_neg hown, if_neg hown]

/-- Under a key there is what was put in last under that key. -/
theorem find?_insert (table : Table α) (key name : String) (value : α) :
    (table.insert key value).find? name = if name = key then some value else table.find? name :=
  lookup_place key name value table.entries

/-- Of equal keys of a list the last counts. -/
theorem find?_ofList (entries : List (String × α)) (name : String) :
    (ofList entries).find? name = entries.reverse.lookup name := by
  induction entries using List.reverseRecOn with
  | nil => rfl
  | append_singleton entries entry ih =>
    obtain ⟨key, value⟩ := entry
    rw [ofList, List.foldl_append, List.foldl_cons, List.foldl_nil, ← ofList, find?_insert, ih,
      List.reverse_append, List.reverse_singleton, List.singleton_append, lookup_cons_eq]

/-- The last entry of a key is in the table. -/
theorem mem_ofList_of_last {front back : List (String × α)} {entry : String × α}
    (hlast : ∀ other ∈ back, other.1 ≠ entry.1) :
    entry ∈ (ofList (front ++ entry :: back)).entries := by
  obtain ⟨key, value⟩ := entry
  have hnone : back.reverse.lookup key = none := by
    refine List.lookup_eq_none_iff.mpr fun other hother => ?_
    simpa using (hlast other (List.mem_reverse.mp hother)).symm
  refine find?_eq_some_iff.mp ?_
  rw [find?_ofList, List.reverse_append, List.reverse_cons, List.append_assoc, List.lookup_append,
    hnone, Option.none_or, List.singleton_append, lookup_cons_eq, if_pos rfl]

/-- No entry is there twice. -/
theorem nodup_entries (table : Table α) : table.entries.Nodup := by
  refine table.ascending.imp fun {entry other} hlt heq => ?_
  subst heq
  exact String.lt_irrefl _ hlt

/-- Tables in which every key has the same value are the same. -/
theorem ext_find? {table other : Table α} (h : ∀ name, table.find? name = other.find? name) :
    table = other := by
  have hmem (entry : String × α) : entry ∈ table.entries ↔ entry ∈ other.entries := by
    obtain ⟨key, value⟩ := entry
    rw [← find?_eq_some_iff, ← find?_eq_some_iff, h]
  have hperm : table.entries.Perm other.entries :=
    (List.perm_ext_iff_of_nodup table.nodup_entries other.nodup_entries).mpr hmem
  have hentries : table.entries = other.entries :=
    hperm.eq_of_pairwise (fun _ _ _ _ hlt hgt => absurd (String.lt_trans hlt hgt)
      (String.lt_irrefl _)) table.ascending other.ascending
  cases table
  cases other
  cases hentries
  rfl

/-- The entry of a key among entries with distinct keys, in whatever order they stand. -/
theorem lookup_eq_of_perm {entries others : List (String × α)} (hperm : entries.Perm others)
    (hdistinct : (entries.map (·.1)).Nodup) (name : String) :
    entries.lookup name = others.lookup name := by
  induction hperm with
  | nil => rfl
  | cons entry _ ih =>
    obtain ⟨key, value⟩ := entry
    rw [lookup_cons_eq, lookup_cons_eq, ih (List.nodup_cons.mp hdistinct).2]
  | swap first second rest =>
    obtain ⟨key, value⟩ := first
    obtain ⟨own, held⟩ := second
    have hne : own ≠ key := by
      simp only [List.map_cons, List.nodup_cons, List.mem_cons, not_or] at hdistinct
      exact hdistinct.1.1
    simp only [lookup_cons_eq]
    by_cases hkey : name = key
    · rw [if_neg fun hown => hne (hown.symm.trans hkey), if_pos hkey, if_pos hkey]
    · rw [if_neg hkey, if_neg hkey]
  | trans hfirst _ ih ih' =>
    rw [ih hdistinct, ih' ((hfirst.map _).nodup_iff.mp hdistinct)]

/-- A table of entries with distinct keys does not depend on their order. -/
theorem ofList_eq_of_perm {entries others : List (String × α)} (hperm : entries.Perm others)
    (hdistinct : (entries.map (·.1)).Nodup) : ofList entries = ofList others := by
  refine ext_find? fun name => ?_
  have hreverse : entries.reverse.Perm others.reverse :=
    (entries.reverse_perm.trans hperm).trans others.reverse_perm.symm
  rw [find?_ofList, find?_ofList]
  refine lookup_eq_of_perm hreverse ?_ name
  rw [List.map_reverse]
  exact List.nodup_reverse.mpr hdistinct

end Table

end Protoscribe
