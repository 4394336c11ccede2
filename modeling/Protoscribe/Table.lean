/-!
# `Protoscribe.Table`: entries sorted by key

A `Table` holds one value for each key, in ascending order of the keys. Keys are ordered by code
point, which is also the order of their bytes in UTF-8. A value that is put in under a key that is
present replaces the one before it, so of equal keys the last counts.
-/

set_option autoImplicit false

namespace Protoscribe

/-- Are the keys of the entries strictly ascending? -/
def Ascending {α : Type} (entries : List (String × α)) : Prop :=
  entries.Pairwise fun a b => a.1 < b.1

/-- Entries with strictly ascending keys. -/
structure Table (α : Type) where
  entries : List (String × α) := []
  ascending : Ascending entries := by exact List.Pairwise.nil
  deriving Repr, DecidableEq

namespace Table

variable {α : Type}

/-- Puts an entry into its place among ascending ones. -/
def place (key : String) (value : α) : List (String × α) → List (String × α)
  | [] => [(key, value)]
  | entry :: rest =>
    if key < entry.1 then (key, value) :: entry :: rest
    else if key = entry.1 then (key, value) :: rest
    else entry :: place key value rest

/-- A key of a list with one more entry is that of the entry, or was there. -/
theorem fst_mem_place {key : String} {value : α} {entries : List (String × α)}
    {entry : String × α} (h : entry ∈ place key value entries) :
    entry.1 = key ∨ entry ∈ entries := by
  induction entries with
  | nil => simp_all [place]
  | cons head rest ih =>
    unfold place at h
    split at h
    · simp only [List.mem_cons] at h
      rcases h with rfl | h | h <;> simp_all
    · split at h
      · simp only [List.mem_cons] at h
        rcases h with rfl | h <;> simp_all
      · simp only [List.mem_cons] at h
        rcases h with rfl | h
        · simp
        · rcases ih h with h | h <;> simp_all

/-- Keys that ascend do so with one more. -/
theorem ascending_place {key : String} {value : α} {entries : List (String × α)}
    (h : Ascending entries) : Ascending (place key value entries) := by
  induction entries with
  | nil => simp [place, Ascending]
  | cons head rest ih =>
    obtain ⟨below, tail⟩ := List.pairwise_cons.mp h
    unfold place
    split
    · next lt =>
      refine List.pairwise_cons.mpr ⟨fun entry mem => ?_, h⟩
      rcases List.mem_cons.mp mem with rfl | mem
      · exact lt
      · exact String.lt_trans lt (below entry mem)
    · next notLt =>
      split
      · next eq => exact List.pairwise_cons.mpr ⟨fun entry mem => eq ▸ below entry mem, tail⟩
      · next ne =>
        refine List.pairwise_cons.mpr ⟨fun entry mem => ?_, ih tail⟩
        rcases fst_mem_place mem with eq | mem
        · have above : head.1 ≤ key := String.not_lt.mp notLt
          rw [eq]
          exact String.not_le.mp fun le => ne (String.le_antisymm le above)
        · exact below entry mem

/-- Puts a value under a key. -/
def insert (table : Table α) (key : String) (value : α) : Table α :=
  ⟨place key value table.entries, ascending_place table.ascending⟩

/-- The table of a list of entries, of which the last of equal keys counts. -/
def ofList (entries : List (String × α)) : Table α :=
  entries.foldl (fun table entry => table.insert entry.1 entry.2) {}

/-- The value under a key. -/
def find? (table : Table α) (key : String) : Option α :=
  table.entries.lookup key

/-- Is there a value under the key? -/
def contains (table : Table α) (key : String) : Bool :=
  (table.find? key).isSome

/-- The keys in ascending order. -/
def keys (table : Table α) : List String :=
  table.entries.map (·.1)

/-- The number of entries. -/
def size (table : Table α) : Nat :=
  table.entries.length

end Table

instance {α : Type} : Inhabited (Table α) := ⟨{}⟩

end Protoscribe
