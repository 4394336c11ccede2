import Protoscribe.Draft.Registry
import Protoscribe.Proofs.Table

/-!
# `Protoscribe.Proofs.Draft.Registry`: registries and the names they are kept for

A registry stands beside a list of members. It is in step with the list when the names in it are
those of the members (`Registry.Registers`). That is so of an empty registry beside an empty list,
and it stays so when a name is taken on both sides (`Registers.take`). Nothing but the names is in a
registry, so only one registry is in step with a list (`Registers.unique`).
-/

set_option autoImplicit false

namespace Protoscribe.Registry

variable {registry other : Registry} {names : List String}

/-- After a name is taken, the registry has it beside the names that it had. -/
@[simp] theorem contains_take (registry : Registry) (taken name : String) :
    (registry.take taken).contains name = (registry.contains name || taken == name) := by
  have hfind : (registry.take taken).find? name =
      if name = taken then some () else registry.find? name :=
    Table.find?_insert registry taken name ()
  rw [Table.contains, hfind]
  by_cases hname : name = taken
  · simp [hname]
  · simp [hname, Table.contains, beq_false_of_ne (Ne.symm hname)]

/-- The names in a registry are its keys. -/
theorem contains_iff_mem_keys {name : String} :
    registry.contains name = true ↔ name ∈ registry.keys := by
  rw [Table.contains, Option.isSome_iff_exists]
  refine ⟨fun ⟨_, hfind⟩ => Table.mem_keys_of_find?_eq_some hfind, fun hkey => ?_⟩
  refine Option.ne_none_iff_exists'.mp fun hnone => ?_
  exact Table.not_mem_keys_of_find?_eq_none hnone hkey

/-- A registry has as many keys as entries. -/
theorem length_keys (registry : Registry) : registry.keys.length = registry.size :=
  List.length_map _

/-- Registries of the same names are equal. -/
theorem ext_contains (h : ∀ name, registry.contains name = other.contains name) :
    registry = other := by
  refine Table.ext_find? fun name => ?_
  have hsome : (registry.find? name).isSome = (other.find? name).isSome := h name
  cases hfirst : registry.find? name <;> cases hsecond : other.find? name <;>
    simp_all

/-- The names in a registry are those of a list. -/
def Registers (registry : Registry) (names : List String) : Prop :=
  ∀ name, registry.contains name = true ↔ name ∈ names

/-- An empty registry has no name. -/
theorem registers_empty : Registers .empty [] := by
  intro name
  simp [empty, Table.contains, Table.find?]

namespace Registers

/-- A name that comes into the list is taken in the registry. -/
theorem take {taken : String} {more : List String} (h : registry.Registers names)
    (hmore : ∀ name, name ∈ more ↔ name ∈ names ∨ name = taken) :
    (registry.take taken).Registers more := by
  intro name
  rw [contains_take, Bool.or_eq_true, beq_iff_eq, h name, hmore name]
  exact or_congr_right eq_comm

/-- The order of the list does not matter. -/
theorem of_mem_iff {others : List String} (h : registry.Registers names)
    (hsame : ∀ name, name ∈ others ↔ name ∈ names) : registry.Registers others :=
  fun name => (h name).trans (hsame name).symm

/-- Only one registry is in step with a list. -/
theorem unique (h : registry.Registers names) (hother : other.Registers names) :
    registry = other :=
  ext_contains fun name => Bool.eq_iff_iff.mpr ((h name).trans (hother name).symm)

end Registers

end Protoscribe.Registry
