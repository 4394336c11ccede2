import Mathlib.Algebra.Group.Nat.Defs
import Protoscribe.Draft.Enum
import Protoscribe.Proofs.Draft.Registry

/-!
# `Protoscribe.Proofs.Draft.Enum`: numbers and names of values

A value comes in with the number of its place, and its name is taken then. So the stored numbers are
those of the places and the registry has the names of the values (`EnumDraft.InStep`), for every
enum that values are added to one by one (`InStep.addValue`). In such an enum a free name gets the
next number (`InStep.addValue_of_free`), and finishing the enum does no more than to copy names and
numbers (`InStep.numbers_build`).
-/

set_option autoImplicit false

namespace Protoscribe

/-- Positions that fit into 32 bits are kept. -/
theorem Draft.toInt_position {index : Nat} (h : index < 2 ^ 31) :
    (Draft.position index).toInt = index := by
  rw [Draft.position, Nat.min_eq_left (by omega)]
  exact Int32.toInt_ofNat_of_lt h

namespace EnumDraft

variable {draft : EnumDraft}

/-- What an enum stores beside the names of its values agrees with them: each value has the number
of its place, and the names that are taken are those of the values. -/
structure InStep (draft : EnumDraft) : Prop where
  numbers : draft.numbered.map (·.2) = (List.range draft.values.length).map Draft.position
  values : draft.takenValues.Registers draft.values

/-- There is one stored number for each value. -/
@[simp] theorem length_numbered (draft : EnumDraft) :
    draft.numbered.length = draft.values.length := by
  rw [values, List.length_map]

namespace InStep

/-- A name counts as taken exactly when there is a value of this name. -/
theorem hasValue_iff (h : InStep draft) {name : String} :
    draft.hasValue name = true ↔ name ∈ draft.values :=
  h.values name

/-- An enum without values. -/
theorem fresh (name : String) (comment : Option String) : InStep { name, comment } :=
  ⟨rfl, Registry.registers_empty⟩

/-- A value whose name is free comes in behind the others. -/
theorem values_addValue (h : InStep draft) {name : String} (hfree : name ∉ draft.values) :
    (draft.addValue name).values = draft.values ++ [name] := by
  have hnot : ¬ draft.hasValue name = true := fun htaken => hfree (h.hasValue_iff.mp htaken)
  rw [addValue, if_neg hnot, EnumDraft.values, List.map_append]
  rfl

/-- The value that comes in gets the next number, and its name is taken. -/
theorem addValue (h : InStep draft) (name : String) : InStep (draft.addValue name) := by
  by_cases htaken : draft.hasValue name = true
  · rwa [EnumDraft.addValue, if_pos htaken]
  · have hvalues : (draft.addValue name).values = draft.values ++ [name] :=
      h.values_addValue fun hmem => htaken (h.hasValue_iff.mpr hmem)
    refine ⟨?_, ?_⟩
    · rw [hvalues, EnumDraft.addValue, if_neg htaken, List.map_append, h.numbers,
        List.length_append, List.length_singleton, List.range_succ, List.map_append, length_numbered]
      rfl
    · rw [hvalues, EnumDraft.addValue, if_neg htaken]
      exact h.values.take fun other => by simp

/-- A new name, or a new comment, touches neither values nor numbers. -/
theorem of_numbered_eq {other : EnumDraft} (h : InStep draft)
    (hnumbered : other.numbered = draft.numbered) (htaken : other.takenValues = draft.takenValues) :
    InStep other := by
  have hvalues : other.values = draft.values := by
    rw [EnumDraft.values, hnumbered, EnumDraft.values]
  exact ⟨by rw [hnumbered, hvalues, h.numbers], by rw [htaken, hvalues]; exact h.values⟩

end InStep

/-! ### Finished enums -/

/-- The names of the values are copied when the enum is finished. -/
theorem names_build (draft : EnumDraft) :
    draft.build.values.map (·.name) = draft.values.map some := by
  rw [build, values, List.map_map, List.map_map]
  rfl

/-- In an enum that values were added to one by one, the finished values have the numbers of their
places. -/
theorem InStep.numbers_build (h : InStep draft) :
    draft.build.values.map (·.number) =
      (List.range draft.values.length).map fun index => some (Draft.position index) := by
  calc draft.build.values.map (·.number)
      = (draft.numbered.map (·.2)).map some := by
        rw [build, List.map_map, List.map_map]
        rfl
    _ = (List.range draft.values.length).map fun index => some (Draft.position index) := by
        rw [h.numbers, List.map_map]
        rfl

end EnumDraft

end Protoscribe
