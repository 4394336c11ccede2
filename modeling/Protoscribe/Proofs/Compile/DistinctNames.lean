import Protoscribe.Proofs.Compile.WellNamed
import Protoscribe.Proofs.Draft.Nested

/-!
# `Protoscribe.Proofs.Compile.DistinctNames`: no name is taken twice

A message keeps two registries of names, one for its fields and one for its nested types, where
messages and enums share the second one. Every operation that puts a message together looks a name
up before it takes it, so that no registry has a name twice (`DistinctNames`). That holds through
loops and merges, and for all drafted messages (`distinctNames_stable`).
-/

set_option autoImplicit false

namespace Protoscribe

namespace MessageDraft

/-- No two fields and no two nested types of a message share a name. -/
structure DistinctNames (draft : MessageDraft) : Prop where
  fields : draft.fieldNames.Nodup
  types : draft.typeNames.Nodup

namespace DistinctNames

variable {draft other : MessageDraft}

/-- A message without fields and types has no names to be confused. -/
theorem of_nil (hfields : draft.fields = []) (htypes : draft.typeNames = []) :
    DistinctNames draft :=
  ⟨by simp [fieldNames, hfields], by simp [htypes]⟩

/-! ### Single members -/

/-- A field comes in when its name is not in the registry, which has the names of all fields. -/
theorem addField (h : DistinctNames draft) (hstep : InStep draft) (field : FieldDraft) :
    DistinctNames (draft.addField field) where
  fields := by
    rw [fieldNames, fields_addField]
    exact hstep.nodup_fieldNames_append h.fields (List.nodup_singleton _)
  types := by simpa using h.types

/-- A message is nested only under a name of its own. -/
theorem addMessage (h : DistinctNames draft) (hstep : InStep draft) (nested : MessageDraft) :
    DistinctNames (draft.addMessage nested) where
  fields := by simpa [fieldNames] using h.fields
  types := by
    unfold MessageDraft.addMessage
    split
    · exact h.types
    · next hfree =>
      rw [hstep.hasNestedType_iff] at hfree
      -- the new name stands between the messages and the enums
      have hperm : (typeNames { draft with messages := draft.messages ++ [nested] }).Perm
          (nested.name :: draft.typeNames) := by
        simp only [typeNames, List.map_append, List.map_cons, List.map_nil, List.append_assoc]
        exact List.perm_middle
      exact hperm.nodup_iff.mpr (List.nodup_cons.mpr ⟨hfree, h.types⟩)

/-- An enum is nested only under a name of its own. -/
theorem addEnum (h : DistinctNames draft) (hstep : InStep draft) (nested : EnumDraft) :
    DistinctNames (draft.addEnum nested) where
  fields := by simpa [fieldNames] using h.fields
  types := by
    unfold MessageDraft.addEnum
    split
    · exact h.types
    · next hfree =>
      rw [hstep.hasNestedType_iff] at hfree
      have hperm : (typeNames { draft with enums := draft.enums ++ [nested] }).Perm
          (nested.name :: draft.typeNames) := by
        simp only [typeNames, List.map_append, List.map_cons, List.map_nil, ← List.append_assoc]
        exact List.perm_append_singleton _ _
      exact hperm.nodup_iff.mpr (List.nodup_cons.mpr ⟨hfree, h.types⟩)

/-! ### Many members -/

/-- What each step of a loop keeps, the loop keeps. -/
theorem foldl {α : Type} {add : MessageDraft → α → MessageDraft}
    (hkeep : ∀ {draft}, InStep draft → ∀ item, InStep (add draft item))
    (hadd : ∀ {draft}, DistinctNames draft → InStep draft → ∀ item,
      DistinctNames (add draft item))
    (h : DistinctNames draft) (hstep : InStep draft) (items : List α) :
    DistinctNames (items.foldl add draft) := by
  induction items generalizing draft with
  | nil => exact h
  | cons item rest ih => exact ih (hadd h hstep item) (hkeep hstep item)

/-- Types of another message are nested only under names of their own. -/
theorem nestAll (h : DistinctNames draft) (hstep : InStep draft) (messages : List MessageDraft)
    (enums : List EnumDraft) : DistinctNames (draft.nestAll messages enums) :=
  (h.foldl InStep.addMessage addMessage hstep messages).foldl InStep.addEnum addEnum
    (hstep.foldl InStep.addMessage messages) enums

/-- The names of the other message need not be distinct: each of them is looked up. -/
theorem merge (h : DistinctNames draft) (hstep : InStep draft) (other : MessageDraft) :
    DistinctNames (draft.merge other) := by
  rw [merge_eq]
  -- groups have no part in either registry
  have hgrouped : DistinctNames { draft with oneofs := draft.oneofs ++ other.oneofs } :=
    ⟨h.fields, h.types⟩
  exact (hgrouped.foldl InStep.addField addField ⟨hstep.numbers, hstep.fields, hstep.types⟩
    _).nestAll
    (hstep.withFields other) _ _

/-- Another order brings no names. -/
theorem moveToFront (h : DistinctNames draft) (order : List String) :
    DistinctNames (draft.moveToFront order) := by
  refine ⟨?_, h.types⟩
  rw [fieldNames, fields_moveToFront]
  exact ((perm_inOrder order draft.fields).map _).nodup_iff.mpr h.fields

end DistinctNames

end MessageDraft

namespace Compile

open MessageDraft (DistinctNames)

/-- Every step that puts a message together keeps its names distinct. -/
theorem distinctNames_stable (job : Job) (facts : Facts) : Stable job facts DistinctNames where
  fresh _ _ _ := .of_nil rfl rfl
  union _ _ := .of_nil rfl rfl
  scalar _ _ _ _ := (DistinctNames.of_nil rfl rfl).addField (.of_nil rfl rfl rfl rfl) _
  enum _ _ _ _ _ _ hrun := by
    obtain ⟨⟨enum, -, rfl⟩, -⟩ := enumCarrier_eq_ok hrun
    exact ⟨List.nodup_nil, by simp [MessageDraft.typeNames]⟩
  refer parent slot _ result _ hstep hparent := by
    cases result with
    | message type => exact hparent.addField hstep _
    | enum type => exact hparent.addField hstep _
    | nothing => exact hparent
  taken parent child grown slot schema field marked _ _ htaken _ hstep _ hparent _ := by
    -- the types come in first, and then the field
    cases htaken with
    | enum _ _ => exact (hparent.addEnum hstep _).addField (hstep.addEnum _) _
    | enumComponent _ _ => exact hparent.addField hstep _
    | unwrapped _ _ _ => exact (hparent.nestAll hstep _ _).addField (hstep.nestAll _ _) _
    | message _ _ => exact (hparent.addMessage hstep _).addField (hstep.addMessage _) _
    | component _ _ => exact hparent.addField hstep _
  renamed _ _ _ _ hchild := ⟨hchild.fields, hchild.types⟩
  merge _ other hstep _ hdraft _ := hdraft.merge hstep other
  moveToFront _ order hdraft := hdraft.moveToFront order
  comment _ _ hdraft := ⟨hdraft.fields, hdraft.types⟩
  payload _ _ _ _ := .of_nil rfl rfl

/-! ### Names of fields -/

/-- Every field of the message has been named after a text. -/
def NamesFields (draft : MessageDraft) : Prop :=
  ∀ field ∈ draft.fields, ∃ text, field.name = Identifier.fieldName text

/-- Every step that puts a message together names fields after texts. -/
theorem namesFields_stable (job : Job) (facts : Facts) : Stable job facts NamesFields := by
  show Stable job facts (FieldsNamed fun name => ∃ text, name = Identifier.fieldName text)
  exact fieldsNamed_stable (fun text => ⟨text, rfl⟩) job facts

end Compile

end Protoscribe
