import Protoscribe.Proofs.Compile.Everywhere

/-!
# `Protoscribe.Proofs.Compile.Filled`: no message goes without fields

A schema may compile to a message without fields: to an empty one, or to the carrier of an enum.
Both are held back wherever a message becomes a type. What is put together from slots and from the
variants of `allOf` is `Filled`: it is empty, or it has a field, and all messages nested in it have
fields. `Derives.filled` says that carriers are the only exception, and that they do not come from
objects; so a message that is nested, declared, or lent to another one always has a field
(`Emitted.hasFields`).
-/

set_option autoImplicit false

namespace Protoscribe

namespace MessageDraft

variable {draft other : MessageDraft}

/-- A message is empty when it has neither fields nor nested types. -/
theorem isEmpty_iff :
    draft.isEmpty = true ↔ draft.fields = [] ∧ draft.messages = [] ∧ draft.enums = [] := by
  simp [isEmpty, and_assoc]

/-- A field comes in, or its name is that of a field that is there. -/
theorem InStep.fields_addField_ne_nil (h : InStep draft) (field : FieldDraft) :
    (draft.addField field).fields ≠ [] := by
  by_cases htaken : draft.hasField field.name = true
  · rw [MessageDraft.addField, if_pos htaken]
    rintro hnil
    have hmem := h.hasField_iff.mp htaken
    rw [fieldNames, hnil] at hmem
    cases hmem
  · simp [fields_addField, htaken]

/-- Fields are never lost, and the first one that comes in stays. -/
theorem InStep.fields_eq_nil_of_foldl_addField {fields : List FieldDraft} (hdraft : InStep draft)
    (h : (fields.foldl MessageDraft.addField draft).fields = []) :
    draft.fields = [] ∧ fields = [] := by
  induction fields generalizing draft with
  | nil => exact ⟨h, rfl⟩
  | cons field rest ih =>
    exact absurd (ih (hdraft.addField field) h).1 (hdraft.fields_addField_ne_nil field)

/-- A merged message has no fields only if neither of the two has. -/
theorem InStep.fields_eq_nil_of_merge (hdraft : InStep draft)
    (h : (draft.merge other).fields = []) : draft.fields = [] ∧ other.fields = [] := by
  have hgrouped : InStep { draft with oneofs := draft.oneofs ++ other.oneofs } :=
    ⟨hdraft.numbers, hdraft.fields, hdraft.types⟩
  rw [merge_eq, fields_nestAll] at h
  obtain ⟨hfields, hother⟩ := hgrouped.fields_eq_nil_of_foldl_addField h
  exact ⟨hfields, List.map_eq_nil_iff.mp hother⟩

/-- Another order of no fields is no fields. -/
theorem fields_moveToFront_eq_nil_iff {order : List String} :
    (draft.moveToFront order).fields = [] ↔ draft.fields = [] := by
  rw [fields_moveToFront, ← List.length_eq_zero_iff, ← List.length_eq_zero_iff,
    (perm_inOrder order draft.fields).length_eq]

end MessageDraft

namespace Compile

open OpenApi (Schema SchemaNode)

/-- A message has a field. -/
def HasFields (draft : MessageDraft) : Prop :=
  draft.fields ≠ []

/-- A message is empty or has a field, and all messages nested in it have fields. -/
structure Filled (draft : MessageDraft) : Prop where
  fields : draft.isEmpty = false → HasFields draft
  nested : ∀ message ∈ draft.messages, Everywhere HasFields message

namespace Filled

variable {draft other : MessageDraft}

/-- A message without nested types is filled, whether or not it has fields. -/
theorem of_nil (hmessages : draft.messages = []) (henums : draft.enums = []) : Filled draft where
  fields hempty hfields := by
    rw [MessageDraft.isEmpty_iff.mpr ⟨hfields, hmessages, henums⟩] at hempty
    cases hempty
  nested := by simp [hmessages]

/-- Once a field has come in, only the nested messages count. -/
theorem addField (hdraft : draft.InStep) (field : FieldDraft)
    (hnested : ∀ message ∈ draft.messages, Everywhere HasFields message) :
    Filled (draft.addField field) where
  fields _ := hdraft.fields_addField_ne_nil field
  nested := by simpa using hnested

/-- A filled message that is not empty has fields, and so have the messages nested in it. -/
theorem everywhere (h : Filled draft) (hempty : draft.isEmpty = false) :
    Everywhere HasFields draft :=
  .intro (h.fields hempty) h.nested

/-- A filled message without fields is empty. -/
theorem nil_of_fields_eq_nil (h : Filled draft) (hfields : draft.fields = []) :
    draft.messages = [] ∧ draft.enums = [] := by
  cases hempty : draft.isEmpty with
  | true => exact (MessageDraft.isEmpty_iff.mp hempty).2
  | false => exact absurd hfields (h.fields hempty)

/-- What has fields wherever it has types is no carrier of an enum. -/
theorem carriedEnum?_eq_none (h : Filled draft) : draft.carriedEnum? = none := by
  refine Option.eq_none_iff_forall_ne_some.mpr fun enum hcarried => ?_
  obtain ⟨hfields, -, henums⟩ := MessageDraft.carriedEnum?_eq_some_iff.mp hcarried
  rw [(h.nil_of_fields_eq_nil hfields).2] at henums
  cases henums

/-- A field that refers to a type fills the message. -/
theorem refer (h : Filled draft) (hdraft : draft.InStep) (slot : Slot) (result : ComponentType) :
    Filled (slot.refer draft result) := by
  cases result with
  | message type => exact .addField hdraft _ h.nested
  | enum type => exact .addField hdraft _ h.nested
  | nothing => exact h

/-- Two filled messages make one. -/
theorem merge (h : Filled draft) (hdraft : draft.InStep) (hother : Filled other) :
    Filled (draft.merge other) where
  fields hempty hfields := by
    -- without a field there is nothing in either message that could come together
    obtain ⟨hleft, hright⟩ := hdraft.fields_eq_nil_of_merge hfields
    obtain ⟨hmessages, henums⟩ := h.nil_of_fields_eq_nil hleft
    obtain ⟨hmessages', henums'⟩ := hother.nil_of_fields_eq_nil hright
    have hnothing : (draft.merge other).isEmpty = true := by
      refine MessageDraft.isEmpty_iff.mpr ⟨hfields, ?_, ?_⟩
      · refine List.eq_nil_iff_forall_not_mem.mpr fun message hmessage => ?_
        rcases MessageDraft.mem_messages_merge hmessage with hmem | hmem <;> simp_all
      · refine List.eq_nil_iff_forall_not_mem.mpr fun enum henum => ?_
        rcases MessageDraft.mem_enums_merge henum with hmem | hmem <;> simp_all
    rw [hnothing] at hempty
    cases hempty
  nested message hmessage := by
    rcases MessageDraft.mem_messages_merge hmessage with hmem | hmem
    · exact h.nested message hmem
    · exact hother.nested message hmem

/-- Another order leaves a message filled. -/
theorem moveToFront (h : Filled draft) (order : List String) :
    Filled (draft.moveToFront order) where
  fields hempty hfields := by
    rw [MessageDraft.fields_moveToFront_eq_nil_iff] at hfields
    obtain ⟨hmessages, henums⟩ := h.nil_of_fields_eq_nil hfields
    have hnothing : (draft.moveToFront order).isEmpty = true :=
      MessageDraft.isEmpty_iff.mpr
        ⟨MessageDraft.fields_moveToFront_eq_nil_iff.mpr hfields, hmessages, henums⟩
    rw [hnothing] at hempty
    cases hempty
  nested := h.nested

/-- A comment leaves a message filled. -/
theorem comment (h : Filled draft) (comment : Option String) :
    Filled { draft with comment } :=
  ⟨h.fields, h.nested⟩

/-- What is taken in is nested only when it has a field, and a wrapper hands on its own nested
messages. -/
theorem taken {job : Job} {facts : Facts} {parent child grown : MessageDraft} {name : String}
    {allowRepeated : Bool} {field : FieldDraft} (added : FieldDraft)
    (htaken : TakenIn job facts parent name child allowRepeated (grown, field))
    (hchild : child.isEmpty = false) (hparent : parent.InStep) (h : Filled parent)
    (hfilled : Filled child ∨ ∃ enum, child.carriedEnum? = some enum) :
    Filled (grown.addField added) := by
  -- the carrier of an enum never gets as far as being nested
  have hnotCarried : child.carriedEnum? = none → Filled child := by
    intro hnone
    rcases hfilled with hfilled | ⟨enum, henum⟩
    · exact hfilled
    · simp [hnone] at henum
  refine .addField (htaken.inStep hparent) added fun message hmessage => ?_
  cases htaken with
  | enum _ _ =>
    rw [MessageDraft.messages_addEnum] at hmessage
    exact h.nested message hmessage
  | enumComponent _ _ => exact h.nested message hmessage
  | unwrapped hcarried _ hunwrap =>
    obtain ⟨-, -, hmessages, -⟩ := MessageDraft.unwrap?_eq_some hunwrap
    rcases MessageDraft.mem_messages_nestAll hmessage with hmem | hmem
    · exact h.nested message hmem
    · exact (hnotCarried hcarried).nested message (hmessages ▸ hmem)
  | message hcarried _ =>
    rcases MessageDraft.mem_messages_addMessage hmessage with hmem | rfl
    · exact h.nested message hmem
    · have hchild := (hnotCarried hcarried).everywhere hchild
      exact .intro hchild.here fun _ hmem => hchild.nested hmem
  | component _ _ => exact h.nested message hmessage

end Filled

/-- The result of a task is put together, so that it is not the carrier of an enum. -/
def Task.Builds : Task → Prop
  | .node .. => False
  | .schema _ content => content.isObject = true
  | .shape _ content => content.isObject = true
  | _ => True

section

variable {job : Job} {facts : Facts}

/-- What a task leads to is filled, or it is the carrier of an enum. -/
def Task.Fills (task : Task) (draft : MessageDraft) : Prop :=
  Filled draft ∨ ¬ task.Builds ∧ ∃ enum, draft.carriedEnum? = some enum

/-- What a task fills is filled if the task builds a message. -/
theorem Task.Fills.filled {task : Task} {draft : MessageDraft} (h : task.Fills draft)
    (hbuilds : task.Builds) : Filled draft := by
  rcases h with hfilled | ⟨hnot, -⟩
  · exact hfilled
  · exact absurd hbuilds hnot

/-- What is derived from filled messages is filled, unless it is a carrier. -/
theorem Derives.filled {task : Task} {compiled : Option MessageDraft}
    (h : Derives job facts task compiled)
    (hstart : ∀ draft ∈ task.start?, draft.InStep ∧ Filled draft) :
    ∀ draft ∈ compiled, task.Fills draft := by
  -- by the rules of the derivation, with the messages that a task starts from as a premise
  induction h with
  | inline _ ih =>
    intro draft hdraft
    exact (ih hstart draft hdraft).imp_right fun hcarrier => ⟨not_false, hcarrier.2⟩
  | expanded _ _ _ ih => exact ih hstart
  | unordered _ _ ih =>
    intro draft hdraft
    exact ih (by simp [Task.start?]) draft hdraft
  | ordered _ ih =>
    rintro _ ⟨⟩
    refine (ih (by simp [Task.start?]) _ rfl).imp (·.moveToFront _) ?_
    rintro ⟨hbuilds, enum, hcarried⟩
    refine ⟨hbuilds, enum, ?_⟩
    rw [MessageDraft.carriedEnum?_eq_some_iff] at hcarried ⊢
    exact ⟨MessageDraft.fields_moveToFront_eq_nil_iff.mpr hcarried.1, hcarried.2⟩
  | map hshape _ ih =>
    intro draft hdraft
    refine (ih (by simp [Task.start?]) draft hdraft).imp_right fun hcarrier => ⟨?_, hcarrier.2⟩
    simp [Task.Builds, Schema.isObject, hshape]
  | enum hshape hrun =>
    rintro _ ⟨⟩
    obtain ⟨⟨enum, -, rfl⟩, -⟩ := enumCarrier_eq_ok hrun
    exact .inr ⟨by simp [Task.Builds, Schema.isObject, hshape], enum, rfl⟩
  | union _ _ ih =>
    intro draft hdraft
    refine .inl ((ih ?_ draft hdraft).filled trivial)
    rintro _ ⟨⟩
    exact ⟨unionStart_inStep _ _, .of_nil rfl rfl⟩
  | list _ _ ih
  | object _ _ ih =>
    intro draft hdraft
    refine .inl ((ih ?_ draft hdraft).filled trivial)
    rintro _ ⟨⟩
    exact ⟨inStep_fresh _ _ _, .of_nil rfl rfl⟩
  | combined _ hmerged _ ihmerged ih =>
    have hfresh := inStep_fresh
    intro draft hdraft
    refine .inl ((ih ?_ draft hdraft).filled trivial)
    rintro _ ⟨⟩
    refine ⟨hmerged.inStep (.of_some rfl (hfresh _ _ _)) _ rfl, ?_⟩
    refine (ihmerged ?_ _ rfl).filled trivial
    rintro _ ⟨⟩
    exact ⟨hfresh _ _ _, .of_nil rfl rfl⟩
  | scalar _ =>
    rintro _ ⟨⟩
    exact .inl (.addField (inStep_fresh _ _ _) _ (by simp))
  | bareList _ => simp
  | any _ => simp
  | slotsCons hfirst _ ihfirst ih
  | absorbCons hfirst _ ihfirst ih =>
    intro draft hdraft
    refine ih ?_ draft hdraft
    rintro _ ⟨⟩
    exact ⟨hfirst.inStep (fun draft hdraft => (hstart draft hdraft).1) _ rfl,
      (ihfirst hstart _ rfl).filled trivial⟩
  | @reference _ slot _ result _ =>
    rintro _ ⟨⟩
    obtain ⟨hstep, hparent⟩ := hstart _ rfl
    exact .inl (hparent.refer hstep slot result)
  | taken hchild htaken _ _ ih =>
    rintro _ ⟨⟩
    obtain ⟨hstep, hparent⟩ := hstart _ rfl
    exact .inl (hparent.taken _ htaken hchild hstep
      ((ih (by simp [Task.start?]) _ rfl).imp_right And.right))
  | absorbReference _ _ _ ih => exact ih hstart
  | slotsNil
  | skipped
  | absorbNil
  | ignored
  | absorbNothing =>
    -- the message is the one that the task starts from
    rintro _ ⟨⟩
    exact .inl (hstart _ rfl).2
  | merged hobject _ ih =>
    rintro _ ⟨⟩
    obtain ⟨hstep, hdraft⟩ := hstart _ rfl
    exact .inl (hdraft.merge hstep ((ih (by simp [Task.start?]) _ rfl).filled hobject))

/-- What a task fills has fields everywhere, unless it is empty or an enum. -/
theorem Task.Fills.everywhere {task : Task} {draft : MessageDraft} (h : task.Fills draft)
    (hempty : draft.isEmpty = false) (hcarried : draft.carriedEnum? = none) :
    Everywhere HasFields draft := by
  rcases h with hfilled | ⟨-, enum, henum⟩
  · exact hfilled.everywhere hempty
  · simp [hcarried] at henum

/-! ### Files -/

/-- Only objects are merged into requests and responses. -/
theorem Payload.filled {draft : MessageDraft} (h : Payload job facts draft) : Filled draft := by
  induction h with
  | start _ => exact .of_nil rfl rfl
  | described comment _ ih => exact ih.comment comment
  | member hdraft hslot ih =>
    refine (hslot.filled ?_ _ rfl).filled trivial
    rintro _ ⟨⟩
    exact ⟨hdraft.inStep, ih⟩
  | merged hdraft hobject hschema ih =>
    exact ih.merge hdraft.inStep ((hschema.filled (by simp [Task.start?]) _ rfl).filled hobject)

/-- A message that is declared has fields, and so has every message nested in it. -/
theorem Emitted.hasFields {draft : MessageDraft} (h : Emitted job facts draft) :
    Everywhere HasFields draft := by
  cases h with
  | component h hempty hcarried =>
    exact (h.filled (by simp [Task.start?]) _ rfl).everywhere hempty hcarried
  | body _ h hempty hcarried =>
    have hdraft := (h.filled (by simp [Task.start?]) _ rfl).everywhere hempty hcarried
    exact .intro hdraft.here fun _ hmem => hdraft.nested hmem
  | payload h hempty => exact h.filled.everywhere hempty

end

end Compile

end Protoscribe
