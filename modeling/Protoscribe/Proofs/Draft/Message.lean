import Protoscribe.Draft.Message
import Protoscribe.Proofs.Draft.Registry

/-!
# `Protoscribe.Proofs.Draft.Message`: what the operations on messages leave

A message only ever gets more: an operation keeps the name, the fields and the nested types that
there are, and what comes in is what was added. The lemmas say this for the single operations, for
loops of them, and for `merge`.

* `mem_fields_…`, `mem_messages_…`, `mem_enums_…`: where a member of the result comes from.
* `typeNames_subset_…`: nested types stay nested.
* `moveToFront` moves fields and does not touch anything else (`mem_fields_moveToFront`).

A message stores more than its members: a number with each field, and the names that are taken. That
the numbers are those of the places and the registries have the names of the members is the
invariant `InStep`, which every operation keeps.
-/

set_option autoImplicit false

namespace Protoscribe.MessageDraft

variable {draft other : MessageDraft}

/-- The names of the fields. -/
def fieldNames (draft : MessageDraft) : List String :=
  draft.fields.map (·.name)

/-- The names of the nested types. -/
def typeNames (draft : MessageDraft) : List String :=
  draft.messages.map (·.name) ++ draft.enums.map (·.name)

/-- What a message stores beside its members agrees with them: each field has the number of its
place, and the names that are taken are those of the fields and of the nested types. -/
structure InStep (draft : MessageDraft) : Prop where
  numbers : draft.numbered = renumber draft.fields
  fields : draft.takenFields.Registers draft.fieldNames
  types : draft.takenTypes.Registers draft.typeNames

/-- A name counts as taken by a field exactly when there is a field of this name. -/
theorem InStep.hasField_iff (h : InStep draft) {name : String} :
    draft.hasField name = true ↔ name ∈ draft.fieldNames :=
  h.fields name

/-- A name counts as taken by a nested type exactly when there is such a type. -/
theorem InStep.hasNestedType_iff (h : InStep draft) {name : String} :
    draft.hasNestedType name = true ↔ name ∈ draft.typeNames :=
  h.types name

/-- The registry of field names answers what a search through the fields would answer. -/
theorem InStep.hasField_eq (h : InStep draft) (name : String) :
    draft.hasField name = decide (name ∈ draft.fieldNames) :=
  Bool.eq_iff_iff.mpr (h.hasField_iff.trans decide_eq_true_iff.symm)

/-- The registry of type names answers what a search through the nested types would answer. -/
theorem InStep.hasNestedType_eq (h : InStep draft) (name : String) :
    draft.hasNestedType name = decide (name ∈ draft.typeNames) :=
  Bool.eq_iff_iff.mpr (h.hasNestedType_iff.trans decide_eq_true_iff.symm)

/-- A message in step is determined by its members and what stands above them: the numbers and the
registries follow. -/
theorem InStep.eq_of_members (h : InStep draft) (hother : InStep other)
    (hname : draft.name = other.name) (hcomment : draft.comment = other.comment)
    (hfields : draft.fields = other.fields) (hmessages : draft.messages = other.messages)
    (henums : draft.enums = other.enums) (honeofs : draft.oneofs = other.oneofs)
    (hwrapper : draft.wrapper = other.wrapper) : draft = other := by
  have hnumbered : draft.numbered = other.numbered := by rw [h.numbers, hother.numbers, hfields]
  have htakenFields : draft.takenFields = other.takenFields := by
    have hnames : draft.fieldNames = other.fieldNames := by rw [fieldNames, fieldNames, hfields]
    exact (hnames ▸ h.fields).unique hother.fields
  have htakenTypes : draft.takenTypes = other.takenTypes := by
    have hnames : draft.typeNames = other.typeNames := by
      rw [typeNames, typeNames, hmessages, henums]
    exact (hnames ▸ h.types).unique hother.types
  cases draft
  cases other
  simp_all only

/-- A message in which nothing is stored yet. -/
theorem InStep.of_nil (hnumbered : draft.numbered = []) (htypes : draft.typeNames = [])
    (hfields : draft.takenFields = .empty) (hnested : draft.takenTypes = .empty) :
    InStep draft := by
  have hnil : draft.fields = [] := by rw [MessageDraft.fields, hnumbered, List.map_nil]
  refine ⟨by rw [hnil, hnumbered]; rfl, ?_, ?_⟩
  · rw [hfields, fieldNames, hnil]
    exact Registry.registers_empty
  · rw [hnested, htypes]
    exact Registry.registers_empty

/-! ### Numbers -/

/-- Numbers do not change the fields that they are given to. -/
@[simp] theorem map_snd_renumber (fields : List FieldDraft) :
    (renumber fields).map (·.2) = fields :=
  List.ext_getElem (by simp [renumber]) fun place _ _ => by simp [renumber]

/-- The fields are those that the numbers are stored with. -/
@[simp] theorem fields_mk (name : String) (comment : Option String)
    (numbered : List (Int32 × FieldDraft)) (messages : List MessageDraft) (enums : List EnumDraft)
    (oneofs : List String) (takenFields takenTypes : Registry) (wrapper : Bool) :
    (MessageDraft.mk name comment numbered messages enums oneofs takenFields takenTypes
      wrapper).fields = numbered.map (·.2) :=
  rfl

/-- The stored numbers aside, the numbered fields are the fields. -/
@[simp] theorem map_snd_numbered (draft : MessageDraft) :
    draft.numbered.map (·.2) = draft.fields :=
  rfl

/-- There is one stored number for each field. -/
@[simp] theorem length_numbered (draft : MessageDraft) :
    draft.numbered.length = draft.fields.length := by
  rw [fields, List.length_map]

/-- A field at the end gets the next number, and the other numbers stay. -/
theorem renumber_concat (fields : List FieldDraft) (field : FieldDraft) :
    renumber (fields ++ [field]) = renumber fields ++ [(numberAt fields.length, field)] := by
  simp [renumber, List.mapIdx_concat]

/-! ### Fields -/

/-- A field that is added leaves the name as it is. -/
@[simp] theorem name_addField (draft : MessageDraft) (field : FieldDraft) :
    (draft.addField field).name = draft.name := by
  unfold addField
  split <;> rfl

/-- A field that is added leaves the nested messages as they are. -/
@[simp] theorem messages_addField (draft : MessageDraft) (field : FieldDraft) :
    (draft.addField field).messages = draft.messages := by
  unfold addField
  split <;> rfl

/-- A field that is added leaves the nested enums as they are. -/
@[simp] theorem enums_addField (draft : MessageDraft) (field : FieldDraft) :
    (draft.addField field).enums = draft.enums := by
  unfold addField
  split <;> rfl

/-- A field that is added leaves the oneof groups as they are. -/
@[simp] theorem oneofs_addField (draft : MessageDraft) (field : FieldDraft) :
    (draft.addField field).oneofs = draft.oneofs := by
  unfold addField
  split <;> rfl

/-- A field that is added leaves the names of nested types as they are. -/
@[simp] theorem typeNames_addField (draft : MessageDraft) (field : FieldDraft) :
    (draft.addField field).typeNames = draft.typeNames := by
  simp [typeNames]

/-- A field that is added takes no name of a type. -/
@[simp] theorem takenTypes_addField (draft : MessageDraft) (field : FieldDraft) :
    (draft.addField field).takenTypes = draft.takenTypes := by
  unfold addField
  split <;> rfl

/-- A field is taken when its name is free. -/
theorem fields_addField (draft : MessageDraft) (field : FieldDraft) :
    (draft.addField field).fields =
      draft.fields ++ [field].filter fun added => !draft.hasField added.name := by
  unfold addField
  split
  · next htaken => simp [htaken]
  · next hfree =>
    rw [fields, List.map_append, map_snd_numbered]
    simp [hfree]

/-- Adding a field brings no other field. -/
theorem mem_fields_addField {field added : FieldDraft}
    (h : field ∈ (draft.addField added).fields) : field ∈ draft.fields ∨ field = added := by
  rw [fields_addField] at h
  refine (List.mem_append.mp h).imp_right fun hadded => ?_
  exact List.mem_singleton.mp (List.mem_of_mem_filter hadded)

/-- The field that comes in gets the next number, and its name is taken. -/
theorem InStep.addField (h : InStep draft) (field : FieldDraft) :
    InStep (draft.addField field) := by
  by_cases htaken : draft.hasField field.name = true
  · rwa [MessageDraft.addField, if_pos htaken]
  · have hfields : (draft.addField field).fields = draft.fields ++ [field] := by
      simp [fields_addField, htaken]
    refine ⟨?_, ?_, ?_⟩
    · rw [hfields, renumber_concat, ← h.numbers, MessageDraft.addField, if_neg htaken,
        length_numbered]
    · rw [fieldNames, hfields, MessageDraft.addField, if_neg htaken]
      exact h.fields.take fun name => by simp [fieldNames]
    · simpa using h.types

/-! ### Nested types -/

/-- A message that is nested leaves the name as it is. -/
@[simp] theorem name_addMessage (draft nested : MessageDraft) :
    (draft.addMessage nested).name = draft.name := by
  unfold addMessage
  split <;> rfl

/-- A message that is nested leaves the fields as they are. -/
@[simp] theorem fields_addMessage (draft nested : MessageDraft) :
    (draft.addMessage nested).fields = draft.fields := by
  unfold addMessage
  split <;> rfl

/-- A message that is nested leaves the enums as they are. -/
@[simp] theorem enums_addMessage (draft nested : MessageDraft) :
    (draft.addMessage nested).enums = draft.enums := by
  unfold addMessage
  split <;> rfl

/-- A message that is nested leaves the oneof groups as they are. -/
@[simp] theorem oneofs_addMessage (draft nested : MessageDraft) :
    (draft.addMessage nested).oneofs = draft.oneofs := by
  unfold addMessage
  split <;> rfl

/-- A message that is nested leaves the stored numbers as they are. -/
@[simp] theorem numbered_addMessage (draft nested : MessageDraft) :
    (draft.addMessage nested).numbered = draft.numbered := by
  unfold addMessage
  split <;> rfl

/-- A message that is nested takes no name of a field. -/
@[simp] theorem takenFields_addMessage (draft nested : MessageDraft) :
    (draft.addMessage nested).takenFields = draft.takenFields := by
  unfold addMessage
  split <;> rfl

/-- An enum that is nested leaves the name as it is. -/
@[simp] theorem name_addEnum (draft : MessageDraft) (nested : EnumDraft) :
    (draft.addEnum nested).name = draft.name := by
  unfold addEnum
  split <;> rfl

/-- An enum that is nested leaves the fields as they are. -/
@[simp] theorem fields_addEnum (draft : MessageDraft) (nested : EnumDraft) :
    (draft.addEnum nested).fields = draft.fields := by
  unfold addEnum
  split <;> rfl

/-- An enum that is nested leaves the messages as they are. -/
@[simp] theorem messages_addEnum (draft : MessageDraft) (nested : EnumDraft) :
    (draft.addEnum nested).messages = draft.messages := by
  unfold addEnum
  split <;> rfl

/-- An enum that is nested leaves the oneof groups as they are. -/
@[simp] theorem oneofs_addEnum (draft : MessageDraft) (nested : EnumDraft) :
    (draft.addEnum nested).oneofs = draft.oneofs := by
  unfold addEnum
  split <;> rfl

/-- An enum that is nested leaves the stored numbers as they are. -/
@[simp] theorem numbered_addEnum (draft : MessageDraft) (nested : EnumDraft) :
    (draft.addEnum nested).numbered = draft.numbered := by
  unfold addEnum
  split <;> rfl

/-- An enum that is nested takes no name of a field. -/
@[simp] theorem takenFields_addEnum (draft : MessageDraft) (nested : EnumDraft) :
    (draft.addEnum nested).takenFields = draft.takenFields := by
  unfold addEnum
  split <;> rfl

/-- Nesting a message brings no other message. -/
theorem mem_messages_addMessage {nested added : MessageDraft}
    (h : nested ∈ (draft.addMessage added).messages) :
    nested ∈ draft.messages ∨ nested = added := by
  unfold addMessage at h
  split at h
  · exact .inl h
  · simpa using h

/-- Nesting an enum brings no other enum. -/
theorem mem_enums_addEnum {nested added : EnumDraft} (h : nested ∈ (draft.addEnum added).enums) :
    nested ∈ draft.enums ∨ nested = added := by
  unfold addEnum at h
  split at h
  · exact .inl h
  · simpa using h

/-- No name of a nested type is lost to a message. -/
theorem typeNames_subset_addMessage (draft nested : MessageDraft) :
    draft.typeNames ⊆ (draft.addMessage nested).typeNames := by
  unfold addMessage
  split
  · exact List.Subset.refl _
  · intro name hname
    simp only [typeNames, List.map_append, List.mem_append] at hname ⊢
    exact hname.imp_left .inl

/-- After a message is offered, its name is that of a nested type: its own, or one that was there
before it. -/
theorem InStep.mem_typeNames_addMessage (h : InStep draft) (nested : MessageDraft) :
    nested.name ∈ (draft.addMessage nested).typeNames := by
  unfold MessageDraft.addMessage
  split
  · next htaken => exact h.hasNestedType_iff.mp htaken
  · simp [typeNames]

/-- The name of a message that is nested is taken. -/
theorem InStep.addMessage (h : InStep draft) (nested : MessageDraft) :
    InStep (draft.addMessage nested) := by
  refine ⟨by simpa using h.numbers, by simpa [fieldNames] using h.fields, ?_⟩
  unfold MessageDraft.addMessage
  split
  · exact h.types
  · refine h.types.take fun name => ?_
    simp only [typeNames, List.map_append, List.mem_append, List.map_cons, List.map_nil,
      List.mem_singleton]
    exact or_right_comm

/-- No name of a nested type is lost to an enum. -/
theorem typeNames_subset_addEnum (draft : MessageDraft) (nested : EnumDraft) :
    draft.typeNames ⊆ (draft.addEnum nested).typeNames := by
  unfold addEnum
  split
  · exact List.Subset.refl _
  · intro name hname
    simp only [typeNames, List.map_append, List.mem_append] at hname ⊢
    exact hname.imp_right .inl

/-- An enum that is refused is refused for a type of its name, so the name is there in any case. -/
theorem InStep.mem_typeNames_addEnum (h : InStep draft) (nested : EnumDraft) :
    nested.name ∈ (draft.addEnum nested).typeNames := by
  unfold MessageDraft.addEnum
  split
  · next htaken => exact h.hasNestedType_iff.mp htaken
  · simp [typeNames]

/-- The name of an enum that is nested is taken. -/
theorem InStep.addEnum (h : InStep draft) (nested : EnumDraft) : InStep (draft.addEnum nested) := by
  refine ⟨by simpa using h.numbers, by simpa [fieldNames] using h.fields, ?_⟩
  unfold MessageDraft.addEnum
  split
  · exact h.types
  · refine h.types.take fun name => ?_
    simp only [typeNames, List.map_append, List.mem_append, List.map_cons, List.map_nil,
      List.mem_singleton]
    exact or_assoc.symm

/-! ### Loops -/

section loops

variable {α β : Type} {add : MessageDraft → α → MessageDraft}

/-- What each step of a loop leaves alone, the loop leaves alone. -/
theorem foldl_unchanged {part : MessageDraft → β}
    (hadd : ∀ draft item, part (add draft item) = part draft) (items : List α)
    (draft : MessageDraft) : part (items.foldl add draft) = part draft := by
  induction items generalizing draft with
  | nil => rfl
  | cons item rest ih => rw [List.foldl_cons, ih, hadd]

/-- What is there after a loop was there before, or it is one of the items. -/
theorem mem_or_mem_of_foldl {part : MessageDraft → List α}
    (hadd : ∀ {draft added item}, item ∈ part (add draft added) → item ∈ part draft ∨ item = added)
    {items : List α} {draft : MessageDraft} {item : α} (h : item ∈ part (items.foldl add draft)) :
    item ∈ part draft ∨ item ∈ items := by
  induction items generalizing draft with
  | nil => exact .inl h
  | cons added rest ih =>
    rcases ih h with h | h
    · rcases hadd h with h | rfl
      · exact .inl h
      · exact .inr (List.mem_cons_self ..)
    · exact .inr (List.mem_cons_of_mem _ h)

/-- No name of a nested type is lost to many additions, if it is not to one. -/
theorem typeNames_subset_foldl
    (hadd : ∀ draft item, draft.typeNames ⊆ (add draft item).typeNames) (items : List α)
    (draft : MessageDraft) : draft.typeNames ⊆ (items.foldl add draft).typeNames := by
  induction items generalizing draft with
  | nil => exact List.Subset.refl _
  | cons item rest ih => exact List.Subset.trans (hadd draft item) (ih _)

/-- What a message stores stays in step through a loop of operations that keep it so. -/
theorem InStep.foldl (hadd : ∀ {draft}, InStep draft → ∀ item, InStep (add draft item))
    (h : InStep draft) (items : List α) : InStep (items.foldl add draft) :=
  List.foldlRecOn items add h fun _ hdraft item _ => hadd hdraft item

/-- A loop that nests its items declares the names of all of them. -/
theorem InStep.mem_typeNames_foldl {name : α → String}
    (hkeep : ∀ {draft}, InStep draft → ∀ item, InStep (add draft item))
    (hadd : ∀ draft item, draft.typeNames ⊆ (add draft item).typeNames)
    (hname : ∀ {draft}, InStep draft → ∀ item, name item ∈ (add draft item).typeNames)
    {items : List α} (hdraft : InStep draft) {item : α} (h : item ∈ items) :
    name item ∈ (items.foldl add draft).typeNames := by
  induction items generalizing draft with
  | nil => simp at h
  | cons added rest ih =>
    rcases List.mem_cons.mp h with rfl | h
    · exact typeNames_subset_foldl hadd rest _ (hname hdraft item)
    · exact ih (hkeep hdraft added) h

end loops

/-- The message with the messages and then the enums of a list nested. -/
def nestAll (draft : MessageDraft) (messages : List MessageDraft) (enums : List EnumDraft) :
    MessageDraft :=
  enums.foldl addEnum (messages.foldl addMessage draft)

section nestAll

variable {messages : List MessageDraft} {enums : List EnumDraft}

/-- The types of another message leave the name as it is. -/
@[simp] theorem name_nestAll : (draft.nestAll messages enums).name = draft.name :=
  (foldl_unchanged name_addEnum enums _).trans (foldl_unchanged name_addMessage messages draft)

/-- The types of another message leave the fields as they are. -/
@[simp] theorem fields_nestAll : (draft.nestAll messages enums).fields = draft.fields :=
  (foldl_unchanged fields_addEnum enums _).trans (foldl_unchanged fields_addMessage messages draft)

/-- The types of another message take no name of a field. -/
@[simp] theorem takenFields_nestAll :
    (draft.nestAll messages enums).takenFields = draft.takenFields :=
  (foldl_unchanged takenFields_addEnum _ _).trans (foldl_unchanged takenFields_addMessage _ _)

/-- The types of another message leave the oneof groups as they are. -/
@[simp] theorem oneofs_nestAll : (draft.nestAll messages enums).oneofs = draft.oneofs :=
  (foldl_unchanged oneofs_addEnum enums _).trans (foldl_unchanged oneofs_addMessage messages draft)

/-- The nested messages come from either message. -/
theorem mem_messages_nestAll {nested : MessageDraft}
    (h : nested ∈ (draft.nestAll messages enums).messages) :
    nested ∈ draft.messages ∨ nested ∈ messages := by
  rw [nestAll, foldl_unchanged messages_addEnum] at h
  exact mem_or_mem_of_foldl mem_messages_addMessage h

/-- The nested enums come from either message. -/
theorem mem_enums_nestAll {nested : EnumDraft}
    (h : nested ∈ (draft.nestAll messages enums).enums) :
    nested ∈ draft.enums ∨ nested ∈ enums := by
  have henums := mem_or_mem_of_foldl mem_enums_addEnum h
  rwa [foldl_unchanged enums_addMessage] at henums

/-- No name of a nested type is lost to the types of another message. -/
theorem typeNames_subset_nestAll :
    draft.typeNames ⊆ (draft.nestAll messages enums).typeNames :=
  List.Subset.trans (typeNames_subset_foldl typeNames_subset_addMessage messages draft)
    (typeNames_subset_foldl typeNames_subset_addEnum enums _)

/-- Taking the types of another message keeps numbers and registries in step. -/
theorem InStep.nestAll (h : InStep draft) (messages : List MessageDraft) (enums : List EnumDraft) :
    InStep (draft.nestAll messages enums) :=
  (h.foldl InStep.addMessage messages).foldl InStep.addEnum enums

/-- The names of the types that were nested in another message are names of nested types in the one
that takes them. -/
theorem InStep.typeNames_subset_nestAll_of (h : InStep draft) (other : MessageDraft) :
    other.typeNames ⊆ (draft.nestAll other.messages other.enums).typeNames := by
  intro name hname
  rcases List.mem_append.mp hname with hname | hname
  · obtain ⟨nested, hnested, rfl⟩ := List.mem_map.mp hname
    refine typeNames_subset_foldl typeNames_subset_addEnum _ _ ?_
    exact h.mem_typeNames_foldl InStep.addMessage typeNames_subset_addMessage
      InStep.mem_typeNames_addMessage hnested
  · obtain ⟨nested, hnested, rfl⟩ := List.mem_map.mp hname
    exact (h.foldl InStep.addMessage other.messages).mem_typeNames_foldl InStep.addEnum
      typeNames_subset_addEnum InStep.mem_typeNames_addEnum hnested

end nestAll

/-! ### Merging -/

/-- A field whose oneof group goes behind the groups of a message. -/
def shift (draft : MessageDraft) (field : FieldDraft) : FieldDraft :=
  { field with oneof := field.oneof.map (· + draft.nextOneof) }

/-- A merge adds the shifted fields and then nests the types of the other message. -/
theorem merge_eq (draft other : MessageDraft) :
    draft.merge other =
      ((other.fields.map draft.shift).foldl addField
        { draft with oneofs := draft.oneofs ++ other.oneofs }).nestAll
          other.messages other.enums :=
  rfl

/-- A merged message keeps the name of the first one. -/
@[simp] theorem name_merge : (draft.merge other).name = draft.name := by
  rw [merge_eq, name_nestAll, foldl_unchanged name_addField]

/-- The groups of the second message come behind those of the first one. -/
@[simp] theorem oneofs_merge : (draft.merge other).oneofs = draft.oneofs ++ other.oneofs := by
  rw [merge_eq, oneofs_nestAll, foldl_unchanged oneofs_addField]

/-- A field of a merged message is one of the first message, or one of the second with its group
counted on. -/
theorem mem_fields_merge {field : FieldDraft} (h : field ∈ (draft.merge other).fields) :
    field ∈ draft.fields ∨ ∃ original ∈ other.fields, field = draft.shift original := by
  rw [merge_eq, fields_nestAll] at h
  rcases mem_or_mem_of_foldl mem_fields_addField h with h | h
  · exact .inl h
  · obtain ⟨original, horiginal, rfl⟩ := List.mem_map.mp h
    exact .inr ⟨original, horiginal, rfl⟩

/-- The messages nested in a merged one come from either message. -/
theorem mem_messages_merge {nested : MessageDraft} (h : nested ∈ (draft.merge other).messages) :
    nested ∈ draft.messages ∨ nested ∈ other.messages := by
  rw [merge_eq] at h
  rcases mem_messages_nestAll h with h | h
  · rw [foldl_unchanged messages_addField] at h
    exact .inl h
  · exact .inr h

/-- The enums nested in a merged message come from either message. -/
theorem mem_enums_merge {nested : EnumDraft} (h : nested ∈ (draft.merge other).enums) :
    nested ∈ draft.enums ∨ nested ∈ other.enums := by
  rw [merge_eq] at h
  rcases mem_enums_nestAll h with h | h
  · rw [foldl_unchanged enums_addField] at h
    exact .inl h
  · exact .inr h

/-- A merge loses no name of a type that is nested in the first message. -/
theorem typeNames_subset_merge_left : draft.typeNames ⊆ (draft.merge other).typeNames := by
  rw [merge_eq]
  refine List.Subset.trans ?_ typeNames_subset_nestAll
  rw [foldl_unchanged typeNames_addField]
  exact List.Subset.refl _

/-- The message that a merge nests the types of the other message in. -/
theorem InStep.withFields (h : InStep draft) (other : MessageDraft) :
    InStep ((other.fields.map draft.shift).foldl MessageDraft.addField
      { draft with oneofs := draft.oneofs ++ other.oneofs }) := by
  -- oneof groups have no number and no registry
  have hgrouped : InStep { draft with oneofs := draft.oneofs ++ other.oneofs } :=
    ⟨h.numbers, h.fields, h.types⟩
  exact hgrouped.foldl InStep.addField _

/-- A merge numbers the fields that it takes, and takes their names and those of the types. -/
theorem InStep.merge (h : InStep draft) (other : MessageDraft) : InStep (draft.merge other) :=
  (h.withFields other).nestAll _ _

/-- A merge loses no name of a type that is nested in the second message, although it may refuse the
type. -/
theorem InStep.typeNames_subset_merge_right (h : InStep draft) :
    other.typeNames ⊆ (draft.merge other).typeNames :=
  (h.withFields other).typeNames_subset_nestAll_of other

/-! ### The order of fields -/

/-- A field that is taken out leaves the others behind. -/
theorem perm_of_extractField {name : String} {fields rest : List FieldDraft} {field : FieldDraft}
    (h : extractField name fields = some (field, rest)) : fields.Perm (field :: rest) := by
  induction fields generalizing rest with
  | nil => simp [extractField] at h
  | cons first others ih =>
    unfold extractField at h
    split at h
    · cases h
      exact List.Perm.refl _
    · obtain ⟨⟨found, remaining⟩, hfound, heq⟩ := Option.map_eq_some_iff.mp h
      cases heq
      exact ((ih hfound).cons first).trans (List.Perm.swap ..)

/-- Another order has the same fields. -/
theorem perm_inOrder (order : List String) (fields : List FieldDraft) :
    (inOrder order fields).Perm fields := by
  induction order generalizing fields with
  | nil => exact List.Perm.refl _
  | cons name rest ih =>
    unfold inOrder
    cases hextract : extractField name fields with
    | none => exact ih fields
    | some found =>
      obtain ⟨field, others⟩ := found
      exact ((ih others).cons field).trans (perm_of_extractField hextract).symm

/-- Fields that move to the front are put in the order that is asked for. -/
@[simp] theorem fields_moveToFront (draft : MessageDraft) (order : List String) :
    (draft.moveToFront order).fields = inOrder order draft.fields :=
  map_snd_renumber _

/-- No field is lost or gained on the way to the front. -/
theorem mem_fields_moveToFront {order : List String} {field : FieldDraft} :
    field ∈ (draft.moveToFront order).fields ↔ field ∈ draft.fields := by
  rw [fields_moveToFront]
  exact (perm_inOrder order draft.fields).mem_iff

/-- Fields that are moved get the numbers of their new places. -/
theorem InStep.moveToFront (h : InStep draft) (order : List String) :
    InStep (draft.moveToFront order) where
  numbers := by
    rw [fields_moveToFront]
    rfl
  fields := by
    refine h.fields.of_mem_iff fun name => ?_
    rw [fieldNames, fieldNames, fields_moveToFront]
    exact ((perm_inOrder order draft.fields).map _).mem_iff
  types := h.types

/-! ### Carriers and wrappers -/

/-- A carrier holds its enum and nothing else. -/
theorem carriedEnum?_eq_some_iff {enum : EnumDraft} :
    draft.carriedEnum? = some enum ↔
      draft.fields = [] ∧ draft.messages = [] ∧ draft.enums = [enum] := by
  unfold carriedEnum?
  split
  · next only hfields hmessages henums =>
    simp [hfields, hmessages, henums]
  · next hother =>
    constructor
    · simp
    · rintro ⟨hfields, hmessages, henums⟩
      exact absurd henums (hother _ hfields hmessages)

/-- What is unwrapped is the only field and all nested types. -/
theorem unwrap?_eq_some {unwrapped : Unwrapped} (h : draft.unwrap? = some unwrapped) :
    draft.isWrapper = true ∧ draft.fields = [unwrapped.field] ∧
      unwrapped.messages = draft.messages ∧ unwrapped.enums = draft.enums := by
  unfold unwrap? at h
  split at h
  · next only hfields =>
    split at h
    · next hwrapper =>
      cases h
      exact ⟨hwrapper, hfields, rfl, rfl⟩
    · cases h
  · cases h

end Protoscribe.MessageDraft
