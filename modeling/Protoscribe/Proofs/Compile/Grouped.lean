import Protoscribe.Proofs.Compile.Everywhere

/-!
# `Protoscribe.Proofs.Compile.Grouped`: oneof groups of drafted messages

Only a union declares a oneof group, and all of its fields are in it; the messages of all other
schemas declare none, and their fields are in none. The two never come together (`Grouped`): what is
merged into a message comes from an object, and a field that is taken out of a wrapper leaves its
group behind. `Derives.grouped` follows the rules of a derivation, and `Emitted.everywhere_grouped`
says it for a declared message and all messages in it.

A nested message is reached through the task that it was compiled by (`NestsDerived`), since
messages that are merged are not just any two messages that are grouped.
-/

set_option autoImplicit false

namespace Protoscribe.Compile

open OpenApi (Schema SchemaNode)

/-- The oneof group that a slot puts its field in. -/
def Slot.group : Slot → Option Int32
  | .property _ _ _ => none
  | .item _ => none
  | .variant _ _ group => some group

/-- All fields of a message are in the group, which is that of a union, or no group at all. -/
structure Grouped (group : Option Int32) (draft : MessageDraft) : Prop where
  declared : group = none ∧ draft.oneofs = [] ∨
    group = some (Draft.position 0) ∧ ∃ text, draft.oneofs = [Identifier.fieldName text]
  members : ∀ field ∈ draft.fields, field.oneof = group
  single : group ≠ none → ∀ field ∈ draft.fields, field.repeated = false

namespace Grouped

variable {group : Option Int32} {draft other : MessageDraft}

/-- A message that has neither fields nor groups. -/
theorem of_nil (honeofs : draft.oneofs = []) (hfields : draft.fields = []) : Grouped none draft :=
  ⟨.inl ⟨rfl, honeofs⟩, by simp [hfields], by simp⟩

/-- A union starts with one group, and no fields in it yet. -/
theorem unionStart (name : String) (schema : Schema) :
    Grouped (some (Draft.position 0)) (Compile.unionStart name schema) :=
  ⟨.inr ⟨rfl, name, rfl⟩, by simp [Compile.unionStart, MessageDraft.addOneof],
    by simp [Compile.unionStart, MessageDraft.addOneof]⟩

/-- Only groups and fields count. -/
theorem of_same (h : Grouped group draft) (honeofs : other.oneofs = draft.oneofs)
    (hfields : other.fields = draft.fields) : Grouped group other :=
  ⟨honeofs ▸ h.declared, hfields ▸ h.members, hfields ▸ h.single⟩

/-- A field of the group joins it, if it is not repeated. -/
theorem addField (h : Grouped group draft) {field : FieldDraft} (hmember : field.oneof = group)
    (hsingle : group ≠ none → field.repeated = false) : Grouped group (draft.addField field) where
  declared := by simpa using h.declared
  members other hother := by
    rcases MessageDraft.mem_fields_addField hother with hmem | rfl
    · exact h.members other hmem
    · exact hmember
  single hgroup other hother := by
    rcases MessageDraft.mem_fields_addField hother with hmem | rfl
    · exact h.single hgroup other hmem
    · exact hsingle hgroup

/-- Where there are no groups, a merge brings none. -/
theorem merge (h : Grouped none draft) (hother : Grouped none other) :
    Grouped none (draft.merge other) where
  declared := by
    have hdraft : draft.oneofs = [] := by simpa using h.declared
    have hmerged : other.oneofs = [] := by simpa using hother.declared
    exact .inl ⟨rfl, by simp [hdraft, hmerged]⟩
  members field hfield := by
    rcases MessageDraft.mem_fields_merge hfield with hmem | ⟨original, horiginal, rfl⟩
    · exact h.members field hmem
    · simp [MessageDraft.shift, hother.members original horiginal]
  single hgroup := absurd rfl hgroup

/-- Another order leaves the groups as they are. -/
theorem moveToFront (h : Grouped group draft) (order : List String) :
    Grouped group (draft.moveToFront order) :=
  ⟨h.declared, fun field hfield => h.members field (MessageDraft.mem_fields_moveToFront.mp hfield),
    fun hgroup field hfield =>
      h.single hgroup field (MessageDraft.mem_fields_moveToFront.mp hfield)⟩

end Grouped

/-! ### Slots -/

section

variable {job : Job} {facts : Facts} {group : Option Int32} {slot : Slot}
  {parent child grown : MessageDraft} {field marked : FieldDraft}

/-- A slot puts its field into its group. -/
theorem Slot.oneof_set (slot : Slot) (description : Option String) (hfield : field.oneof = none) :
    (slot.set description field).oneof = slot.group := by
  cases slot <;> simp [Slot.set, Slot.group, hfield]

/-- Variants are not repeated. -/
theorem Slot.repeated_set (description : Option String) (hslot : slot.group ≠ none)
    (hfield : slot.allowsRepeated = false → field.repeated = false) :
    (slot.set description field).repeated = false := by
  cases slot with
  | property _ _ _ => exact absurd rfl hslot
  | item _ => exact absurd rfl hslot
  | variant _ _ _ => exact hfield rfl

/-- A field that refers to a type is in the group of its slot. -/
theorem Grouped.refer (h : Grouped slot.group parent) (result : ComponentType) :
    Grouped slot.group (slot.refer parent result) := by
  cases result with
  | message type =>
    exact h.addField (slot.oneof_set _ rfl) fun hslot => Slot.repeated_set _ hslot fun _ => rfl
  | enum type =>
    exact h.addField (slot.oneof_set _ rfl) fun hslot => Slot.repeated_set _ hslot fun _ => rfl
  | nothing => exact h

/-- A field for a child is in the group of its slot. -/
theorem Grouped.taken {schema : Schema} (h : Grouped slot.group parent)
    (htaken : TakenIn job facts parent (slot.fieldName child.name) child slot.allowsRepeated
      (grown, field))
    (hmarks : slot.Marks job facts schema field marked) :
    Grouped slot.group (grown.addField (slot.set schema.description marked)) := by
  obtain ⟨honeofs, hfields, -, hnone, hallowed⟩ := htaken.field_eq
  obtain ⟨-, hkept, hrepeated⟩ := hmarks.field_eq
  refine (h.of_same honeofs hfields).addField (slot.oneof_set _ (hkept.trans hnone)) fun hslot => ?_
  exact Slot.repeated_set _ hslot fun hnot => hrepeated.trans (hallowed hnot)

/-! ### Derivations -/

/-- The slots of a task put their fields in the group; what is absorbed has none. -/
def Task.Uses (group : Option Int32) : Task → Prop
  | .slot _ target _ => target.group = group
  | .slots _ targets => ∀ entry ∈ targets, entry.1.group = group
  | .absorb _ _ => group = none
  | .absorbAll _ _ => group = none
  | _ => True

/-- What a task leads to is grouped like its start. A schema may lead to either kind of message, but
an object does not lead to a union. -/
def Task.Groups (group : Option Int32) (draft : MessageDraft) : Task → Prop
  | .node _ _ => ∃ group, Grouped group draft
  | .schema _ content => ∃ group, Grouped group draft ∧ (content.isObject = true → group = none)
  | .shape _ content => ∃ group, Grouped group draft ∧ (content.isObject = true → group = none)
  | _ => Grouped group draft

/-- The variants of a union are in its one group. -/
theorem group_of_mem_variantSlots {name : String} {variants : List SchemaNode} :
    ∀ entry ∈ variantSlots name variants, entry.1.group = some (Draft.position 0) := by
  intro entry hentry
  obtain ⟨variant, -, rfl⟩ := List.mem_map.mp hentry
  rfl

/-- Properties are in no group. -/
theorem group_of_mem_propertySlots {properties : List (String × SchemaNode)}
    {required : List String} :
    ∀ entry ∈ propertySlots properties required, entry.1.group = none := by
  intro entry hentry
  obtain ⟨property, -, rfl⟩ := List.mem_map.mp hentry
  rfl

/-- Every derivation keeps the fields in their group, by induction on its rules. -/
theorem Derives.grouped {task : Task} {compiled : Option MessageDraft}
    (h : Derives job facts task compiled) (group : Option Int32) (huses : task.Uses group)
    (hstart : ∀ draft ∈ task.start?, Grouped group draft) :
    ∀ draft ∈ compiled, task.Groups group draft := by
  -- by the rules of the derivation, with the message that a task starts from as a premise
  induction h generalizing group with
  | inline _ ih =>
    intro draft hdraft
    obtain ⟨group, hgrouped, -⟩ := ih none trivial (by simp [Task.start?]) draft hdraft
    exact ⟨group, hgrouped⟩
  | expanded _ _ _ ih => exact ih none trivial (by simp [Task.start?])
  | unordered _ _ ih => exact ih none trivial (by simp [Task.start?])
  | ordered _ ih =>
    rintro _ ⟨⟩
    obtain ⟨group, hgrouped, hobject⟩ := ih none trivial (by simp [Task.start?]) _ rfl
    exact ⟨group, hgrouped.moveToFront _, hobject⟩
  | map hshape _ ih =>
    intro draft hdraft
    obtain ⟨group, hgrouped⟩ := ih none trivial (by simp [Task.start?]) draft hdraft
    exact ⟨group, hgrouped, by simp [Schema.isObject, hshape]⟩
  | enum _ hrun =>
    rintro _ ⟨⟩
    obtain ⟨⟨enum, -, rfl⟩, -⟩ := enumCarrier_eq_ok hrun
    exact ⟨none, .of_nil rfl rfl, fun _ => rfl⟩
  | union hshape _ ih =>
    intro draft hdraft
    have hgrouped := ih (some (Draft.position 0)) group_of_mem_variantSlots
      (by rintro _ ⟨⟩; exact .unionStart _ _) draft hdraft
    refine ⟨_, hgrouped, ?_⟩
    rcases hshape with hshape | hshape <;> simp [Schema.isObject, hshape]
  | combined _ _ _ ihmerged ih =>
    intro draft hdraft
    have hmerged := ihmerged none rfl (by rintro _ ⟨⟩; exact .of_nil rfl rfl) _ rfl
    have hgrouped := ih none group_of_mem_propertySlots
      (by rintro _ ⟨⟩; exact hmerged) draft hdraft
    exact ⟨none, hgrouped, fun _ => rfl⟩
  | scalar _ =>
    rintro _ ⟨⟩
    exact ⟨none, (Grouped.of_nil rfl rfl).addField rfl (by simp), fun _ => rfl⟩
  | bareList _ => simp
  | list _ _ ih =>
    intro draft hdraft
    have hgrouped := ih none rfl (by rintro _ ⟨⟩; exact .of_nil rfl rfl) draft hdraft
    exact ⟨none, hgrouped, fun _ => rfl⟩
  | object _ _ ih =>
    intro draft hdraft
    have hgrouped := ih none group_of_mem_propertySlots
      (by rintro _ ⟨⟩; exact .of_nil rfl rfl) draft hdraft
    exact ⟨none, hgrouped, fun _ => rfl⟩
  | any _ => simp
  | slotsCons _ _ ihfirst ih =>
    obtain ⟨hfirst, hrest⟩ := List.forall_mem_cons.mp huses
    refine ih _ hrest ?_
    rintro _ ⟨⟩
    exact ihfirst _ hfirst hstart _ rfl
  | absorbCons _ _ ihfirst ih =>
    refine ih _ huses ?_
    rintro _ ⟨⟩
    exact ihfirst _ huses hstart _ rfl
  | @reference parent slot _ result _ =>
    rintro _ ⟨⟩
    cases (huses : slot.group = group)
    exact (hstart _ rfl).refer result
  | @taken _ _ _ slot _ _ _ _ htaken hmarks _ _ =>
    rintro _ ⟨⟩
    cases (huses : slot.group = group)
    exact (hstart _ rfl).taken htaken hmarks
  | absorbReference _ _ _ ih => exact ih _ huses hstart
  | slotsNil
  | skipped
  | absorbNil
  | ignored
  | absorbNothing =>
    -- the message is the one that the task starts from
    rintro _ ⟨⟩
    exact hstart _ rfl
  | merged hobject _ ih =>
    rintro _ ⟨⟩
    cases (huses : group = none)
    obtain ⟨group, hgrouped, hnone⟩ := ih none trivial (by simp [Task.start?]) _ rfl
    cases hnone hobject
    exact (hstart _ rfl).merge hgrouped

/-! ### Nested messages -/

/-- Every message that is nested in the message has been compiled from a schema, and may have been
renamed. -/
def NestsDerived (job : Job) (facts : Facts) (draft : MessageDraft) : Prop :=
  ∀ nested ∈ draft.messages, ∃ hint schema child name,
    Derives job facts (.schema hint schema) (some child) ∧ nested = { child with name }

/-- Every step that puts a message together nests what has been compiled. -/
theorem nestsDerived_stable (job : Job) (facts : Facts) :
    Stable job facts (NestsDerived job facts) where
  fresh _ _ _ := by simp [NestsDerived]
  union _ _ := by simp [NestsDerived, Compile.unionStart, MessageDraft.addOneof]
  scalar _ _ _ _ := by simp [NestsDerived, scalarWrapper]
  enum _ _ _ _ _ _ hrun := by
    obtain ⟨⟨enum, -, rfl⟩, -⟩ := enumCarrier_eq_ok hrun
    simp [NestsDerived]
  refer parent slot _ result _ _ hparent := by
    cases result with
    | message type => simpa [NestsDerived, Slot.refer] using hparent
    | enum type => simpa [NestsDerived, Slot.refer] using hparent
    | nothing => exact hparent
  taken parent child grown slot schema field marked hderives _ htaken _ _ _ hparent hchild := by
    intro nested hnested
    rw [MessageDraft.messages_addField] at hnested
    -- a nested message was there before, was one of an unwrapped child, or is the child itself
    cases htaken with
    | enum _ _ =>
      rw [MessageDraft.messages_addEnum] at hnested
      exact hparent nested hnested
    | enumComponent _ _ => exact hparent nested hnested
    | unwrapped _ _ hunwrap =>
      obtain ⟨-, -, hmessages, -⟩ := MessageDraft.unwrap?_eq_some hunwrap
      rcases MessageDraft.mem_messages_nestAll hnested with hmem | hmem
      · exact hparent nested hmem
      · exact hchild nested (hmessages ▸ hmem)
    | message _ _ =>
      rcases MessageDraft.mem_messages_addMessage hnested with hmem | rfl
      · exact hparent nested hmem
      · exact ⟨_, _, child, _, hderives, rfl⟩
    | component _ _ => exact hparent nested hnested
  renamed _ _ _ _ hchild := hchild
  merge _ _ _ _ hdraft hother nested hnested := by
    rcases MessageDraft.mem_messages_merge hnested with hmem | hmem
    · exact hdraft nested hmem
    · exact hother nested hmem
  moveToFront _ _ hdraft := hdraft
  comment _ _ hdraft := hdraft
  payload _ _ _ _ := by simp [NestsDerived]

/-- What holds for a message and for all messages that are nested somewhere in it. -/
theorem Everywhere.of_nested {P Q : MessageDraft → Prop} {draft : MessageDraft}
    (hQ : ∀ {draft}, Q draft → ∀ nested ∈ draft.messages, P nested) (h : Everywhere Q draft)
    (hdraft : P draft) : Everywhere P draft := by
  induction h with
  | intro here _ ih => exact .intro hdraft fun nested hmem => ih nested hmem (hQ here nested hmem)

/-! ### Files -/

/-- Requests and responses are put together from properties and objects. -/
theorem Payload.grouped {draft : MessageDraft} (h : Payload job facts draft) :
    Grouped none draft := by
  induction h with
  | start _ => exact .of_nil rfl rfl
  | described _ _ ih => exact ih.of_same rfl rfl
  | member _ hslot ih =>
    refine hslot.grouped none rfl ?_ _ rfl
    rintro _ ⟨⟩
    exact ih
  | merged _ hobject hschema ih =>
    obtain ⟨group, hgrouped, hnone⟩ :=
      hschema.grouped none trivial (by simp [Task.start?]) _ rfl
    cases hnone hobject
    exact ih.merge hgrouped

/-- A message that is declared is that of a union, or it has no groups. -/
theorem Emitted.grouped {draft : MessageDraft} (h : Emitted job facts draft) :
    ∃ group, Grouped group draft := by
  cases h with
  | component h _ _ => exact h.grouped none trivial (by simp [Task.start?]) _ rfl
  | body _ h _ _ =>
    obtain ⟨group, hgrouped, -⟩ :=
      h.grouped none trivial (by simp [Task.start?]) _ rfl
    exact ⟨group, hgrouped.of_same rfl rfl⟩
  | payload h _ => exact ⟨none, h.grouped⟩

/-- Every message of the file is grouped, and so are those nested in it. -/
theorem Emitted.everywhere_grouped {draft : MessageDraft} (h : Emitted job facts draft) :
    Everywhere (fun draft => ∃ group, Grouped group draft) draft := by
  refine (h.everywhere (nestsDerived_stable job facts)).of_nested ?_ h.grouped
  intro draft hdraft nested hnested
  obtain ⟨hint, schema, child, name, hderives, rfl⟩ := hdraft nested hnested
  obtain ⟨group, hgrouped, -⟩ :=
    hderives.grouped none trivial (by simp [Task.start?]) _ rfl
  exact ⟨group, hgrouped.of_same rfl rfl⟩

end

end Protoscribe.Compile
