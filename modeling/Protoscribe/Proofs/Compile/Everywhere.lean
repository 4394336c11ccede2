import Protoscribe.Proofs.Compile.InStep

/-!
# `Protoscribe.Proofs.Compile.Everywhere`: properties of all messages at once

A property of single messages holds everywhere in a file when the steps that put messages together
keep it (`Stable`). The steps start from messages whose numbers and registries are in step with
their members, and they leave them so (`inStep_stable`). `Derives.everywhere` is the induction over
derivations, done once: what is derived has the property, and so has every message nested in it.
`Outcome.everywhere` says the same about the messages of a file that has been compiled.
-/

set_option autoImplicit false

namespace Protoscribe.Compile

open OpenApi (Schema SchemaNode Verb)

/-- A message and all messages nested in it have a property. -/
inductive Everywhere (P : MessageDraft → Prop) : MessageDraft → Prop
  | intro {draft : MessageDraft} (here : P draft)
      (nested : ∀ message ∈ draft.messages, Everywhere P message) : Everywhere P draft

namespace Everywhere

variable {P : MessageDraft → Prop} {draft : MessageDraft}

/-- What holds everywhere holds of the message itself. -/
theorem here (h : Everywhere P draft) : P draft := by
  cases h with
  | intro here _ => exact here

/-- What holds everywhere holds everywhere in a nested message. -/
theorem nested (h : Everywhere P draft) {message : MessageDraft}
    (hmessage : message ∈ draft.messages) : Everywhere P message := by
  cases h with
  | intro _ nested => exact nested message hmessage

/-- A message without nested messages. -/
theorem of_messages_eq_nil (here : P draft) (hmessages : draft.messages = []) :
    Everywhere P draft :=
  .intro here (by simp [hmessages])

end Everywhere

/-- The steps that put a message together keep a property of messages that are in step with their
members. -/
structure Stable (job : Job) (facts : Facts) (P : MessageDraft → Prop) : Prop where
  /-- The messages that objects and lists start from. -/
  fresh : ∀ text comment wrapper, P { name := job.messageName text, comment, wrapper }
  /-- The message that a union starts from. -/
  union : ∀ text schema, P (unionStart (job.messageName text) schema)
  scalar : ∀ text (schema : Schema) type, scalarType? schema.shape = some type →
    P (scalarWrapper (job.messageName text) schema type)
  enum : ∀ text schema literals draft s s',
    enumCarrier job (job.messageName text) schema literals s = .ok draft s' → P draft
  refer : ∀ parent (slot : Slot) reference result, facts.Names job reference result →
    parent.InStep → P parent → P (slot.refer parent result)
  /-- The message that takes an inline schema in. -/
  taken : ∀ parent child grown (slot : Slot) schema field marked,
    Derives job facts (.schema (slot.hint job schema) schema) (some child) →
    child.isEmpty = false →
    TakenIn job facts parent (slot.fieldName child.name) child slot.allowsRepeated
      (grown, field) →
    slot.Marks job facts schema field marked → parent.InStep → child.InStep → P parent → P child →
    P (grown.addField (slot.set schema.description marked))
  /-- The message that is taken in, when it is nested. -/
  renamed : ∀ parent child name, NestedAs job facts parent child.name false (some name) →
    P child → P { child with name }
  merge : ∀ draft other, draft.InStep → other.InStep → P draft → P other →
    P (draft.merge other)
  moveToFront : ∀ draft order, P draft → P (draft.moveToFront order)
  comment : ∀ draft comment, P draft → P { draft with comment }
  /-- The messages that requests and responses start from. -/
  payload : ∀ path verb suffix, suffix = "Request" ∨ suffix = "Response" →
    P { name := job.methodName path verb ++ suffix }

/-! ### Slots -/

/-- A slot names its field after some text. -/
theorem Slot.exists_fieldName (slot : Slot) (type : String) :
    ∃ text, slot.fieldName type = Identifier.fieldName text := by
  cases slot <;> exact ⟨_, rfl⟩

/-- A slot changes nothing about the name of its field. -/
theorem Slot.name_set (slot : Slot) (description : Option String) (field : FieldDraft) :
    (slot.set description field).name = field.name := by
  cases slot <;> rfl

/-- A reference to a component adds one field or nothing. -/
theorem Slot.refer_cases (slot : Slot) (parent : MessageDraft) (result : ComponentType) :
    slot.refer parent result = parent ∨
      ∃ type field, (result = .message type ∨ result = .enum type) ∧
        field.name = slot.fieldName type ∧ slot.refer parent result = parent.addField field := by
  cases result with
  | message type => exact .inr ⟨type, _, .inl rfl, slot.name_set _ _, rfl⟩
  | enum type => exact .inr ⟨type, _, .inr rfl, slot.name_set _ _, rfl⟩
  | nothing => exact .inl rfl

section

variable {job : Job} {facts : Facts}

/-- The mark for presence touches neither the name of a field nor its group. -/
theorem Slot.Marks.field_eq {slot : Slot} {schema : Schema} {field marked : FieldDraft}
    (h : slot.Marks job facts schema field marked) :
    marked.name = field.name ∧ marked.oneof = field.oneof ∧ marked.repeated = field.repeated := by
  cases slot with
  | property name required comment =>
    have h : Presence job facts schema required field marked := h
    cases h <;> exact ⟨rfl, rfl, rfl⟩
  | item list =>
    cases (h : marked = field)
    exact ⟨rfl, rfl, rfl⟩
  | variant union index group =>
    cases (h : marked = field)
    exact ⟨rfl, rfl, rfl⟩

/-- What is taken in brings types and no fields. The field for it has the name that it is given and
is in no group, and it is repeated only where that is allowed. -/
theorem TakenIn.field_eq {parent child grown : MessageDraft} {fieldName : String}
    {allowRepeated : Bool} {field : FieldDraft}
    (h : TakenIn job facts parent fieldName child allowRepeated (grown, field)) :
    grown.oneofs = parent.oneofs ∧ grown.fields = parent.fields ∧ field.name = fieldName ∧
      field.oneof = none ∧ (allowRepeated = false → field.repeated = false) := by
  cases h with
  | enum _ _ => exact ⟨by simp, by simp, rfl, rfl, fun _ => rfl⟩
  | enumComponent _ _ => exact ⟨rfl, rfl, rfl, rfl, fun _ => rfl⟩
  | @unwrapped unwrapped _ hrepeated hunwrap =>
    obtain ⟨-, hfields, -, -⟩ := MessageDraft.unwrap?_eq_some hunwrap
    refine ⟨MessageDraft.oneofs_nestAll, MessageDraft.fields_nestAll, rfl, rfl, fun hnot => ?_⟩
    have hnone := hrepeated.resolve_left (by simp [hnot])
    simpa [hfields, FieldDraft.rename] using hnone
  | message _ _ => exact ⟨by simp, by simp, rfl, rfl, fun _ => rfl⟩
  | component _ _ => exact ⟨rfl, rfl, rfl, rfl, fun _ => rfl⟩

end

/-- The steps keep messages in step with their members. -/
theorem inStep_stable (job : Job) (facts : Facts) : Stable job facts MessageDraft.InStep where
  fresh _ _ _ := inStep_fresh _ _ _
  union _ _ := unionStart_inStep _ _
  scalar _ _ _ _ := scalarWrapper_inStep _ _ _
  enum _ _ _ _ _ _ hrun := enumCarrier_inStep hrun
  refer _ slot _ result _ _ hparent := slot.refer_inStep hparent result
  taken _ _ _ _ _ _ _ _ _ htaken _ _ _ hparent _ := (htaken.inStep hparent).addField _
  renamed _ _ _ _ hchild := ⟨hchild.numbers, hchild.fields, hchild.types⟩
  merge _ other _ _ hdraft _ := hdraft.merge other
  moveToFront _ order hdraft := hdraft.moveToFront order
  comment _ _ hdraft := ⟨hdraft.numbers, hdraft.fields, hdraft.types⟩
  payload _ _ _ _ := inStep_fresh _ _ _

section

variable {job : Job} {facts : Facts} {P : MessageDraft → Prop}

/-! ### Nested messages -/

/-- A field that refers to a type touches no nested message. -/
theorem Everywhere.refer {parent : MessageDraft} {slot : Slot} {result : ComponentType}
    (here : P (slot.refer parent result)) (h : Everywhere P parent) :
    Everywhere P (slot.refer parent result) := by
  refine .intro here fun message hmessage => ?_
  have hmem : message ∈ parent.messages := by
    cases result <;> simpa [Slot.refer] using hmessage
  exact h.nested hmem

/-- The messages nested in a merged one are those of both. -/
theorem Everywhere.merge {draft other : MessageDraft} (here : P (draft.merge other))
    (h : Everywhere P draft) (hother : Everywhere P other) : Everywhere P (draft.merge other) := by
  refine .intro here fun message hmessage => ?_
  rcases MessageDraft.mem_messages_merge hmessage with hmem | hmem
  · exact h.nested hmem
  · exact hother.nested hmem

/-- Another order of the fields touches no nested message. -/
theorem Everywhere.moveToFront {draft : MessageDraft} {order : List String}
    (here : P (draft.moveToFront order)) (h : Everywhere P draft) :
    Everywhere P (draft.moveToFront order) :=
  .intro here fun _ hmessage => h.nested hmessage

/-- A comment touches no nested message. -/
theorem Everywhere.comment {draft : MessageDraft} {comment : Option String}
    (here : P { draft with comment }) (h : Everywhere P draft) :
    Everywhere P { draft with comment } :=
  .intro here fun _ hmessage => h.nested hmessage

/-- A message that is taken in brings nested messages along: itself, or those of a wrapper. -/
theorem Everywhere.taken {parent child grown : MessageDraft} {fieldName : String}
    {allowRepeated : Bool} {field added : FieldDraft} (here : P (grown.addField added))
    (hrenamed : ∀ name, NestedAs job facts parent child.name false (some name) →
      P { child with name })
    (htaken : TakenIn job facts parent fieldName child allowRepeated (grown, field))
    (h : Everywhere P parent) (hnested : Everywhere P child) :
    Everywhere P (grown.addField added) := by
  refine .intro here fun message hmessage => ?_
  rw [MessageDraft.messages_addField] at hmessage
  -- the message of the child counts under its new name, those of a wrapper as they are
  cases htaken with
  | enum _ _ =>
    rw [MessageDraft.messages_addEnum] at hmessage
    exact h.nested hmessage
  | enumComponent _ _ => exact h.nested hmessage
  | unwrapped _ _ hunwrap =>
    obtain ⟨-, -, hmessages, -⟩ := MessageDraft.unwrap?_eq_some hunwrap
    rcases MessageDraft.mem_messages_nestAll hmessage with hmem | hmem
    · exact h.nested hmem
    · exact hnested.nested (hmessages ▸ hmem)
  | message _ hname =>
    rcases MessageDraft.mem_messages_addMessage hmessage with hmem | rfl
    · exact h.nested hmem
    · exact .intro (hrenamed _ hname) fun _ hmem => hnested.nested hmem
  | component _ _ => exact h.nested hmessage

/-! ### Derivations -/

/-- The name in a task to compile a shape has been normalized. -/
def Task.Normalized (job : Job) : Task → Prop
  | .shape name _ => ∃ text, name = job.messageName text
  | _ => True

/-- What is derived from messages with a stable property has the property everywhere. -/
theorem Derives.everywhere (hP : Stable job facts P) {task : Task}
    {compiled : Option MessageDraft} (h : Derives job facts task compiled)
    (hname : task.Normalized job)
    (hstart : ∀ draft ∈ task.start?, draft.InStep ∧ Everywhere P draft) :
    ∀ draft ∈ compiled, Everywhere P draft := by
  -- by the rules of the derivation, with the messages that a task starts from as a premise
  induction h with
  | inline _ ih => exact ih trivial hstart
  | expanded _ _ _ ih => exact ih trivial hstart
  | unordered _ _ ih => exact ih ⟨_, rfl⟩ (by simp [Task.start?])
  | ordered _ ih =>
    rintro _ ⟨⟩
    have hdraft := ih ⟨_, rfl⟩ (by simp [Task.start?]) _ rfl
    exact hdraft.moveToFront (hP.moveToFront _ _ hdraft.here)
  | map _ _ ih => exact ih trivial (by simp [Task.start?])
  | enum _ hrun =>
    obtain ⟨text, rfl⟩ := hname
    rintro _ ⟨⟩
    refine .of_messages_eq_nil (hP.enum _ _ _ _ _ _ hrun) ?_
    obtain ⟨⟨enum, -, rfl⟩, -⟩ := enumCarrier_eq_ok hrun
    rfl
  | union _ _ ih =>
    obtain ⟨text, rfl⟩ := hname
    refine ih trivial ?_
    rintro _ ⟨⟩
    exact ⟨unionStart_inStep _ _, .of_messages_eq_nil (hP.union text _) rfl⟩
  | combined _ hmerged _ ihmerged ih =>
    obtain ⟨text, rfl⟩ := hname
    have hfresh := inStep_fresh (job.messageName text)
    refine ih trivial ?_
    rintro _ ⟨⟩
    refine ⟨hmerged.inStep (.of_some rfl (hfresh _ _)) _ rfl, ihmerged trivial ?_ _ rfl⟩
    rintro _ ⟨⟩
    exact ⟨hfresh _ _, .of_messages_eq_nil (hP.fresh text _ _) rfl⟩
  | scalar hshape =>
    obtain ⟨text, rfl⟩ := hname
    rintro _ ⟨⟩
    exact .of_messages_eq_nil (hP.scalar text _ _ hshape) (by simp [scalarWrapper])
  | bareList _ => simp
  | list _ _ ih
  | object _ _ ih =>
    obtain ⟨text, rfl⟩ := hname
    refine ih trivial ?_
    rintro _ ⟨⟩
    exact ⟨inStep_fresh _ _ _, .of_messages_eq_nil (hP.fresh text _ _) rfl⟩
  | any _ => simp
  | slotsCons hfirst _ ihfirst ih
  | absorbCons hfirst _ ihfirst ih =>
    refine ih trivial ?_
    rintro _ ⟨⟩
    exact ⟨hfirst.inStep (fun draft hdraft => (hstart draft hdraft).1) _ rfl,
      ihfirst trivial hstart _ rfl⟩
  | reference hnames =>
    rintro _ ⟨⟩
    obtain ⟨hstep, hparent⟩ := hstart _ rfl
    exact hparent.refer (hP.refer _ _ _ _ hnames hstep hparent.here)
  | taken hchild htaken hmarks hderives ih =>
    rintro _ ⟨⟩
    obtain ⟨hstep, hparent⟩ := hstart _ rfl
    have hnested := ih trivial (by simp [Task.start?]) _ rfl
    have here := hP.taken _ _ _ _ _ _ _ hderives hchild htaken hmarks hstep
      (hderives.inStep_of_none rfl) hparent.here hnested.here
    exact hparent.taken here (fun _ hname => hP.renamed _ _ _ hname hnested.here) htaken hnested
  | absorbReference _ _ _ ih => exact ih trivial hstart
  | slotsNil
  | skipped
  | absorbNil
  | ignored
  | absorbNothing =>
    -- the message is the one that the task starts from
    rintro _ ⟨⟩
    exact (hstart _ rfl).2
  | merged _ hderives ih =>
    rintro _ ⟨⟩
    obtain ⟨hstep, hdraft⟩ := hstart _ rfl
    have hother := ih trivial (by simp [Task.start?]) _ rfl
    have here := hP.merge _ _ hstep (hderives.inStep_of_none rfl) hdraft.here hother.here
    exact hdraft.merge here hother

/-! ### Files -/

/-- Requests and responses have every stable property everywhere. -/
theorem Payload.everywhere (hP : Stable job facts P) {draft : MessageDraft}
    (h : Payload job facts draft) : Everywhere P draft := by
  -- by the way the message was put together
  induction h with
  | start hsuffix => exact .of_messages_eq_nil (hP.payload _ _ _ hsuffix) rfl
  | described _ _ ih => exact ih.comment (hP.comment _ _ ih.here)
  | member hdraft hslot ih =>
    refine hslot.everywhere hP trivial ?_ _ rfl
    rintro _ ⟨⟩
    exact ⟨hdraft.inStep, ih⟩
  | merged hdraft _ hschema ih =>
    have hother := hschema.everywhere hP trivial (by simp [Task.start?]) _ rfl
    exact ih.merge
      (hP.merge _ _ hdraft.inStep (hschema.inStep_of_none rfl) ih.here hother.here) hother

/-- Whatever a file declares has every stable property everywhere. -/
theorem Emitted.everywhere (hP : Stable job facts P) {draft : MessageDraft}
    (h : Emitted job facts draft) : Everywhere P draft := by
  cases h with
  | component h _ _ => exact h.everywhere hP trivial (by simp [Task.start?]) _ rfl
  | body _ h _ _ =>
    have hdraft := h.everywhere hP trivial (by simp [Task.start?]) _ rfl
    exact hdraft.comment (hP.comment _ _ hdraft.here)
  | payload h _ => exact h.everywhere hP

end

/-- The messages that were drafted for a file have every stable property. -/
theorem Outcome.everywhere {job : Job} {s : State} {P : MessageDraft → Prop} (h : Outcome job s)
    (hP : Stable job s.facts P) {draft : MessageDraft}
    (hdraft : .drafted draft ∈ s.file.messages) : Everywhere P draft :=
  (h.justified.messages draft hdraft).everywhere hP

end Protoscribe.Compile
