import Protoscribe.Proofs.Compile.Linked

/-!
# `Protoscribe.Proofs.Compile.Marked`: which fields have a mark for presence

A scalar that may be missing has a mark on its field: the label for that, or a type that holds the
scalar. The mark is made where a member is accepted, and fields travel on from there: into other
messages with a merge, to the front, or out of a wrapper. `WellMarked` says that a field has no
mark, or a mark of the kind that the job asks for, on a single field in no group (`Marked`). Fields
of wrappers never have a mark, so what is taken out of one can be marked once at most.

`Derives.wellMarked` follows the rules of a derivation in which only the item of a list fills a
wrapper (`Task.Proper`), and `Sourced.wellMarked` says it for all messages of a file.
-/

set_option autoImplicit false

namespace Protoscribe

namespace MessageDraft

variable {draft other : MessageDraft} {messages : List MessageDraft} {enums : List EnumDraft}

/-- A field changes nothing about what is wrapped. -/
@[simp] theorem wrapper_addField (draft : MessageDraft) (field : FieldDraft) :
    (draft.addField field).wrapper = draft.wrapper := by
  unfold addField
  split <;> rfl

/-- A nested message changes nothing about what is wrapped. -/
@[simp] theorem wrapper_addMessage (draft nested : MessageDraft) :
    (draft.addMessage nested).wrapper = draft.wrapper := by
  unfold addMessage
  split <;> rfl

/-- A nested enum changes nothing about what is wrapped. -/
@[simp] theorem wrapper_addEnum (draft : MessageDraft) (nested : EnumDraft) :
    (draft.addEnum nested).wrapper = draft.wrapper := by
  unfold addEnum
  split <;> rfl

/-- Nested types change nothing about what is wrapped. -/
@[simp] theorem wrapper_nestAll : (draft.nestAll messages enums).wrapper = draft.wrapper :=
  (foldl_unchanged wrapper_addEnum enums _).trans
    (foldl_unchanged wrapper_addMessage messages draft)

/-- A merged message wraps what the first one does. -/
@[simp] theorem wrapper_merge : (draft.merge other).wrapper = draft.wrapper := by
  rw [merge_eq, wrapper_nestAll, foldl_unchanged wrapper_addField]

/-- A field in no group stays as it is in a merge. -/
theorem shift_eq_self (draft : MessageDraft) {field : FieldDraft} (h : field.oneof = none) :
    draft.shift field = field := by
  cases field
  cases h
  rfl

end MessageDraft

namespace Compile

open OpenApi (Endpoint Referable Schema SchemaNode)

/-! ### Marks -/

/-- The type that is named holds a scalar. -/
def HoldsScalar (typeName : Option String) : Prop :=
  ∃ type holder, holder? type = some holder ∧ typeName = some holder

/-- A field has no mark for presence. -/
structure Unmarked (field : FieldDraft) : Prop where
  optional : field.optional = false
  type : ¬ HoldsScalar field.typeName

/-- A field has a mark for presence of the kind that the job asks for. It is a single one, and in no
group. -/
structure Marked (job : Job) (field : FieldDraft) : Prop where
  single : field.repeated = false
  ungrouped : field.oneof = none
  labelled : field.optional = true → job.config.wrapPrimitives = false
  held : HoldsScalar field.typeName → job.config.wrapPrimitives = true

/-- Every field of a message is marked or has no mark, and in a wrapper it has none. -/
def WellMarked (job : Job) (draft : MessageDraft) : Prop :=
  ∀ field ∈ draft.fields, Unmarked field ∨ draft.wrapper = false ∧ Marked job field

/-- Plain names are those of types of the file, and no such type holds a scalar. -/
theorem not_holdsScalar_of_plain {name : String} (h : Plain name) : ¬ HoldsScalar (some name) := by
  rintro ⟨type, holder, hholder, heq⟩
  cases heq
  exact not_plain_of_mem_wellKnownNames name (holder?_mem_wellKnownNames hholder) h

/-- A field of a type of the file has no mark yet. -/
theorem Unmarked.named {name typeName : String} {type : FieldType} (h : Plain typeName) :
    Unmarked { name, type, typeName := some typeName } :=
  ⟨rfl, not_holdsScalar_of_plain h⟩

/-- What a slot sets on its field is no mark. -/
theorem Unmarked.set {field : FieldDraft} (h : Unmarked field) (slot : Slot)
    (description : Option String) : Unmarked (slot.set description field) := by
  cases slot <;> exact ⟨h.optional, h.type⟩

section

variable {job : Job} {facts : Facts} {draft other parent child grown : MessageDraft}
  {field marked : FieldDraft}

namespace WellMarked

/-- There is nothing to mark in a message without fields. -/
theorem of_nil (hfields : draft.fields = []) : WellMarked job draft := by
  simp [WellMarked, hfields]

/-- Only the fields count, and whether the message is a wrapper. -/
theorem of_same (h : WellMarked job draft) (hwrapper : other.wrapper = draft.wrapper)
    (hfields : other.fields = draft.fields) : WellMarked job other := by
  rw [WellMarked, hwrapper, hfields]
  exact h

/-- A field that comes in needs a mark of the right kind, or none. -/
theorem addField (h : WellMarked job draft)
    (hfield : Unmarked field ∨ draft.wrapper = false ∧ Marked job field) :
    WellMarked job (draft.addField field) := by
  intro added hadded
  rw [MessageDraft.wrapper_addField]
  rcases MessageDraft.mem_fields_addField hadded with hmem | rfl
  · exact h added hmem
  · exact hfield

/-- A merge does not touch marked fields, since these are in no group. -/
theorem merge (h : WellMarked job draft) (hother : WellMarked job other)
    (hwrapper : draft.wrapper = false) : WellMarked job (draft.merge other) := by
  intro field hfield
  rw [MessageDraft.wrapper_merge]
  rcases MessageDraft.mem_fields_merge hfield with hmem | ⟨original, hmem, rfl⟩
  · exact h field hmem
  · refine (hother original hmem).imp (fun hunmarked => ⟨hunmarked.optional, hunmarked.type⟩) ?_
    rintro ⟨-, hmarked⟩
    rw [draft.shift_eq_self hmarked.ungrouped]
    exact ⟨hwrapper, hmarked⟩

/-- Marks do not depend on the order of the fields. -/
theorem moveToFront (h : WellMarked job draft) (order : List String) :
    WellMarked job (draft.moveToFront order) :=
  fun field hfield => h field (MessageDraft.mem_fields_moveToFront.mp hfield)

/-- A field for a reference has no mark. -/
theorem refer (h : WellMarked job parent) (slot : Slot) {result : ComponentType}
    (hplain : ∀ type, result = .message type ∨ result = .enum type → Plain type) :
    WellMarked job (slot.refer parent result) := by
  cases result with
  | message type =>
      exact h.addField (.inl ((Unmarked.named (hplain type (.inl rfl))).set slot none))
  | enum type => exact h.addField (.inl ((Unmarked.named (hplain type (.inr rfl))).set slot none))
  | nothing => exact h

end WellMarked

/-! ### Scalars -/

/-- Every scalar in a message has a type that holds it. -/
def HasHolders (draft : MessageDraft) : Prop :=
  ∀ field ∈ draft.fields, field.isScalar = true → ∃ holder, holder? field.type = some holder

/-- Every scalar that a schema stands for has a type that holds it. -/
theorem exists_holder_of_scalarType? {schema : Schema} {type : FieldType}
    (h : scalarType? schema.shape = some type) : ∃ holder, holder? type = some holder := by
  unfold scalarType? at h
  split at h <;> cases h
  · exact ⟨_, rfl⟩
  · unfold integerType
    split <;> exact ⟨_, rfl⟩
  · unfold numberType
    split <;> exact ⟨_, rfl⟩
  · unfold stringType
    split <;> exact ⟨_, rfl⟩

/-- A field that comes in needs a holder if it is a scalar. -/
theorem HasHolders.addField (h : HasHolders draft)
    (hfield : field.isScalar = true → ∃ holder, holder? field.type = some holder) :
    HasHolders (draft.addField field) := by
  intro added hadded
  rcases MessageDraft.mem_fields_addField hadded with hmem | rfl
  · exact h added hmem
  · exact hfield

/-- The field that takes the place of a message has a type with a holder, if it is a scalar. -/
theorem TakenIn.exists_holder {fieldName : String} {allowRepeated : Bool}
    (h : TakenIn job facts parent fieldName child allowRepeated (grown, field))
    (hchild : HasHolders child) (hscalar : field.isScalar = true) :
    ∃ holder, holder? field.type = some holder := by
  cases h with
  | @unwrapped unwrapped _ _ hunwrap =>
    obtain ⟨-, hfields, -, -⟩ := MessageDraft.unwrap?_eq_some hunwrap
    exact hchild unwrapped.field (by simp [hfields]) hscalar
  | _ => cases hscalar

/-- Every step that puts a message together takes its scalars from scalar schemas. -/
theorem hasHolders_stable (job : Job) (facts : Facts) : Stable job facts HasHolders where
  fresh _ _ _ := by simp [HasHolders]
  union _ _ := by simp [HasHolders, unionStart, MessageDraft.addOneof]
  scalar _ _ _ hshape := HasHolders.addField (by simp [HasHolders]) fun _ =>
    exists_holder_of_scalarType? hshape
  enum _ _ _ _ _ _ hrun := by
    obtain ⟨⟨enum, -, rfl⟩, -⟩ := enumCarrier_eq_ok hrun
    simp [HasHolders]
  refer parent slot _ result _ _ hparent := by
    cases result with
    | message type =>
      refine hparent.addField fun hscalar => ?_
      rw [FieldDraft.isScalar, (slot.type_set _ _).1] at hscalar
      cases hscalar
    | enum type =>
      refine hparent.addField fun hscalar => ?_
      rw [FieldDraft.isScalar, (slot.type_set _ _).1] at hscalar
      cases hscalar
    | nothing => exact hparent
  taken parent child grown slot schema field marked _ _ htaken hmarks _ _ hparent hchild := by
    have hgrown : HasHolders grown := by
      rw [HasHolders, htaken.field_eq.2.1]
      exact hparent
    refine hgrown.addField ?_
    rw [FieldDraft.isScalar, (slot.type_set _ _).1]
    intro hscalar
    -- what is marked by its type is no scalar any more
    have hsame : marked.type = field.type := by
      cases slot with
      | property name required comment =>
        have h : Presence job facts schema required field marked := hmarks
        cases h with
        | unmarked => rfl
        | held => cases hscalar
        | optional => rfl
      | item => rw [(hmarks : marked = field)]
      | variant => rw [(hmarks : marked = field)]
    rw [hsame] at hscalar ⊢
    exact htaken.exists_holder hchild hscalar
  renamed _ _ _ _ hchild := hchild
  merge draft other _ _ hdraft hother field hfield := by
    rcases MessageDraft.mem_fields_merge hfield with hmem | ⟨original, hmem, rfl⟩
    · exact hdraft field hmem
    · exact hother original hmem
  moveToFront draft order hdraft field hfield :=
    hdraft field (MessageDraft.mem_fields_moveToFront.mp hfield)
  comment _ _ hdraft := hdraft
  payload _ _ _ _ := by simp [HasHolders]

/-! ### Taking in -/

/-- The field that takes the place of a message has no mark yet. -/
theorem TakenIn.unmarked {fieldName : String} {allowRepeated : Bool}
    (h : TakenIn job facts parent fieldName child allowRepeated (grown, field))
    (hnamed : WellNamed child) (hchild : WellMarked job child) : Unmarked field := by
  have hkept := (plain_namesTypes job).renamed
  have henum : ∀ enum, child.carriedEnum? = some enum → Plain enum.name := by
    intro enum hcarried
    obtain ⟨-, -, henums⟩ := MessageDraft.carriedEnum?_eq_some_iff.mp hcarried
    exact hnamed.enums enum (henums ▸ List.mem_singleton_self _)
  cases h with
  | enum hcarried hnested => exact .named (hnested.ofKind hkept (henum _ hcarried))
  | enumComponent hcarried _ => exact .named (henum _ hcarried)
  | unwrapped _ _ hunwrap =>
    obtain ⟨hwrapper, hfields, -, -⟩ := MessageDraft.unwrap?_eq_some hunwrap
    have hwrapper : child.wrapper = true := by
      simp only [MessageDraft.isWrapper, Bool.and_eq_true] at hwrapper
      exact hwrapper.1.1
    -- a wrapper has no marked field to give
    have hfield := (hchild _ (hfields ▸ List.mem_singleton_self _)).resolve_right
      fun hmarked => by simp [hwrapper] at hmarked
    exact ⟨hfield.optional, hfield.type⟩
  | message _ hnested => exact .named (hnested.ofKind hkept hnamed.name)
  | component _ _ => exact .named hnamed.name

/-- The mark for presence is of the kind that the job asks for, if one is made. -/
theorem Presence.marks {fieldName : String} {allowRepeated required : Bool} {schema : Schema}
    {comment : Option String} (h : Presence job facts schema required field marked)
    (htaken : TakenIn job facts parent fieldName child allowRepeated (grown, field))
    (hfield : Unmarked field) (hholders : HasHolders child) :
    Unmarked { marked with comment } ∨ Marked job { marked with comment } := by
  have hungrouped : field.oneof = none := htaken.field_eq.2.2.2.1
  cases h with
  | unmarked => exact .inl ⟨hfield.optional, hfield.type⟩
  | held _ hrepeated _ hwrap =>
    exact .inr
      { single := hrepeated
        ungrouped := hungrouped
        labelled := fun hlabel => absurd (hfield.optional.symm.trans hlabel) (by decide)
        held := fun _ => hwrap }
  | optional _ hrepeated hscalar _ hholder =>
    -- every scalar has a holder, so with holders configured there is no label
    have hlabel : job.config.wrapPrimitives = false := by
      obtain ⟨holder, hsome⟩ := htaken.exists_holder hholders hscalar
      by_contra hwrap
      simp [hsome] at hholder
      exact hwrap hholder
    exact .inr
      { single := hrepeated
        ungrouped := hungrouped
        labelled := fun _ => hlabel
        held := fun htype => absurd htype hfield.type }

/-! ### Derivations -/

/-- Only the item of a list fills a wrapper. -/
def Task.Proper : Task → Prop
  | .node _ _ | .schema _ _ | .shape _ _ => True
  | .slot parent filled _ => parent.wrapper = true → ∃ list, filled = .item list
  | .slots parent _ => parent.wrapper = false
  | .absorb draft _ | .absorbAll draft _ => draft.wrapper = false

/-- Taking in a type does not make a wrapper of the message. -/
theorem TakenIn.wrapper_eq {fieldName : String} {allowRepeated : Bool}
    (h : TakenIn job facts parent fieldName child allowRepeated (grown, field)) :
    grown.wrapper = parent.wrapper := by
  cases h with
  | enum => exact MessageDraft.wrapper_addEnum _ _
  | unwrapped => exact MessageDraft.wrapper_nestAll
  | message => exact MessageDraft.wrapper_addMessage _ _
  | _ => rfl

/-- What is put into a message does not make a wrapper of it. -/
theorem Derives.wrapper_eq {task : Task} {compiled : Option MessageDraft}
    (h : Derives job facts task compiled) :
    ∀ draft ∈ compiled, ∀ start ∈ task.start?, draft.wrapper = start.wrapper := by
  -- by the rules for slots and variants; the other tasks start from nothing
  induction h with
  | slotsNil | skipped | absorbNil | ignored | absorbNothing =>
    rintro _ ⟨⟩ _ ⟨⟩
    rfl
  | slotsCons _ _ ihfirst ih | absorbCons _ _ ihfirst ih =>
    intro draft hdraft start hstart
    exact (ih draft hdraft _ rfl).trans (ihfirst _ rfl start hstart)
  | @reference parent slot _ result _ =>
    rintro _ ⟨⟩ _ ⟨⟩
    rcases slot.refer_cases parent result with heq | ⟨_, _, -, -, heq⟩ <;> rw [heq]
    exact MessageDraft.wrapper_addField _ _
  | taken _ htaken _ _ _ =>
    rintro _ ⟨⟩ _ ⟨⟩
    rw [MessageDraft.wrapper_addField, htaken.wrapper_eq]
  | absorbReference _ _ _ ih => exact ih
  | merged _ _ _ =>
    rintro _ ⟨⟩ _ ⟨⟩
    exact MessageDraft.wrapper_merge
  | _ => exact fun _ _ _ hstart => nomatch hstart

/-- A member that is accepted is well marked in its message. -/
theorem WellMarked.taken {slot : Slot} {schema : Schema} (h : WellMarked job parent)
    (htaken : TakenIn job facts parent (slot.fieldName child.name) child slot.allowsRepeated
      (grown, field))
    (hmarks : slot.Marks job facts schema field marked)
    (hwrapper : parent.wrapper = true → ∃ list, slot = .item list) (hfield : Unmarked field)
    (hholders : HasHolders child) :
    WellMarked job (grown.addField (slot.set schema.description marked)) := by
  have hgrown : WellMarked job grown := h.of_same htaken.wrapper_eq htaken.field_eq.2.1
  refine hgrown.addField ?_
  -- marks are set for properties only, and a wrapper has none
  cases slot with
  | property name required comment =>
    have hnotWrapper : grown.wrapper = false := by
      rw [htaken.wrapper_eq]
      by_contra htrue
      obtain ⟨list, hlist⟩ := hwrapper (by simpa using htrue)
      cases hlist
    exact (Presence.marks hmarks htaken hfield hholders).imp_right
      fun hmarked => ⟨hnotWrapper, hmarked⟩
  | item list =>
    cases (hmarks : marked = field)
    exact .inl (hfield.set _ _)
  | variant union index group =>
    cases (hmarks : marked = field)
    exact .inl (hfield.set _ _)

/-- What is derived is well marked everywhere. -/
theorem Derives.wellMarked
    (hplain : ∀ reference result, facts.Names job reference result →
      ∀ type, result = .message type ∨ result = .enum type → Plain type)
    {task : Task} {compiled : Option MessageDraft} (h : Derives job facts task compiled)
    (hproper : task.Proper)
    (hstart : ∀ draft ∈ task.start?, Everywhere (WellMarked job) draft) :
    ∀ draft ∈ compiled, Everywhere (WellMarked job) draft := by
  -- by the rules of the derivation, with the messages that a task starts from as a premise
  induction h with
  | inline _ ih | expanded _ _ _ ih | unordered _ _ ih => exact ih trivial (by simp [Task.start?])
  | map _ _ ih => exact ih trivial (by simp [Task.start?])
  | ordered _ ih =>
    rintro _ ⟨⟩
    have hdraft := ih trivial (by simp [Task.start?]) _ rfl
    exact hdraft.moveToFront (hdraft.here.moveToFront _)
  | enum _ hrun =>
    rintro _ ⟨⟩
    obtain ⟨⟨enum, -, rfl⟩, -⟩ := enumCarrier_eq_ok hrun
    exact .of_messages_eq_nil (.of_nil rfl) rfl
  | union _ _ ih | object _ _ ih =>
    refine ih rfl ?_
    rintro _ ⟨⟩
    exact .of_messages_eq_nil (.of_nil rfl) rfl
  | combined _ hmerged _ ihmerged ih =>
    refine ih (hmerged.wrapper_eq _ rfl _ rfl) ?_
    rintro _ ⟨⟩
    refine ihmerged rfl ?_ _ rfl
    rintro _ ⟨⟩
    exact .of_messages_eq_nil (.of_nil rfl) rfl
  | scalar _ =>
    rintro _ ⟨⟩
    refine .of_messages_eq_nil (WellMarked.addField (.of_nil rfl) (.inl ⟨rfl, ?_⟩))
      (by simp [scalarWrapper])
    rintro ⟨_, _, -, hnone⟩
    cases hnone
  | bareList _ | any _ => simp
  | @list name _ _ _ _ _ ih =>
    refine ih (fun _ => ⟨name, rfl⟩) ?_
    rintro _ ⟨⟩
    exact .of_messages_eq_nil (.of_nil rfl) rfl
  | slotsCons hfirst _ ihfirst ih =>
    refine ih ((hfirst.wrapper_eq _ rfl _ rfl).trans hproper) ?_
    rintro _ ⟨⟩
    exact ihfirst (fun htrue => absurd (htrue.symm.trans hproper) (by decide)) hstart _ rfl
  | absorbCons hfirst _ ihfirst ih =>
    refine ih ((hfirst.wrapper_eq _ rfl _ rfl).trans hproper) ?_
    rintro _ ⟨⟩
    exact ihfirst hproper hstart _ rfl
  | reference hnames =>
    rintro _ ⟨⟩
    have hparent := hstart _ rfl
    exact hparent.refer (hparent.here.refer _ (hplain _ _ hnames))
  | @taken parent child grown slot schema field marked _ htaken hmarks hderives ih =>
    rintro _ ⟨⟩
    have hparent := hstart _ rfl
    have hchild := ih trivial (by simp [Task.start?]) _ rfl
    have hnamed := hderives.everywhere (wellNamed_stable job facts) trivial (by simp [Task.start?])
      _ rfl
    have hholders := hderives.everywhere (hasHolders_stable job facts) trivial
      (by simp [Task.start?]) _ rfl
    have hfield := htaken.unmarked hnamed.here hchild.here
    have hgrown := hparent.here.taken htaken hmarks hproper hfield hholders.here
    exact hparent.taken hgrown (fun _ _ => hchild.here) htaken hchild
  | absorbReference _ _ _ ih => exact ih hproper hstart
  | slotsNil
  | skipped
  | absorbNil
  | ignored
  | absorbNothing =>
    -- the message is the one that the task starts from
    rintro _ ⟨⟩
    exact hstart _ rfl
  | merged _ _ ih =>
    rintro _ ⟨⟩
    have hdraft := hstart _ rfl
    have hother := ih trivial (by simp [Task.start?]) _ rfl
    exact hdraft.merge (hdraft.here.merge hother.here hproper) hother

/-! ### Files -/

/-- A payload is well marked everywhere, and it is no wrapper. -/
theorem Payload.wellMarked
    (hplain : ∀ reference result, facts.Names job reference result →
      ∀ type, result = .message type ∨ result = .enum type → Plain type)
    (h : Payload job facts draft) : Everywhere (WellMarked job) draft ∧ draft.wrapper = false := by
  -- by the way the message was put together
  induction h with
  | start _ => exact ⟨.of_messages_eq_nil (.of_nil rfl) rfl, rfl⟩
  | described _ _ ih => exact ⟨ih.1.comment (ih.1.here.of_same rfl rfl), ih.2⟩
  | member _ hslot ih =>
    refine ⟨hslot.wellMarked hplain (fun htrue => ?_) ?_ _ rfl, ?_⟩
    · simp [ih.2] at htrue
    · rintro _ ⟨⟩
      exact ih.1
    · exact (hslot.wrapper_eq _ rfl _ rfl).trans ih.2
  | merged _ _ hschema ih =>
    have hother := hschema.wellMarked hplain trivial (by simp [Task.start?]) _ rfl
    exact ⟨ih.1.merge (ih.1.here.merge hother.here ih.2) hother, by simpa using ih.2⟩

/-- A message that comes from schemas of the description is well marked everywhere. -/
theorem Sourced.wellMarked
    (hplain : ∀ reference result, facts.Names job reference result →
      ∀ type, result = .message type ∨ result = .enum type → Plain type)
    {among : Endpoint → Prop} (h : Sourced job facts among draft) :
    Everywhere (WellMarked job) draft := by
  cases h with
  | schema _ h => exact h.wellMarked hplain trivial (by simp [Task.start?]) _ rfl
  | body comment _ _ _ h =>
    have hcompiled := h.wellMarked hplain trivial (by simp [Task.start?]) _ rfl
    exact hcompiled.comment (hcompiled.here.of_same rfl rfl)
  | payload _ h => exact (h.payload.wellMarked hplain).1

end

/-- The components that references name became types of the file. -/
theorem Outcome.plain_of_names {job : Job} {s : State} (h : Outcome job s) (reference : String)
    (result : ComponentType) (hnames : s.facts.Names job reference result) (type : String)
    (htype : result = .message type ∨ result = .enum type) : Plain type := by
  obtain ⟨_, _, -, -, hresult⟩ := hnames
  exact h.justified.plain_of_lookup hresult htype

/-- Every message that was drafted for a file is well marked. -/
theorem Outcome.wellMarked {job : Job} {s : State} (h : Outcome job s) {path : List String}
    {draft : MessageDraft} (hplaced : (path, draft) ∈ s.file.placed) : WellMarked job draft := by
  obtain ⟨outer, houter, hmem⟩ := FileDraft.mem_placed.mp hplaced
  exact ((h.sourced.messages outer houter).wellMarked h.plain_of_names).of_mem_placed hmem

end Compile

end Protoscribe
