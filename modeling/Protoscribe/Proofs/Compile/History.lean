import Protoscribe.Proofs.Compile.WellTyped
import Protoscribe.Proofs.Draft.Nested

/-!
# `Protoscribe.Proofs.Compile.History`: which types were offered to a message

A message does not say where its members come from: a field carries the name of its type, and the
type that is nested under the name may have come for another field. The `History` of a message keeps
both apart. It lists the types that were to be nested in the message, first one first, whether they
were nested or dropped, and the fields that stand for inline schemas, each with the type that its
schema was compiled to.

`HasHistory` follows the steps that put a message together, so every drafted message has a history
(`hasHistory_stable`). `HasHistory.explains` says what a history tells about the message: a name
stands for the first type that was offered under it, each field of the history is a field of the
message with the name of its type, and every other field has its type from elsewhere.
-/

set_option autoImplicit false

namespace Protoscribe.Compile

open OpenApi (Schema)

/-! ### Histories -/

/-- A field for an inline schema, and the type that the schema was compiled to. -/
structure InlineField where
  name : String
  schema : Schema
  type : NestedType

/-- The types that were to be nested in a message, and the fields for inline schemas. -/
structure History where
  offered : List NestedType := []
  fields : List InlineField := []

namespace History

/-- The history of one field that brings its type along. -/
def ofField (name : String) (schema : Schema) (type : NestedType) : History :=
  ⟨[type], [⟨name, schema, type⟩]⟩

/-- The history of a field that takes the place of a wrapper. -/
def rename (history : History) (name : String) : History :=
  { history with fields := history.fields.map fun field => { field with name } }

/-- The history when fields and types come in after those of a message. All types are offered, but
fields are taken only when their names are free. -/
def merge (history : History) (draft : MessageDraft) (other : History) : History :=
  ⟨history.offered ++ other.offered,
    history.fields ++ other.fields.filter fun field => !draft.hasField field.name⟩

end History

/-- The type that is nested for a compiled message, under its own name or another one. -/
inductive NestedFor (child : MessageDraft) : NestedType → Prop
  | enum {enum : EnumDraft} (name : String) (hcarried : child.carriedEnum? = some enum) :
      NestedFor child (.enum { enum with name })
  | message (name : String) (hcarried : child.carriedEnum? = none) :
      NestedFor child (.message { child with name })

/-- The type of the field is what compiling its schema may lead to. -/
def InlineField.Compiled (job : Job) (facts : Facts) (field : InlineField) : Prop :=
  ∃ hint child, Derives job facts (.schema hint field.schema) (some child) ∧
    NestedFor child field.type

/-- The field of a message has the name and the type of the inline field. -/
structure InlineField.Matches (field : InlineField) (drafted : FieldDraft) : Prop where
  name : drafted.name = field.name
  type : drafted.type = field.type.fieldType
  typeName : drafted.typeName = some field.type.name

/-- The type of a field that refers to a component. -/
def ComponentType.fieldType (result : ComponentType) : FieldType :=
  if result.isEnum then .enum else .message

/-- How a field comes by its type without one being nested for it. -/
inductive TypedElsewhere (job : Job) (facts : Facts) : FieldType → Option String → Prop
  | scalar {type : FieldType} (hscalar : type.isNamed = false) : TypedElsewhere job facts type none
  | holder {type : FieldType} {holder : String} (hholder : holder? type = some holder) :
      TypedElsewhere job facts .message (some holder)
  | reference {reference name : String} {result : ComponentType}
      (hnames : facts.Names job reference result)
      (hname : result = .message name ∨ result = .enum name) :
      TypedElsewhere job facts result.fieldType (some name)
  | standIn {name : String} {result : ComponentType} (hstand : StandsIn job facts name result) :
      TypedElsewhere job facts result.fieldType (some name)

/-- What a child brings along when it is taken in, where `history` is its own history. -/
inductive Brings (job : Job) (facts : Facts) (parent child : MessageDraft) (history : History)
    (schema : Schema) (fieldName : String) : MessageDraft × FieldDraft → History → Prop
  | enum {enum : EnumDraft} {name : String} (hcarried : child.carriedEnum? = some enum)
      (hnested : NestedAs job facts parent enum.name true (some name)) :
      Brings job facts parent child history schema fieldName
        (parent.addEnum { enum with name }, .enum fieldName name)
        (.ofField fieldName schema (.enum { enum with name }))
  | enumComponent {enum : EnumDraft} (hcarried : child.carriedEnum? = some enum)
      (hnested : NestedAs job facts parent enum.name true none) :
      Brings job facts parent child history schema fieldName
        (parent, .enum fieldName enum.name) {}
  | unwrapped {unwrapped : Unwrapped} (hunwrap : child.unwrap? = some unwrapped) :
      Brings job facts parent child history schema fieldName
        (parent.nestAll unwrapped.messages unwrapped.enums, unwrapped.field.rename fieldName)
        (history.rename fieldName)
  | message {name : String} (hcarried : child.carriedEnum? = none)
      (hnested : NestedAs job facts parent child.name false (some name)) :
      Brings job facts parent child history schema fieldName
        (parent.addMessage { child with name }, .message fieldName name)
        (.ofField fieldName schema (.message { child with name }))
  | component (hcarried : child.carriedEnum? = none)
      (hnested : NestedAs job facts parent child.name false none) :
      Brings job facts parent child history schema fieldName
        (parent, .message fieldName child.name) {}

/-- The history of a message, step by step. -/
inductive HasHistory (job : Job) (facts : Facts) : MessageDraft → History → Prop
  /-- A message without members. -/
  | start {draft : MessageDraft} (hstep : draft.InStep) (hfields : draft.fields = [])
      (hmessages : draft.messages = []) (henums : draft.enums = []) : HasHistory job facts draft {}
  | scalar (text : String) {schema : Schema} {type : FieldType}
      (hshape : scalarType? schema.shape = some type) :
      HasHistory job facts (scalarWrapper (job.messageName text) schema type) {}
  /-- A message that carries an enum. -/
  | carrier {draft : MessageDraft} {enum : EnumDraft} (hstep : draft.InStep)
      (hcarried : draft.carriedEnum? = some enum) : HasHistory job facts draft ⟨[.enum enum], []⟩
  | refer {parent : MessageDraft} {history : History} {slot : Slot} {reference : String}
      {result : ComponentType} (hnames : facts.Names job reference result)
      (h : HasHistory job facts parent history) :
      HasHistory job facts (slot.refer parent result) history
  | taken {parent child grown : MessageDraft} {history childHistory brought : History} {slot : Slot}
      {schema : Schema} {field marked : FieldDraft}
      (hderives : Derives job facts (.schema (slot.hint job schema) schema) (some child))
      (hbrings : Brings job facts parent child childHistory schema (slot.fieldName child.name)
        (grown, field) brought)
      (hmarks : slot.Marks job facts schema field marked)
      (h : HasHistory job facts parent history) (hchild : HasHistory job facts child childHistory) :
      HasHistory job facts (grown.addField (slot.set schema.description marked))
        (history.merge parent brought)
  | merge {draft other : MessageDraft} {history otherHistory : History}
      (h : HasHistory job facts draft history) (hother : HasHistory job facts other otherHistory) :
      HasHistory job facts (draft.merge other) (history.merge draft otherHistory)
  | moveToFront {draft : MessageDraft} {history : History} (order : List String)
      (h : HasHistory job facts draft history) :
      HasHistory job facts (draft.moveToFront order) history
  | renamed {draft : MessageDraft} {history : History} (name : String)
      (h : HasHistory job facts draft history) : HasHistory job facts { draft with name } history
  | described {draft : MessageDraft} {history : History} (comment : Option String)
      (h : HasHistory job facts draft history) :
      HasHistory job facts { draft with comment } history

section

variable {job : Job} {facts : Facts} {parent child : MessageDraft}

/-- What takes a child in says what the child brings along. -/
theorem TakenIn.exists_brings {fieldName : String} {allowRepeated : Bool}
    {result : MessageDraft × FieldDraft}
    (h : TakenIn job facts parent fieldName child allowRepeated result) (history : History)
    (schema : Schema) :
    ∃ brought, Brings job facts parent child history schema fieldName result brought := by
  cases h with
  | enum hcarried hnested => exact ⟨_, .enum hcarried hnested⟩
  | enumComponent hcarried hnested => exact ⟨_, .enumComponent hcarried hnested⟩
  | unwrapped _ _ hunwrap => exact ⟨_, .unwrapped hunwrap⟩
  | message hcarried hnested => exact ⟨_, .message hcarried hnested⟩
  | component hcarried hnested => exact ⟨_, .component hcarried hnested⟩

end

/-- Every step that puts a message together continues its history. -/
theorem hasHistory_stable (job : Job) (facts : Facts) :
    Stable job facts fun draft => ∃ history, HasHistory job facts draft history where
  fresh _ _ _ := ⟨_, .start (inStep_fresh _ _ _) rfl rfl rfl⟩
  union _ _ := ⟨_, .start (unionStart_inStep _ _) rfl rfl rfl⟩
  scalar text _ _ hshape := ⟨_, .scalar text hshape⟩
  enum text schema literals draft s s' hrun := by
    have hstep := enumCarrier_inStep hrun
    obtain ⟨⟨enum, -, rfl⟩, -⟩ := enumCarrier_eq_ok hrun
    exact ⟨_, .carrier hstep rfl⟩
  refer parent slot reference result hnames _ hparent := by
    obtain ⟨history, hhistory⟩ := hparent
    exact ⟨history, .refer hnames hhistory⟩
  taken parent child grown slot schema field marked hderives _ htaken hmarks _ _ hparent hchild := by
    obtain ⟨history, hhistory⟩ := hparent
    obtain ⟨childHistory, hchildHistory⟩ := hchild
    obtain ⟨brought, hbrings⟩ := htaken.exists_brings childHistory schema
    exact ⟨_, .taken hderives hbrings hmarks hhistory hchildHistory⟩
  renamed parent child name _ hchild := by
    obtain ⟨history, hhistory⟩ := hchild
    exact ⟨history, .renamed name hhistory⟩
  merge draft other _ _ hdraft hother := by
    obtain ⟨history, hhistory⟩ := hdraft
    obtain ⟨otherHistory, hotherHistory⟩ := hother
    exact ⟨_, .merge hhistory hotherHistory⟩
  moveToFront draft order hdraft := by
    obtain ⟨history, hhistory⟩ := hdraft
    exact ⟨history, .moveToFront order hhistory⟩
  comment draft comment hdraft := by
    obtain ⟨history, hhistory⟩ := hdraft
    exact ⟨history, .described comment hhistory⟩
  payload _ _ _ _ := ⟨_, .start (inStep_fresh _ _ _) rfl rfl rfl⟩

section

variable {job : Job} {facts : Facts} {parent child grown : MessageDraft} {history brought : History}

/-- What is brought along comes into a message in step. -/
theorem Brings.inStep {schema : Schema} {fieldName : String} {field : FieldDraft}
    (h : Brings job facts parent child history schema fieldName (grown, field) brought)
    (hparent : parent.InStep) : grown.InStep := by
  cases h with
  | enum _ _ => exact hparent.addEnum _
  | enumComponent _ _ => exact hparent
  | unwrapped _ => exact hparent.nestAll _ _
  | message _ _ => exact hparent.addMessage _
  | component _ _ => exact hparent

/-- A message with a history is in step with its members. -/
theorem HasHistory.inStep (h : HasHistory job facts parent history) : parent.InStep := by
  induction h with
  | start hstep _ _ _ => exact hstep
  | scalar _ _ => exact scalarWrapper_inStep _ _ _
  | carrier hstep _ => exact hstep
  | @refer _ _ slot _ result _ _ ih => exact slot.refer_inStep ih result
  | taken _ hbrings _ _ _ ih _ => exact (hbrings.inStep ih).addField _
  | merge _ _ ih _ => exact ih.merge _
  | moveToFront _ _ ih => exact ih.moveToFront _
  | renamed _ _ ih => exact ⟨ih.numbers, ih.fields, ih.types⟩
  | described _ _ ih => exact ⟨ih.numbers, ih.fields, ih.types⟩

end

/-! ### What a history tells -/

/-- What a history tells about fields and nested types. -/
structure History.Explains (job : Job) (facts : Facts) (history : History)
    (fields : List FieldDraft) (types : List NestedType) : Prop where
  distinct : (fields.map (·.name)).Nodup
  /-- A name stands for the first type that was offered under it. -/
  first : ∀ name, firstNamed types name = firstNamed history.offered name
  compiled : ∀ field ∈ history.fields, field.Compiled job facts
  offered : ∀ field ∈ history.fields, field.type ∈ history.offered
  matched : ∀ field ∈ history.fields, ∃ drafted ∈ fields, field.Matches drafted
  /-- The fields that the history does not list have their types from elsewhere. -/
  complete : ∀ drafted ∈ fields, (∃ field ∈ history.fields, field.name = drafted.name) ∨
    TypedElsewhere job facts drafted.type drafted.typeName

section

variable {job : Job} {facts : Facts} {history brought : History} {fields : List FieldDraft}
  {types : List NestedType}

namespace History.Explains

/-- Without fields, all types count as offered. -/
theorem of_fields_eq_nil (types : List NestedType) :
    History.Explains job facts ⟨types, []⟩ [] types where
  distinct := List.nodup_nil
  first _ := rfl
  compiled := by simp
  offered := by simp
  matched := by simp
  complete := by simp

/-- A field that has its type from elsewhere needs no history. -/
theorem of_elsewhere {drafted : FieldDraft}
    (h : TypedElsewhere job facts drafted.type drafted.typeName) :
    History.Explains job facts {} [drafted] [] where
  distinct := List.pairwise_singleton _ _
  first _ := rfl
  compiled := by simp
  offered := by simp
  matched := by simp
  complete other hother := by
    cases List.mem_singleton.mp hother
    exact .inr h

/-- A field that brings its type along. -/
theorem ofField {field : InlineField} {drafted : FieldDraft} (hcompiled : field.Compiled job facts)
    (hmatches : field.Matches drafted) :
    (History.ofField field.name field.schema field.type).Explains job facts [drafted]
      [field.type] where
  distinct := List.pairwise_singleton _ _
  first _ := rfl
  compiled other hother := by
    cases List.mem_singleton.mp hother
    exact hcompiled
  offered other hother := by
    cases List.mem_singleton.mp hother
    exact List.mem_singleton_self _
  matched other hother := by
    cases List.mem_singleton.mp hother
    exact ⟨drafted, List.mem_singleton_self _, hmatches⟩
  complete other hother := by
    cases List.mem_singleton.mp hother
    exact .inl ⟨field, List.mem_singleton_self _, hmatches.name.symm⟩

/-- What does not touch names and types leaves the history as it is. -/
theorem map (change : FieldDraft → FieldDraft)
    (hname : ∀ field, (change field).name = field.name)
    (htype : ∀ field, (change field).type = field.type)
    (htypeName : ∀ field, (change field).typeName = field.typeName)
    (h : history.Explains job facts fields types) :
    history.Explains job facts (fields.map change) types where
  distinct := by
    have hnames : (fields.map change).map (·.name) = fields.map (·.name) := by
      rw [List.map_map]
      exact List.map_congr_left fun field _ => hname field
    rw [hnames]
    exact h.distinct
  first := h.first
  compiled := h.compiled
  offered := h.offered
  matched field hfield := by
    obtain ⟨drafted, hdrafted, hmatches⟩ := h.matched field hfield
    exact ⟨change drafted, List.mem_map_of_mem hdrafted, (hname _).trans hmatches.name,
      (htype _).trans hmatches.type, (htypeName _).trans hmatches.typeName⟩
  complete changed hchanged := by
    obtain ⟨drafted, hdrafted, rfl⟩ := List.mem_map.mp hchanged
    rw [hname, htype, htypeName]
    exact h.complete drafted hdrafted

/-- The order of the fields does not count. -/
theorem perm {others : List FieldDraft} (hperm : others.Perm fields)
    (h : history.Explains job facts fields types) : history.Explains job facts others types where
  distinct := (hperm.map _).nodup_iff.mpr h.distinct
  first := h.first
  compiled := h.compiled
  offered := h.offered
  matched field hfield := by
    obtain ⟨drafted, hdrafted, hmatches⟩ := h.matched field hfield
    exact ⟨drafted, hperm.mem_iff.mpr hdrafted, hmatches⟩
  complete drafted hdrafted := h.complete drafted (hperm.mem_iff.mp hdrafted)

/-- The only field of a wrapper under another name. -/
theorem rename {only : FieldDraft} (name : String)
    (h : history.Explains job facts [only] types) :
    (history.rename name).Explains job facts [only.rename name] types where
  distinct := List.pairwise_singleton _ _
  first := h.first
  compiled field hfield := by
    obtain ⟨original, horiginal, rfl⟩ := List.mem_map.mp hfield
    exact h.compiled original horiginal
  offered field hfield := by
    obtain ⟨original, horiginal, rfl⟩ := List.mem_map.mp hfield
    exact h.offered original horiginal
  matched field hfield := by
    obtain ⟨original, horiginal, rfl⟩ := List.mem_map.mp hfield
    obtain ⟨drafted, hdrafted, hmatches⟩ := h.matched original horiginal
    cases List.mem_singleton.mp hdrafted
    exact ⟨_, List.mem_singleton_self _, rfl, hmatches.type, hmatches.typeName⟩
  complete drafted hdrafted := by
    cases List.mem_singleton.mp hdrafted
    refine (h.complete only (List.mem_singleton_self _)).imp_left ?_
    rintro ⟨field, hfield, -⟩
    exact ⟨{ field with name }, List.mem_map_of_mem hfield, rfl⟩

/-- A marker on a field that is no scalar leaves the type of the field, and scalars have no
history. -/
theorem mark {slot : Slot} {schema : Schema} {field marked : FieldDraft}
    (hmarks : slot.Marks job facts schema field marked)
    (h : history.Explains job facts [field] types) :
    history.Explains job facts [marked] types := by
  cases slot with
  | item list =>
    cases (hmarks : marked = field)
    exact h
  | variant union index group =>
    cases (hmarks : marked = field)
    exact h
  | property name required comment =>
    have hmarks : Presence job facts schema required field marked := hmarks
    cases hmarks with
    | unmarked => exact h
    | optional _ _ _ _ _ =>
      exact h.map (fun field => { field with optional := true }) (fun _ => rfl)
        (fun _ => rfl) (fun _ => rfl)
    | held _ _ hscalar _ hholder _ =>
      -- a field that gets a holder is a scalar, and no inline type stands behind a scalar
      have hnone : history.fields = [] := by
        refine List.eq_nil_iff_forall_not_mem.mpr fun inline hinline => ?_
        obtain ⟨drafted, hdrafted, hmatches⟩ := h.matched inline hinline
        cases List.mem_singleton.mp hdrafted
        rw [FieldDraft.isScalar, hmatches.type] at hscalar
        cases htype : inline.type <;>
          simp [htype, NestedType.fieldType, FieldType.isNamed] at hscalar
      refine ⟨List.pairwise_singleton _ _, h.first, h.compiled, h.offered, by simp [hnone], ?_⟩
      intro drafted hdrafted
      cases List.mem_singleton.mp hdrafted
      exact .inr (.holder hholder)

/-- Fields and types that come in after those of a message. -/
theorem merge {draft later : MessageDraft} {added : List FieldDraft}
    (hstep : draft.InStep) (h : history.Explains job facts draft.fields draft.nestedTypes)
    (hbrought : brought.Explains job facts added types)
    (hfields : later.fields = draft.fields ++ added.filter fun field => !draft.hasField field.name)
    (htypes : ∀ name, firstNamed later.nestedTypes name =
      firstNamed (draft.nestedTypes ++ types) name) :
    (history.merge draft brought).Explains job facts later.fields later.nestedTypes where
  distinct := by
    rw [hfields]
    exact hstep.nodup_fieldNames_append h.distinct hbrought.distinct
  first name := by
    rw [htypes, firstNamed_append, h.first, hbrought.first, ← firstNamed_append]
    rfl
  compiled field hfield := by
    rcases List.mem_append.mp hfield with hfield | hfield
    · exact h.compiled field hfield
    · exact hbrought.compiled field (List.mem_filter.mp hfield).1
  offered field hfield := by
    rcases List.mem_append.mp hfield with hfield | hfield
    · exact List.mem_append_left _ (h.offered field hfield)
    · exact List.mem_append_right _ (hbrought.offered field (List.mem_filter.mp hfield).1)
  -- a field comes in when its name is free, in the history as in the message
  matched field hfield := by
    rw [hfields]
    rcases List.mem_append.mp hfield with hfield | hfield
    · obtain ⟨drafted, hdrafted, hmatches⟩ := h.matched field hfield
      exact ⟨drafted, List.mem_append_left _ hdrafted, hmatches⟩
    · obtain ⟨hmem, hfree⟩ := List.mem_filter.mp hfield
      obtain ⟨drafted, hdrafted, hmatches⟩ := hbrought.matched field hmem
      refine ⟨drafted, List.mem_append_right _ (List.mem_filter.mpr ⟨hdrafted, ?_⟩), hmatches⟩
      rw [hmatches.name]
      exact hfree
  complete drafted hdrafted := by
    rw [hfields] at hdrafted
    rcases List.mem_append.mp hdrafted with hdrafted | hdrafted
    · refine (h.complete drafted hdrafted).imp_left ?_
      rintro ⟨field, hfield, hname⟩
      exact ⟨field, List.mem_append_left _ hfield, hname⟩
    · obtain ⟨hmem, hfree⟩ := List.mem_filter.mp hdrafted
      refine (hbrought.complete drafted hmem).imp_left ?_
      rintro ⟨field, hfield, hname⟩
      refine ⟨field, List.mem_append_right _ (List.mem_filter.mpr ⟨hfield, ?_⟩), hname⟩
      rw [hname]
      exact hfree

end History.Explains

/-- Merging nothing leaves no trace. -/
theorem History.merge_empty (history : History) (draft : MessageDraft) :
    history.merge draft {} = history := by
  simp [History.merge]

variable {parent child grown : MessageDraft} {field : FieldDraft}

/-- What a child brings along explains the field that takes its place. -/
theorem Brings.explains {hint fieldName : String} {schema : Schema}
    (h : Brings job facts parent child history schema fieldName (grown, field) brought)
    (hderives : Derives job facts (.schema hint schema) (some child)) (hstep : parent.InStep)
    (hchild : history.Explains job facts child.fields child.nestedTypes) :
    grown.fields = parent.fields ∧ ∃ types, brought.Explains job facts [field] types ∧
      ∀ name, firstNamed grown.nestedTypes name =
        firstNamed (parent.nestedTypes ++ types) name := by
  have hnothing : ∀ name, firstNamed parent.nestedTypes name =
      firstNamed (parent.nestedTypes ++ []) name := by simp
  -- what is brought is the type of the child, what the child was told to bring, or nothing
  cases h with
  | @enum enum name hcarried _ =>
    let inline : InlineField := ⟨fieldName, schema, .enum { enum with name }⟩
    have hcompiled : inline.Compiled job facts := ⟨hint, child, hderives, .enum name hcarried⟩
    exact ⟨MessageDraft.fields_addEnum .., _,
      History.Explains.ofField hcompiled ⟨rfl, rfl, rfl⟩, hstep.firstNamed_addEnum _⟩
  | enumComponent _ hnested =>
    cases hnested with
    | stoodFor hstand hkind =>
      have htyped := TypedElsewhere.standIn hstand
      rw [ComponentType.fieldType, hkind] at htyped
      exact ⟨rfl, [], .of_elsewhere htyped, hnothing⟩
  | unwrapped hunwrap =>
    obtain ⟨-, hfields, hmessages, henums⟩ := MessageDraft.unwrap?_eq_some hunwrap
    rw [hfields] at hchild
    rw [hmessages, henums]
    exact ⟨MessageDraft.fields_nestAll, _, hchild.rename fieldName,
      hstep.firstNamed_nestAll child⟩
  | @message name hcarried _ =>
    let inline : InlineField := ⟨fieldName, schema, .message { child with name }⟩
    have hcompiled : inline.Compiled job facts := ⟨hint, child, hderives, .message name hcarried⟩
    exact ⟨MessageDraft.fields_addMessage .., _,
      History.Explains.ofField hcompiled ⟨rfl, rfl, rfl⟩, hstep.firstNamed_addMessage _⟩
  | component _ hnested =>
    cases hnested with
    | stoodFor hstand hkind =>
      have htyped := TypedElsewhere.standIn hstand
      rw [ComponentType.fieldType, hkind] at htyped
      exact ⟨rfl, [], .of_elsewhere htyped, hnothing⟩

/-- A field for a reference has the type of a component. -/
theorem History.Explains.refer {slot : Slot} {reference : String} {result : ComponentType}
    (hnames : facts.Names job reference result) (hstep : parent.InStep)
    (h : history.Explains job facts parent.fields parent.nestedTypes) :
    history.Explains job facts (slot.refer parent result).fields
      (slot.refer parent result).nestedTypes := by
  -- a field for a reference brings no inline types along
  have hadd : ∀ field : FieldDraft, TypedElsewhere job facts field.type field.typeName →
      history.Explains job facts (parent.addField field).fields
        (parent.addField field).nestedTypes := by
    intro field htyped
    have hmerged := h.merge hstep (History.Explains.of_elsewhere htyped)
      (MessageDraft.fields_addField parent field) (by simp)
    rwa [History.merge_empty] at hmerged
  cases result with
  | message type =>
    refine hadd _ ?_
    rw [(slot.type_set _ _).1, (slot.type_set _ _).2]
    exact .reference hnames (.inl rfl)
  | enum type =>
    refine hadd _ ?_
    rw [(slot.type_set _ _).1, (slot.type_set _ _).2]
    exact .reference hnames (.inr rfl)
  | nothing => exact h

/-- The history of a message explains its fields and its nested types. -/
theorem HasHistory.explains {draft : MessageDraft} (h : HasHistory job facts draft history) :
    history.Explains job facts draft.fields draft.nestedTypes := by
  -- step by step; what comes in is explained by itself and then merged
  induction h with
  | start _ hfields hmessages henums =>
    rw [MessageDraft.nestedTypes, hfields, hmessages, henums]
    exact .of_fields_eq_nil []
  | scalar text hshape => exact .of_elsewhere (.scalar (scalarType?_isNamed hshape))
  | carrier _ hcarried =>
    obtain ⟨hfields, hmessages, henums⟩ := MessageDraft.carriedEnum?_eq_some_iff.mp hcarried
    rw [MessageDraft.nestedTypes, hfields, hmessages, henums]
    exact .of_fields_eq_nil _
  | refer hnames hparent ih => exact ih.refer hnames hparent.inStep
  | @taken parent child grown _ _ _ slot schema _ marked hderives hbrings hmarks hparent _ ih
      ihchild =>
    have hstep := hparent.inStep
    obtain ⟨hfields, types, hexplains, htypes⟩ := hbrings.explains hderives hstep ihchild
    have hset := (hexplains.mark hmarks).map (slot.set schema.description)
      (fun field => by cases slot <;> rfl) (fun field => (slot.type_set _ field).1)
      (fun field => (slot.type_set _ field).2)
    refine ih.merge hstep hset ?_ (by simpa using htypes)
    have hhas : ∀ name, grown.hasField name = parent.hasField name := by
      intro name
      rw [Bool.eq_iff_iff, (hbrings.inStep hstep).hasField_iff, hstep.hasField_iff,
        MessageDraft.fieldNames, hfields, MessageDraft.fieldNames]
    rw [MessageDraft.fields_addField, hfields]
    simp only [hhas, List.map_cons, List.map_nil]
  | @merge draft other _ _ hdraft _ ih ihother =>
    refine ih.merge hdraft.inStep (ihother.map draft.shift (fun _ => rfl) (fun _ => rfl)
      (fun _ => rfl)) ?_ (hdraft.inStep.firstNamed_merge other)
    rw [MessageDraft.fields_merge ihother.distinct, List.filter_map]
    rfl
  | moveToFront order _ ih =>
    rw [MessageDraft.fields_moveToFront]
    exact ih.perm (MessageDraft.perm_inOrder order _)
  | renamed name _ ih => exact ih
  | described comment _ ih => exact ih

end

end Protoscribe.Compile
