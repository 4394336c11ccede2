import Protoscribe.Proofs.Compile.Everywhere

/-!
# `Protoscribe.Proofs.Compile.WellTyped`: where the type of a field comes from

A field has a scalar type, or the type that holds a scalar, or it carries the name of a declared
type. That name comes from one of three places: from a type that is nested in the message of the
field, from what a component became, or from a component that was still being compiled (`TypedAs`).
Every field of every drafted message is typed in one of these ways (`wellTyped_stable`).
-/

set_option autoImplicit false

namespace Protoscribe.Compile

open OpenApi (Schema)

/-- How a field in a message comes by its type and the name of the type. -/
inductive TypedAs (job : Job) (facts : Facts) (draft : MessageDraft) :
    FieldType → Option String → Prop
  | scalar {type : FieldType} (hscalar : type.isNamed = false) : TypedAs job facts draft type none
  | holder {type : FieldType} {holder : String} (hholder : holder? type = some holder)
      (himport : wrappersFile ∈ facts.imports) : TypedAs job facts draft .message (some holder)
  | nested {type : FieldType} {name : String} (htype : type = .message ∨ type = .enum)
      (hname : name ∈ draft.typeNames) : TypedAs job facts draft type (some name)
  | component {type : FieldType} {name key : String} {result : ComponentType}
      (hresult : facts.schemas.lookup key = some result ∨ facts.bodies.lookup key = some result)
      (hkind : result = .message name ∧ type = .message ∨ result = .enum name ∧ type = .enum) :
      TypedAs job facts draft type (some name)
  /-- A component lends its name before it is finished. -/
  | borrowed {name : String} (hname : name ∈ job.componentNames) :
      TypedAs job facts draft .message (some name)

/-- All fields of a message are typed. -/
def WellTyped (job : Job) (facts : Facts) (draft : MessageDraft) : Prop :=
  ∀ field ∈ draft.fields, TypedAs job facts draft field.type field.typeName

section

variable {job : Job} {facts : Facts} {draft later parent child grown : MessageDraft}

/-- A type that is nested stays so when more are. -/
theorem TypedAs.mono {type : FieldType} {typeName : Option String}
    (h : TypedAs job facts draft type typeName) (hmore : draft.typeNames ⊆ later.typeNames) :
    TypedAs job facts later type typeName := by
  cases h with
  | scalar hscalar => exact .scalar hscalar
  | holder hholder himport => exact .holder hholder himport
  | nested htype hname => exact .nested htype (hmore hname)
  | component hresult hkind => exact .component hresult hkind
  | borrowed hname => exact .borrowed hname

/-- A message without fields has no types to be wrong. -/
theorem WellTyped.of_fields_eq_nil (hfields : draft.fields = []) :
    WellTyped job facts draft := by
  simp [WellTyped, hfields]

/-- A message that gets a typed field and keeps its nested types stays typed. -/
theorem WellTyped.addField {field : FieldDraft} (hfields : later.fields = draft.fields)
    (h : WellTyped job facts draft) (hmore : draft.typeNames ⊆ later.typeNames)
    (hfield : TypedAs job facts later field.type field.typeName) :
    WellTyped job facts (later.addField field) := by
  intro other hother
  have htypes : later.typeNames ⊆ (later.addField field).typeNames := by
    rw [MessageDraft.typeNames_addField]
    exact List.Subset.refl _
  rcases MessageDraft.mem_fields_addField hother with hmem | rfl
  · exact ((h other (hfields ▸ hmem)).mono hmore).mono htypes
  · exact hfield.mono htypes

/-- A scalar type has no name. -/
theorem scalarType?_isNamed {schema : Schema} {type : FieldType}
    (h : scalarType? schema.shape = some type) : type.isNamed = false := by
  cases hshape : schema.shape with
  | boolean =>
    rw [hshape] at h
    cases h
    rfl
  | integer format =>
    rw [hshape] at h
    cases h
    unfold integerType
    split <;> rfl
  | number format =>
    rw [hshape] at h
    cases h
    unfold numberType
    split <;> rfl
  | string format =>
    rw [hshape] at h
    cases h
    unfold stringType
    split <;> rfl
  | _ => simp [hshape, scalarType?] at h

/-- What a slot sets on a field, and what it marks, is not the type, except for a holder. -/
theorem Slot.Marks.typedAs {slot : Slot} {schema : Schema} {field marked : FieldDraft}
    (h : slot.Marks job facts schema field marked)
    (hfield : TypedAs job facts draft field.type field.typeName) :
    TypedAs job facts draft marked.type marked.typeName := by
  cases slot with
  | property name required comment =>
    have h : Presence job facts schema required field marked := h
    cases h with
    | unmarked => exact hfield
    | held _ _ _ _ hholder himport => exact .holder hholder himport
    | optional _ _ _ _ _ => exact hfield
  | item list =>
    cases (h : marked = field)
    exact hfield
  | variant union index group =>
    cases (h : marked = field)
    exact hfield

/-- A slot leaves the type of its field as it is. -/
theorem Slot.type_set (slot : Slot) (description : Option String) (field : FieldDraft) :
    (slot.set description field).type = field.type ∧
      (slot.set description field).typeName = field.typeName := by
  cases slot <;> exact ⟨rfl, rfl⟩

/-- A component that stands for an inline type gives the field its own kind. -/
theorem StandsIn.typedAs {name : String} {result : ComponentType}
    (h : StandsIn job facts name result) :
    TypedAs job facts draft (if result.isEnum then .enum else .message) (some name) := by
  cases h with
  | schema _ hresult hkind =>
    refine .component (.inl hresult) ?_
    rcases hkind with rfl | rfl
    · exact .inl ⟨rfl, rfl⟩
    · exact .inr ⟨rfl, rfl⟩
  | body _ hresult hkind =>
    refine .component (.inr hresult) ?_
    rcases hkind with rfl | rfl
    · exact .inl ⟨rfl, rfl⟩
    · exact .inr ⟨rfl, rfl⟩
  | inProgress hname => exact .borrowed hname

/-- The field that takes the place of an inline schema is typed, in a message that has the fields of
the parent and its nested types. -/
theorem TakenIn.typedAs {fieldName : String} {allowRepeated : Bool} {field : FieldDraft}
    (h : TakenIn job facts parent fieldName child allowRepeated (grown, field))
    (hstep : parent.InStep) (hchild : WellTyped job facts child) :
    grown.fields = parent.fields ∧ parent.typeNames ⊆ grown.typeNames ∧
      TypedAs job facts grown field.type field.typeName := by
  cases h with
  | enum _ _ =>
    exact ⟨by simp, MessageDraft.typeNames_subset_addEnum _ _,
      .nested (.inr rfl) (hstep.mem_typeNames_addEnum _)⟩
  | enumComponent _ hnested =>
    cases hnested with
    | stoodFor hstand hkind =>
      have htyped : TypedAs job facts parent (if _ then .enum else .message) _ := hstand.typedAs
      rw [hkind] at htyped
      exact ⟨rfl, List.Subset.refl _, htyped⟩
  | @unwrapped unwrapped _ _ hunwrap =>
    obtain ⟨-, hfields, hmessages, henums⟩ := MessageDraft.unwrap?_eq_some hunwrap
    have hfield : TypedAs job facts child unwrapped.field.type unwrapped.field.typeName :=
      hchild _ (by simp [hfields])
    refine ⟨MessageDraft.fields_nestAll, MessageDraft.typeNames_subset_nestAll, hfield.mono ?_⟩
    -- the types that the field may name have moved with it
    rw [hmessages, henums]
    exact hstep.typeNames_subset_nestAll_of child
  | message _ _ =>
    exact ⟨by simp, MessageDraft.typeNames_subset_addMessage _ _,
      .nested (.inl rfl) (hstep.mem_typeNames_addMessage _)⟩
  | component _ hnested =>
    cases hnested with
    | stoodFor hstand hkind =>
      have htyped : TypedAs job facts parent (if _ then .enum else .message) _ := hstand.typedAs
      rw [hkind] at htyped
      exact ⟨rfl, List.Subset.refl _, htyped⟩

end

/-- Every step that puts a message together keeps its fields typed. -/
theorem wellTyped_stable (job : Job) (facts : Facts) :
    Stable job facts (WellTyped job facts) where
  fresh _ _ _ := .of_fields_eq_nil rfl
  union _ _ := .of_fields_eq_nil rfl
  scalar text schema type hshape :=
    .addField rfl (.of_fields_eq_nil rfl) (List.Subset.refl _)
      (.scalar (scalarType?_isNamed hshape))
  enum text schema literals draft s s' hrun := by
    obtain ⟨⟨enum, -, rfl⟩, -⟩ := enumCarrier_eq_ok hrun
    exact .of_fields_eq_nil rfl
  refer parent slot reference result hnames _ hparent := by
    obtain ⟨key, _, -, -, hresult⟩ := hnames
    cases result with
    | message type =>
      refine .addField rfl hparent (List.Subset.refl _) ?_
      rw [(slot.type_set _ _).1, (slot.type_set _ _).2]
      exact .component (.inl hresult) (.inl ⟨rfl, rfl⟩)
    | enum type =>
      refine .addField rfl hparent (List.Subset.refl _) ?_
      rw [(slot.type_set _ _).1, (slot.type_set _ _).2]
      exact .component (.inl hresult) (.inr ⟨rfl, rfl⟩)
    | nothing => exact hparent
  taken parent child grown slot schema field marked _ _ htaken hmarks hstep _ hparent hchild := by
    obtain ⟨hfields, hmore, hfield⟩ := htaken.typedAs hstep hchild
    refine .addField hfields hparent hmore ?_
    rw [(slot.type_set _ _).1, (slot.type_set _ _).2]
    exact hmarks.typedAs hfield
  renamed parent child name _ hchild field hfield := (hchild field hfield).mono fun _ h => h
  merge draft other hstep _ hdraft hother field hfield := by
    rcases MessageDraft.mem_fields_merge hfield with hmem | ⟨original, hmem, rfl⟩
    · exact (hdraft field hmem).mono MessageDraft.typeNames_subset_merge_left
    · exact (hother original hmem).mono hstep.typeNames_subset_merge_right
  moveToFront draft order hdraft field hfield :=
    (hdraft field (MessageDraft.mem_fields_moveToFront.mp hfield)).mono (List.Subset.refl _)
  comment draft comment hdraft field hfield := (hdraft field hfield).mono fun _ h => h
  payload _ _ _ _ := .of_fields_eq_nil rfl

end Protoscribe.Compile
