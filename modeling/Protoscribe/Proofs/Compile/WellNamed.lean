import Protoscribe.Proofs.Compile.Everywhere
import Protoscribe.Proofs.Compile.FreeName
import Protoscribe.Proofs.Identifier

/-!
# `Protoscribe.Proofs.Compile.WellNamed`: all types have plain names

Names of messages and enums come from `messageName`, some with a suffix or a number behind it. A
kind of names that all of these belong to (`NamesTypes`) is the kind of all names of types in every
drafted message, at every depth (`named_stable`). With the names of fields in it, it is the kind of
all names in these messages (`allNamed_stable`). Plain names are one such kind (`wellNamed_stable`),
also for the names that components became (`Justified.plain_of_lookup`).
-/

set_option autoImplicit false

namespace Protoscribe.Compile

open OpenApi (Schema Verb)

/-- A message and the enums nested in it have names of a kind. -/
structure Named (kind : String → Prop) (draft : MessageDraft) : Prop where
  name : kind draft.name
  enums : ∀ enum ∈ draft.enums, kind enum.name

/-- A type that must not be taken for a component gets a name of the same kind. -/
def KeptByRenaming (kind : String → Prop) : Prop :=
  ∀ name suffix (n : Nat), suffix = "Enum" ∨ suffix = "Message" → kind name →
    kind (name ++ suffix ++ if n < 2 then "" else toString n)

/-- All ways by which types get their names lead to names of a kind. -/
structure NamesTypes (job : Job) (kind : String → Prop) : Prop where
  text : ∀ text, kind (job.messageName text)
  renamed : KeptByRenaming kind
  payload : ∀ path verb suffix, suffix = "Request" ∨ suffix = "Response" →
    kind (job.methodName path verb ++ suffix)

/-- The fields of a message have names of a kind. -/
def FieldsNamed (kind : String → Prop) (draft : MessageDraft) : Prop :=
  ∀ field ∈ draft.fields, kind field.name

/-- All names that stand in a message are of a kind: its own, and those of enums, fields and oneof
groups. -/
structure AllNamed (kind : String → Prop) (draft : MessageDraft) : Prop extends
    Named kind draft where
  fields : FieldsNamed kind draft
  oneofs : ∀ name ∈ draft.oneofs, kind name

/-- A message and the enums nested in it have plain names. -/
abbrev WellNamed : MessageDraft → Prop :=
  Named Plain

/-- Message names hold only letters, digits and underscores. -/
theorem Job.messageName_plain (job : Job) (text : String) : Plain (job.messageName text) :=
  Acronyms.messageName_plain _ _

/-- So do the names of components. -/
theorem Job.plain_of_mem_componentNames {job : Job} {name : String}
    (h : name ∈ job.componentNames) : Plain name := by
  obtain ⟨key, -, rfl⟩ := List.mem_map.mp h
  exact job.messageName_plain key

/-- So do the names of methods. -/
theorem Job.methodName_plain (job : Job) (path : String) (verb : Verb) :
    Plain (job.methodName path verb) := by
  refine (job.messageName_plain _).append (Plain.join fun part hpart => ?_)
  obtain ⟨segment, -, rfl⟩ := List.mem_map.mp hpart
  exact job.messageName_plain _

/-- A free name is made from the one that is not free. -/
theorem freeTypeName_eq (file : FileDraft) (parent : MessageDraft) (name suffix : String) :
    ∃ n : Nat, freeTypeName file parent name suffix =
      name ++ suffix ++ if n < 2 then "" else toString n :=
  exists_firstFree_eq _ _ _ _

section

variable {job : Job} {facts : Facts} {kind : String → Prop}

/-- A nested type is named in the same way as before it was renamed. -/
theorem NestedAs.ofKind (hkept : KeptByRenaming kind) {parent : MessageDraft}
    {name nested : String} {isEnum : Bool}
    (h : NestedAs job facts parent name isEnum (some nested)) (hname : kind name) :
    kind nested := by
  cases h with
  | own => exact hname
  | renamed file _ _ =>
    obtain ⟨n, hn⟩ := freeTypeName_eq file parent name (if isEnum then "Enum" else "Message")
    rw [hn]
    exact hkept name _ n (by cases isEnum <;> simp) hname

namespace Named

variable {parent child grown : MessageDraft}

/-- A field is no type. -/
theorem addField (h : Named kind parent) (field : FieldDraft) :
    Named kind (parent.addField field) :=
  ⟨by simpa using h.name, by simpa using h.enums⟩

/-- A field that refers to a type is no type. -/
theorem refer (h : Named kind parent) (slot : Slot) (result : ComponentType) :
    Named kind (slot.refer parent result) := by
  rcases slot.refer_cases parent result with heq | ⟨_, field, -, -, heq⟩
  · rw [heq]
    exact h
  · rw [heq]
    exact h.addField field

/-- What is taken in brings its enums, under other names where these must not be taken for
components. -/
theorem taken (hkept : KeptByRenaming kind) {fieldName : String} {allowRepeated : Bool}
    {field : FieldDraft} (h : Named kind parent)
    (htaken : TakenIn job facts parent fieldName child allowRepeated (grown, field))
    (hchild : Named kind child) : Named kind grown := by
  -- only the enums change: that of the carrier comes in, or those of a wrapper do
  cases htaken with
  | enum hcarried hnested =>
    refine ⟨by simpa using h.name, fun other hother => ?_⟩
    rcases MessageDraft.mem_enums_addEnum hother with hmem | rfl
    · exact h.enums other hmem
    · obtain ⟨-, -, henums⟩ := MessageDraft.carriedEnum?_eq_some_iff.mp hcarried
      exact hnested.ofKind hkept (hchild.enums _ (by simp [henums]))
  | enumComponent _ _ => exact h
  | unwrapped _ _ hunwrap =>
    obtain ⟨-, -, -, henums⟩ := MessageDraft.unwrap?_eq_some hunwrap
    refine ⟨?_, fun other hother => ?_⟩
    · show kind (MessageDraft.nestAll parent _ _).name
      rw [MessageDraft.name_nestAll]
      exact h.name
    · rcases MessageDraft.mem_enums_nestAll hother with hmem | hmem
      · exact h.enums other hmem
      · exact hchild.enums other (henums ▸ hmem)
  | message _ _ => exact ⟨by simpa using h.name, by simpa using h.enums⟩
  | component _ _ => exact h

/-- The types of two messages are those of their merge. -/
theorem merge {draft other : MessageDraft} (h : Named kind draft) (hother : Named kind other) :
    Named kind (draft.merge other) := by
  refine ⟨by simpa using h.name, fun enum henum => ?_⟩
  rcases MessageDraft.mem_enums_merge henum with hmem | hmem
  · exact h.enums enum hmem
  · exact hother.enums enum hmem

/-- A message may be renamed when it is nested. -/
theorem renamed (hkept : KeptByRenaming kind) {name : String} (h : Named kind child)
    (hname : NestedAs job facts parent child.name false (some name)) :
    Named kind { child with name } :=
  ⟨hname.ofKind hkept h.name, h.enums⟩

/-- The message that carries an enum has the name of the enum. -/
theorem of_enumCarrier {name : String} {schema : Schema} {literals : List Value}
    {draft : MessageDraft} {s s' : State} (hname : kind name)
    (hrun : enumCarrier job name schema literals s = .ok draft s') : Named kind draft := by
  obtain ⟨⟨enum, henum, rfl⟩, -⟩ := enumCarrier_eq_ok hrun
  refine ⟨hname, fun other hother => ?_⟩
  cases List.mem_singleton.mp hother
  rw [henum]
  exact hname

end Named

/-- Every step that puts a message together names types in one of these ways. -/
theorem named_stable (hkind : NamesTypes job kind) (facts : Facts) :
    Stable job facts (Named kind) where
  fresh text _ _ := ⟨hkind.text text, by simp⟩
  union text _ := ⟨hkind.text text, by simp [unionStart, MessageDraft.addOneof]⟩
  scalar text schema type _ := by
    refine ⟨?_, ?_⟩
    · simpa [scalarWrapper] using hkind.text text
    · simp [scalarWrapper]
  enum text _ _ _ _ _ hrun := .of_enumCarrier (hkind.text text) hrun
  refer _ slot _ result _ _ hparent := hparent.refer slot result
  taken parent child grown slot schema field marked _ _ htaken _ _ _ hparent hchild := by
    -- the field itself has no part in the names of types
    have hgrown : Named kind grown := hparent.taken hkind.renamed htaken hchild
    exact hgrown.addField _
  renamed _ _ _ hname hchild := hchild.renamed hkind.renamed hname
  merge _ _ _ _ hdraft hother := hdraft.merge hother
  moveToFront _ _ hdraft := ⟨hdraft.name, hdraft.enums⟩
  comment _ _ hdraft := ⟨hdraft.name, hdraft.enums⟩
  payload path verb suffix hsuffix := ⟨hkind.payload path verb suffix hsuffix, by simp⟩

/-! ### Fields and groups -/

section

variable {draft other parent child grown : MessageDraft} {slot : Slot} {field marked : FieldDraft}

namespace FieldsNamed

/-- A message without fields names none. -/
theorem of_nil (hfields : draft.fields = []) : FieldsNamed kind draft := by
  simp [FieldsNamed, hfields]

/-- A field that is added has to be named in the given way. -/
theorem addField (h : FieldsNamed kind draft) (hfield : kind field.name) :
    FieldsNamed kind (draft.addField field) := by
  intro other hother
  rcases MessageDraft.mem_fields_addField hother with hmem | rfl
  · exact h other hmem
  · exact hfield

/-- A field that refers to a type is named after the type, or by its slot. -/
theorem refer (h : FieldsNamed kind parent) {result : ComponentType}
    (hfield : ∀ type, result = .message type ∨ result = .enum type → kind (slot.fieldName type)) :
    FieldsNamed kind (slot.refer parent result) := by
  rcases slot.refer_cases parent result with heq | ⟨type, field, htype, hname, heq⟩
  · rw [heq]
    exact h
  · rw [heq]
    exact h.addField (hname ▸ hfield type htype)

/-- A field for a child is named after the child, or by its slot. -/
theorem taken {schema : Schema} (h : FieldsNamed kind parent)
    (htaken : TakenIn job facts parent (slot.fieldName child.name) child slot.allowsRepeated
      (grown, field))
    (hmarks : slot.Marks job facts schema field marked)
    (hfield : kind (slot.fieldName child.name)) :
    FieldsNamed kind (grown.addField (slot.set schema.description marked)) := by
  obtain ⟨-, hfields, hname, -, -⟩ := htaken.field_eq
  have hgrown : FieldsNamed kind grown := fun other hother => h other (hfields ▸ hother)
  refine hgrown.addField ?_
  rw [Slot.name_set, hmarks.field_eq.1, hname]
  exact hfield

/-- The fields of two messages are named in the given way if those of both are. -/
theorem merge (h : FieldsNamed kind draft) (hother : FieldsNamed kind other) :
    FieldsNamed kind (draft.merge other) := by
  intro field hfield
  rcases MessageDraft.mem_fields_merge hfield with hmem | ⟨original, hmem, rfl⟩
  · exact h field hmem
  · exact hother original hmem

/-- Another order of the fields leaves their names alone. -/
theorem moveToFront (h : FieldsNamed kind draft) (order : List String) :
    FieldsNamed kind (draft.moveToFront order) :=
  fun field hfield => h field (MessageDraft.mem_fields_moveToFront.mp hfield)

end FieldsNamed

/-- When all names that are made for fields are of a kind, every step keeps the fields of a message
in the kind. -/
theorem fieldsNamed_stable (hfields : ∀ text, kind (Identifier.fieldName text)) (job : Job)
    (facts : Facts) : Stable job facts (FieldsNamed kind) where
  fresh _ _ _ := .of_nil rfl
  union _ _ := .of_nil rfl
  scalar _ _ _ _ := (FieldsNamed.of_nil rfl).addField (hfields _)
  enum _ _ _ _ _ _ hrun := by
    obtain ⟨⟨enum, -, rfl⟩, -⟩ := enumCarrier_eq_ok hrun
    exact .of_nil rfl
  refer _ slot _ _ _ _ hparent := by
    refine hparent.refer fun type _ => ?_
    obtain ⟨text, htext⟩ := slot.exists_fieldName type
    exact htext ▸ hfields text
  taken _ child _ slot _ _ _ _ _ htaken hmarks _ _ hparent _ := by
    obtain ⟨text, htext⟩ := slot.exists_fieldName child.name
    exact hparent.taken htaken hmarks (htext ▸ hfields text)
  renamed _ _ _ _ hchild := hchild
  merge _ _ _ _ hdraft hother := hdraft.merge hother
  moveToFront _ order hdraft := hdraft.moveToFront order
  comment _ _ hdraft := hdraft
  payload _ _ _ _ := .of_nil rfl

namespace AllNamed

/-- A message that has nothing but a name. -/
theorem of_name {name : String} (h : kind name) (comment : Option String) (wrapper : Bool) :
    AllNamed kind { name, comment, wrapper } :=
  { name := h, enums := by simp, fields := .of_nil rfl, oneofs := by simp }

/-- A union starts with one group, which is named after it. -/
theorem of_unionStart {name : String} (h : kind name) (hgroup : kind (Identifier.fieldName name))
    (schema : Schema) : AllNamed kind (unionStart name schema) where
  name := h
  enums := by simp [unionStart, MessageDraft.addOneof]
  fields := .of_nil rfl
  oneofs := by simpa [unionStart, MessageDraft.addOneof] using hgroup

/-- An enum is named after its schema. -/
theorem of_enumCarrier {name : String} {schema : Schema} {literals : List Value} {s s' : State}
    (hname : kind name) (hrun : enumCarrier job name schema literals s = .ok draft s') :
    AllNamed kind draft := by
  have htypes := Named.of_enumCarrier hname hrun
  obtain ⟨⟨enum, -, rfl⟩, -⟩ := enumCarrier_eq_ok hrun
  exact { htypes with fields := .of_nil rfl, oneofs := by simp }

/-- A field that is added has to be named in the given way, and changes nothing else. -/
theorem addField (h : AllNamed kind draft) (hfield : kind field.name) :
    AllNamed kind (draft.addField field) where
  toNamed := h.toNamed.addField field
  fields := h.fields.addField hfield
  oneofs := by simpa using h.oneofs

/-- A field that refers to a type is the only new name. -/
theorem refer (h : AllNamed kind parent) {result : ComponentType}
    (hfield : ∀ type, result = .message type ∨ result = .enum type → kind (slot.fieldName type)) :
    AllNamed kind (slot.refer parent result) := by
  rcases slot.refer_cases parent result with heq | ⟨type, field, htype, hname, heq⟩
  · rw [heq]
    exact h
  · rw [heq]
    exact h.addField (hname ▸ hfield type htype)

/-- A child brings the name of its field and its own one. -/
theorem taken (hkept : KeptByRenaming kind) {schema : Schema} (h : AllNamed kind parent)
    (htaken : TakenIn job facts parent (slot.fieldName child.name) child slot.allowsRepeated
      (grown, field))
    (hmarks : slot.Marks job facts schema field marked)
    (hfield : kind (slot.fieldName child.name)) (hchild : Named kind child) :
    AllNamed kind (grown.addField (slot.set schema.description marked)) where
  toNamed := (h.toNamed.taken hkept htaken hchild).addField _
  fields := h.fields.taken htaken hmarks hfield
  oneofs := by
    rw [MessageDraft.oneofs_addField, htaken.field_eq.1]
    exact h.oneofs

/-- A message may be renamed when it is nested, with all that is in it. -/
theorem renamed (hkept : KeptByRenaming kind) {name : String} (h : AllNamed kind child)
    (hname : NestedAs job facts parent child.name false (some name)) :
    AllNamed kind { child with name } :=
  { h.toNamed.renamed hkept hname with fields := h.fields, oneofs := h.oneofs }

/-- A merge brings no new names. -/
theorem merge (h : AllNamed kind draft) (hother : AllNamed kind other) :
    AllNamed kind (draft.merge other) where
  toNamed := h.toNamed.merge hother.toNamed
  fields := h.fields.merge hother.fields
  oneofs name hname := by
    rw [MessageDraft.oneofs_merge] at hname
    rcases List.mem_append.mp hname with hmem | hmem
    · exact h.oneofs name hmem
    · exact hother.oneofs name hmem

/-- Another order of the fields brings no new names. -/
theorem moveToFront (h : AllNamed kind draft) (order : List String) :
    AllNamed kind (draft.moveToFront order) where
  toNamed := ⟨h.name, h.enums⟩
  fields := h.fields.moveToFront order
  oneofs := h.oneofs

/-- A comment is no name. -/
theorem comment (h : AllNamed kind draft) (comment : Option String) :
    AllNamed kind { draft with comment } :=
  { name := h.name, enums := h.enums, fields := h.fields, oneofs := h.oneofs }

end AllNamed

end

/-- When all names of types are of a kind, and so are all names of fields, every step keeps the
names of a message in the kind. -/
theorem allNamed_stable (hkind : NamesTypes job kind)
    (hfields : ∀ text, kind (Identifier.fieldName text)) (facts : Facts) :
    Stable job facts (AllNamed kind) where
  fresh text comment wrapper := .of_name (hkind.text text) comment wrapper
  union text schema := .of_unionStart (hkind.text text) (hfields _) schema
  scalar text schema type _ := (AllNamed.of_name (hkind.text text) _ _).addField (hfields _)
  enum text _ _ _ _ _ hrun := .of_enumCarrier (hkind.text text) hrun
  refer _ slot _ _ _ _ hparent := by
    refine hparent.refer fun type _ => ?_
    obtain ⟨text, htext⟩ := slot.exists_fieldName type
    exact htext ▸ hfields text
  taken _ child _ slot _ _ _ _ _ htaken hmarks _ _ hparent hchild := by
    obtain ⟨text, htext⟩ := slot.exists_fieldName child.name
    exact hparent.taken hkind.renamed htaken hmarks (htext ▸ hfields text) hchild.toNamed
  renamed _ _ _ hname hchild := hchild.renamed hkind.renamed hname
  merge _ _ _ _ hdraft hother := hdraft.merge hother
  moveToFront _ order hdraft := hdraft.moveToFront order
  comment _ comment hdraft := hdraft.comment comment
  payload path verb suffix hsuffix := .of_name (hkind.payload path verb suffix hsuffix) none false

end

/-! ### Plain names -/

/-- Names that hold only letters, digits and underscores keep this when a suffix and a number come
behind them. -/
theorem plain_namesTypes (job : Job) : NamesTypes job Plain where
  text := job.messageName_plain
  renamed name suffix n hsuffix hname := by
    refine (hname.append ?_).append ?_
    · rcases hsuffix with rfl | rfl <;> decide
    · split
      · decide
      · exact plain_toString n
  payload path verb suffix hsuffix := by
    refine (job.methodName_plain path verb).append ?_
    rcases hsuffix with rfl | rfl <;> decide

/-- Every step that puts a message together keeps the names plain. -/
theorem wellNamed_stable (job : Job) (facts : Facts) : Stable job facts WellNamed :=
  named_stable (plain_namesTypes job) facts

/-- What a component became has a name of the kind that its message has. -/
theorem Became.ofKind {file : FileDraft} {compiled : Option MessageDraft} {result : ComponentType}
    {kind : String → Prop} (h : Became file compiled result)
    (hnamed : ∀ draft ∈ compiled, Named kind draft) {name : String}
    (hname : result = .message name ∨ result = .enum name) : kind name := by
  cases h with
  | nothing _ => simp at hname
  | enum _ hcarried _ =>
    obtain ⟨-, -, henums⟩ := MessageDraft.carriedEnum?_eq_some_iff.mp hcarried
    rcases hname with hname | hname <;> cases hname
    exact (hnamed _ rfl).enums _ (by simp [henums])
  | message _ _ _ =>
    rcases hname with hname | hname <;> cases hname
    exact (hnamed _ rfl).name

/-- What a component became has a plain name. -/
theorem Justified.plain_of_lookup {job : Job} {s : State} (h : Justified job s) {key : String}
    {result : ComponentType} (hresult : s.schemas.lookup key = some result) {name : String}
    (hname : result = .message name ∨ result = .enum name) : Plain name := by
  obtain ⟨before, after, hsplit⟩ := List.append_of_mem (Table.mem_of_lookup_eq_some hresult)
  obtain ⟨node, compiled, facts, -, -, -, hderives, hbecame⟩ :=
    h.schemas before key result after hsplit
  have hnamed := hderives.everywhere (wellNamed_stable job facts) trivial (by simp [Task.start?])
  exact hbecame.ofKind (fun draft hdraft => (hnamed draft hdraft).here) hname

/-- Without finished messages, the names of all types of a file are of the kind. -/
theorem Justified.ofKind_of_mem_typeNames {job : Job} {s : State} {kind : String → Prop}
    (hkind : NamesTypes job kind) (h : Justified job s)
    (hnone : job.config.additionalMessages = []) {name : String}
    (hname : name ∈ s.file.typeNames) : kind name := by
  rcases List.mem_append.mp hname with hname | hname
  · obtain ⟨message, hmessage, rfl⟩ := List.mem_map.mp hname
    cases message with
    | drafted draft =>
      exact ((h.messages draft hmessage).everywhere (named_stable hkind s.facts)).here.name
    | finished descriptor =>
      have hmem := h.finished descriptor hmessage
      simp [hnone] at hmem
  · obtain ⟨enum, henum, rfl⟩ := List.mem_map.mp hname
    obtain ⟨hint, node, draft, hderives, hcarried⟩ := h.enums enum henum
    obtain ⟨-, -, henums⟩ := MessageDraft.carriedEnum?_eq_some_iff.mp hcarried
    exact (hderives.everywhere (named_stable hkind s.facts) trivial (by simp [Task.start?])
      _ rfl).here.enums _ (by simp [henums])

/-- So every type of a file without prebuilt messages has such a name. -/
theorem Justified.plain_of_mem_typeNames {job : Job} {s : State} (h : Justified job s)
    (hnone : job.config.additionalMessages = []) {name : String}
    (hname : name ∈ s.file.typeNames) : Plain name :=
  h.ofKind_of_mem_typeNames (plain_namesTypes job) hnone hname

end Protoscribe.Compile
