import Protoscribe.Draft.File
import Protoscribe.Proofs.Draft.Message

/-!
# `Protoscribe.Proofs.Draft.Uncommented`: drafts without their comments

`uncommented` takes the comments out of a draft, at every depth. Members, numbers and registries of
names stay. No operation on drafts looks at a comment: each of them does the same to the draft
without comments. What is finished without comments is the finished file without its source
information (`FileDraft.build_uncommented`).
-/

set_option autoImplicit false

namespace Protoscribe

/-- The field without its comment. -/
def FieldDraft.uncommented (field : FieldDraft) : FieldDraft :=
  { field with comment := none }

/-- The enum without its comment. -/
def EnumDraft.uncommented (draft : EnumDraft) : EnumDraft :=
  { draft with comment := none }

/-- The method without its comment. -/
def MethodDraft.uncommented (draft : MethodDraft) : MethodDraft :=
  { draft with comment := none }

/-- The service without comments. -/
def ServiceDraft.uncommented (draft : ServiceDraft) : ServiceDraft :=
  { draft with comment := none, methods := draft.methods.map MethodDraft.uncommented }

/-- The names of the methods stay taken. -/
theorem ServiceDraft.hasMethod_uncommented (draft : ServiceDraft) (name : String) :
    draft.uncommented.hasMethod name = draft.hasMethod name :=
  rfl

/-- Whether a method comes in depends on its name, not on its comment. -/
theorem ServiceDraft.addMethod_uncommented (draft : ServiceDraft) (method : MethodDraft) :
    draft.uncommented.addMethod method.uncommented = (draft.addMethod method).uncommented := by
  have htaken : draft.uncommented.hasMethod method.uncommented.name = draft.hasMethod method.name :=
    draft.hasMethod_uncommented _
  have hname : method.uncommented.name = method.name := rfl
  rw [addMethod, addMethod, htaken]
  split
  · rfl
  · simp [uncommented, hname]

/-- A finished service has no comments. -/
theorem ServiceDraft.build_uncommented (draft : ServiceDraft) :
    draft.uncommented.build = draft.build := by
  rw [build, build, uncommented, List.map_map]
  rfl

namespace MessageDraft

mutual

/-- The message without comments, at every depth. -/
def uncommented : MessageDraft → MessageDraft
  | ⟨name, _, numbered, messages, enums, oneofs, takenFields, takenTypes, wrapper⟩ =>
    { name
      numbered := numbered.map fun entry => (entry.1, entry.2.uncommented)
      messages := uncommentedAll messages
      enums := enums.map EnumDraft.uncommented
      oneofs
      takenFields
      takenTypes
      wrapper }

/-- Messages without comments. -/
def uncommentedAll : List MessageDraft → List MessageDraft
  | [] => []
  | draft :: rest => uncommented draft :: uncommentedAll rest

end

/-- The comments are taken out of each message by itself. -/
theorem uncommentedAll_eq_map (drafts : List MessageDraft) :
    uncommentedAll drafts = drafts.map uncommented := by
  induction drafts with
  | nil => rfl
  | cons draft rest ih => rw [uncommentedAll, ih, List.map_cons]

/-- Of a message, only its own comment and those of its fields and nested types go. -/
theorem uncommented_eq (draft : MessageDraft) :
    draft.uncommented =
      { draft with
        comment := none
        numbered := draft.numbered.map fun entry => (entry.1, entry.2.uncommented)
        messages := draft.messages.map uncommented
        enums := draft.enums.map EnumDraft.uncommented } := by
  cases draft
  rw [uncommented, uncommentedAll_eq_map]

variable (draft : MessageDraft)

/-- The name is no comment. -/
@[simp] theorem name_uncommented : draft.uncommented.name = draft.name := by
  rw [uncommented_eq]

/-- No comment is left. -/
@[simp] theorem comment_uncommented : draft.uncommented.comment = none := by
  rw [uncommented_eq]

/-- Every field keeps its stored number. -/
@[simp] theorem numbered_uncommented :
    draft.uncommented.numbered =
      draft.numbered.map fun entry => (entry.1, entry.2.uncommented) := by
  rw [uncommented_eq]

/-- The fields lose their own comments. -/
@[simp] theorem fields_uncommented :
    draft.uncommented.fields = draft.fields.map FieldDraft.uncommented := by
  rw [fields, numbered_uncommented, List.map_map, fields, List.map_map]
  rfl

/-- The nested messages lose theirs. -/
@[simp] theorem messages_uncommented :
    draft.uncommented.messages = draft.messages.map uncommented := by
  rw [uncommented_eq]

/-- So do the nested enums. -/
@[simp] theorem enums_uncommented :
    draft.uncommented.enums = draft.enums.map EnumDraft.uncommented := by
  rw [uncommented_eq]

/-- The oneof groups have no comments. -/
@[simp] theorem oneofs_uncommented : draft.uncommented.oneofs = draft.oneofs := by
  rw [uncommented_eq]

/-- It does not matter whether a message loses its comments or gets its name first. -/
theorem rename_uncommented (name : String) :
    { draft.uncommented with name } = uncommented { draft with name } := by
  rw [uncommented_eq, uncommented_eq]

/-- A comment that is put on a message is lost with the others. -/
theorem recomment_uncommented (comment : Option String) :
    { draft.uncommented with comment := none } = uncommented { draft with comment } := by
  rw [uncommented_eq, uncommented_eq]

/-! ### What is asked about a message -/

/-- The names of the fields stay taken. -/
@[simp] theorem hasField_uncommented (name : String) :
    draft.uncommented.hasField name = draft.hasField name := by
  rw [hasField, hasField, uncommented_eq]

/-- The names of the nested types stay taken. -/
@[simp] theorem hasNestedType_uncommented (name : String) :
    draft.uncommented.hasNestedType name = draft.hasNestedType name := by
  rw [hasNestedType, hasNestedType, uncommented_eq]

/-- A message is not empty because of a comment. -/
@[simp] theorem isEmpty_uncommented : draft.uncommented.isEmpty = draft.isEmpty := by
  simp [isEmpty]

/-- What a message wraps is no matter of comments. -/
@[simp] theorem wrapper_uncommented : draft.uncommented.wrapper = draft.wrapper := by
  rw [uncommented_eq]

/-- A wrapper is one without its comments too. -/
@[simp] theorem isWrapper_uncommented : draft.uncommented.isWrapper = draft.isWrapper := by
  simp [isWrapper]

/-- A message carries an enum when there is neither a field nor another type beside it, whatever the
comments say. -/
theorem carriedEnum?_uncommented :
    draft.uncommented.carriedEnum? = draft.carriedEnum?.map EnumDraft.uncommented := by
  rw [carriedEnum?, carriedEnum?, fields_uncommented, messages_uncommented, enums_uncommented]
  rcases draft.fields with - | ⟨field, fields⟩
  · rcases draft.messages with - | ⟨nested, messages⟩
    · rcases draft.enums with - | ⟨only, - | ⟨other, enums⟩⟩ <;> rfl
    · rfl
  · rfl

end MessageDraft

/-- The field of a wrapper and the nested types that come along, without comments. -/
def Unwrapped.uncommented (unwrapped : Unwrapped) : Unwrapped where
  field := unwrapped.field.uncommented
  messages := unwrapped.messages.map MessageDraft.uncommented
  enums := unwrapped.enums.map EnumDraft.uncommented

namespace MessageDraft

variable (draft : MessageDraft)

/-- A wrapper is taken apart into the same parts. -/
theorem unwrap?_uncommented :
    draft.uncommented.unwrap? = draft.unwrap?.map Unwrapped.uncommented := by
  rw [unwrap?, unwrap?, fields_uncommented, isWrapper_uncommented, messages_uncommented,
    enums_uncommented]
  rcases draft.fields with - | ⟨only, - | ⟨other, rest⟩⟩
  · rfl
  · cases draft.isWrapper <;> rfl
  · rfl

/-! ### What is done to a message -/

/-- A field comes in, or does not, because of its name. -/
theorem addField_uncommented (field : FieldDraft) :
    draft.uncommented.addField field.uncommented = (draft.addField field).uncommented := by
  have htaken : draft.uncommented.hasField field.uncommented.name = draft.hasField field.name :=
    draft.hasField_uncommented _
  have hname : field.uncommented.name = field.name := rfl
  rw [addField, addField, htaken]
  split
  · rfl
  · simp [uncommented_eq, hname]

/-- A message is nested, or is not, because of its name. -/
theorem addMessage_uncommented (nested : MessageDraft) :
    draft.uncommented.addMessage nested.uncommented = (draft.addMessage nested).uncommented := by
  rw [addMessage, addMessage, hasNestedType_uncommented, name_uncommented]
  split
  · rfl
  · rw [uncommented_eq draft, uncommented_eq (MessageDraft.mk ..)]
    simp

/-- An enum is nested, or is not, because of its name. -/
theorem addEnum_uncommented (nested : EnumDraft) :
    draft.uncommented.addEnum nested.uncommented = (draft.addEnum nested).uncommented := by
  have htaken :
      draft.uncommented.hasNestedType nested.uncommented.name = draft.hasNestedType nested.name :=
    draft.hasNestedType_uncommented _
  have hname : nested.uncommented.name = nested.name := rfl
  rw [addEnum, addEnum, htaken]
  split
  · rfl
  · simp [uncommented_eq, hname]

/-- The next group has the same index. -/
theorem nextOneof_uncommented : draft.uncommented.nextOneof = draft.nextOneof := by
  simp [nextOneof]

/-- A loop that adds one thing after the other adds the same to the message without comments. -/
theorem foldl_uncommented {α : Type} {add : MessageDraft → α → MessageDraft} {erase : α → α}
    (hadd : ∀ draft item, add (uncommented draft) (erase item) = (add draft item).uncommented)
    (items : List α) (draft : MessageDraft) :
    (items.map erase).foldl add draft.uncommented = (items.foldl add draft).uncommented := by
  rw [List.foldl_map]
  exact List.foldl_hom uncommented hadd

/-- All types of a list are nested alike. -/
theorem nestAll_uncommented (messages : List MessageDraft) (enums : List EnumDraft) :
    draft.uncommented.nestAll (messages.map uncommented) (enums.map EnumDraft.uncommented) =
      (draft.nestAll messages enums).uncommented := by
  rw [nestAll, foldl_uncommented addMessage_uncommented, foldl_uncommented addEnum_uncommented,
    ← nestAll]

/-- A merge adds the same members, and it counts their groups alike. -/
theorem merge_uncommented (other : MessageDraft) :
    draft.uncommented.merge other.uncommented = (draft.merge other).uncommented := by
  have hfields : other.uncommented.fields.map draft.uncommented.shift =
      (other.fields.map draft.shift).map FieldDraft.uncommented := by
    rw [fields_uncommented, List.map_map, List.map_map]
    refine List.map_congr_left fun field _ => ?_
    simp [shift, FieldDraft.uncommented, nextOneof_uncommented]
  have hgrouped :
      { draft.uncommented with oneofs := draft.uncommented.oneofs ++ other.uncommented.oneofs } =
        uncommented { draft with oneofs := draft.oneofs ++ other.oneofs } := by
    simp [uncommented_eq]
  rw [merge_eq, merge_eq, hfields, hgrouped, foldl_uncommented addField_uncommented,
    messages_uncommented, enums_uncommented, nestAll_uncommented]

/-- A field is found by its name. -/
theorem extractField_uncommented (name : String) (fields : List FieldDraft) :
    extractField name (fields.map FieldDraft.uncommented) =
      (extractField name fields).map fun found =>
        (found.1.uncommented, found.2.map FieldDraft.uncommented) := by
  induction fields with
  | nil => rfl
  | cons field rest ih =>
    rw [List.map_cons, extractField, extractField, ih]
    show (if field.name = name then _ else _) = _
    split
    · rfl
    · rw [Option.map_map, Option.map_map]
      rfl

/-- An order names fields, so it puts them into the same order. -/
theorem inOrder_uncommented (order : List String) (fields : List FieldDraft) :
    inOrder order (fields.map FieldDraft.uncommented) =
      (inOrder order fields).map FieldDraft.uncommented := by
  induction order generalizing fields with
  | nil => rfl
  | cons name order ih =>
    rw [inOrder, inOrder, extractField_uncommented]
    cases extractField name fields with
    | none => exact ih fields
    | some found => exact congrArg (_ :: ·) (ih found.2)

/-- Fields without comments get the same numbers. -/
theorem renumber_uncommented (fields : List FieldDraft) :
    renumber (fields.map FieldDraft.uncommented) =
      (renumber fields).map fun entry => (entry.1, entry.2.uncommented) := by
  refine List.ext_getElem? fun place => ?_
  simp [renumber, Function.comp_def]

/-- Fields are moved and numbered alike. -/
theorem moveToFront_uncommented (order : List String) :
    draft.uncommented.moveToFront order = (draft.moveToFront order).uncommented := by
  rw [moveToFront, fields_uncommented, inOrder_uncommented, renumber_uncommented,
    uncommented_eq draft, uncommented_eq (draft.moveToFront order)]
  rfl

/-! ### The finished message -/

/-- Finished fields have no comments. -/
theorem buildFields_uncommented (groups : Nat) (numbered : List (Int32 × FieldDraft)) :
    buildFields groups (numbered.map fun entry => (entry.1, entry.2.uncommented)) =
      buildFields groups numbered := by
  induction numbered generalizing groups with
  | nil => rfl
  | cons entry rest ih =>
    have hsynthetic : entry.2.uncommented.isSynthetic = entry.2.isSynthetic := rfl
    rw [List.map_cons, buildFields, buildFields, hsynthetic, ih, ih]
    rfl

/-- Groups are named after fields. -/
theorem oneofNames_uncommented (declared : List String) (fields : List FieldDraft) :
    oneofNames declared (fields.map FieldDraft.uncommented) = oneofNames declared fields := by
  rw [oneofNames, oneofNames, List.filter_map, List.map_map]
  rfl

mutual

/-- A finished message has no comments, at any depth. -/
theorem build_uncommented : ∀ draft : MessageDraft, draft.uncommented.build = draft.build
  | ⟨name, _, numbered, messages, enums, oneofs, _, _, _⟩ => by
    have hfields : (numbered.map fun entry => (entry.1, entry.2.uncommented)).map (·.2) =
        (numbered.map (·.2)).map FieldDraft.uncommented := by
      rw [List.map_map, List.map_map]
      rfl
    rw [uncommented, build, build, buildFields_uncommented, hfields, oneofNames_uncommented,
      buildAll_uncommented messages, List.map_map]
    rfl

/-- Finished messages have no comments. -/
theorem buildAll_uncommented : ∀ drafts : List MessageDraft,
    buildAll (uncommentedAll drafts) = buildAll drafts
  | [] => rfl
  | draft :: rest => by
    rw [uncommentedAll, buildAll, buildAll, build_uncommented draft, buildAll_uncommented rest]

end

end MessageDraft

namespace FileMessage

/-- The message without comments. A finished message has none. -/
def uncommented : FileMessage → FileMessage
  | .drafted draft => .drafted draft.uncommented
  | .finished descriptor => .finished descriptor

/-- Finished messages hold no comments. -/
theorem build_uncommented (message : FileMessage) :
    message.uncommented.build = message.build := by
  cases message with
  | drafted draft => exact draft.build_uncommented
  | finished descriptor => rfl

end FileMessage

namespace FileDraft

/-- The file without comments. -/
def uncommented (draft : FileDraft) : FileDraft :=
  { draft with
    packageComment := none
    messages := draft.messages.map FileMessage.uncommented
    enums := draft.enums.map EnumDraft.uncommented
    services := draft.services.map ServiceDraft.uncommented }

variable (draft : FileDraft)

/-- The names of the types stay taken. -/
@[simp] theorem hasType_uncommented (name : String) :
    draft.uncommented.hasType name = draft.hasType name :=
  rfl

/-- A message is declared, or is not, because of its name. -/
theorem addMessage_uncommented (message : MessageDraft) :
    draft.uncommented.addMessage message.uncommented = (draft.addMessage message).uncommented := by
  rw [addMessage, addMessage, hasType_uncommented, MessageDraft.name_uncommented]
  split
  · rfl
  · simp [uncommented, FileMessage.uncommented]

/-- Finished messages have no comments, and they come in because of their names. -/
theorem addFinished_uncommented (message : MessageDescriptor) :
    draft.uncommented.addFinished message = (draft.addFinished message).uncommented := by
  rw [addFinished, addFinished, hasType_uncommented]
  split
  · rfl
  · simp [uncommented, FileMessage.uncommented]

/-- An enum is declared, or is not, because of its name. -/
theorem addEnum_uncommented (enum : EnumDraft) :
    draft.uncommented.addEnum enum.uncommented = (draft.addEnum enum).uncommented := by
  have htaken : draft.uncommented.hasType enum.uncommented.name = draft.hasType enum.name :=
    draft.hasType_uncommented _
  have hname : enum.uncommented.name = enum.name := rfl
  rw [addEnum, addEnum, htaken]
  split
  · rfl
  · simp [uncommented, hname]

/-- A service comes in, or does not, because of its name. -/
theorem addService_uncommented (service : ServiceDraft) :
    draft.uncommented.addService service.uncommented = (draft.addService service).uncommented := by
  have htaken :
      draft.uncommented.hasService service.uncommented.name = draft.hasService service.name :=
    List.any_map
  rw [addService, addService, htaken]
  split
  · rfl
  · simp [uncommented]

/-- An import has no comment. -/
theorem addDependency_uncommented (name : String) :
    draft.uncommented.addDependency name = (draft.addDependency name).uncommented :=
  rfl

/-- A name that is kept free has no comment. -/
theorem reserve_uncommented (name : String) :
    draft.uncommented.reserve name = (draft.reserve name).uncommented := by
  have hreserved : draft.uncommented.isReserved name = draft.isReserved name := rfl
  rw [reserve, reserve, hreserved]
  split <;> rfl

/-! ### The finished file -/

/-- Where an item goes depends on its name alone. -/
theorem insertByName_map {α : Type} {name : α → String} {erase : α → α}
    (h : ∀ item, name (erase item) = name item) (item : α) (items : List α) :
    insertByName name (erase item) (items.map erase) =
      (insertByName name item items).map erase := by
  induction items with
  | nil => rfl
  | cons head rest ih =>
    rw [List.map_cons, insertByName, insertByName, h, h, ih]
    split <;> rfl

/-- Items whose names stay are sorted alike. -/
theorem sortByName_map {α : Type} {name : α → String} {erase : α → α}
    (h : ∀ item, name (erase item) = name item) (items : List α) :
    sortByName name (items.map erase) = (sortByName name items).map erase := by
  induction items with
  | nil => rfl
  | cons item rest ih =>
    exact (congrArg (insertByName name (erase item)) ih).trans (insertByName_map h item _)

/-- Enums are sorted by name, with comments or without. -/
theorem sortedEnums_uncommented :
    draft.uncommented.sortedEnums = draft.sortedEnums.map EnumDraft.uncommented := by
  have hname (enum : EnumDraft) : enum.uncommented.name = enum.name := rfl
  exact sortByName_map hname draft.enums

/-- Services are sorted by name, with comments or without. -/
theorem sortedServices_uncommented :
    draft.uncommented.sortedServices = draft.sortedServices.map ServiceDraft.uncommented := by
  have hname (service : ServiceDraft) : service.uncommented.name = service.name := rfl
  exact sortByName_map hname draft.services

end FileDraft

/-! ### No comment is stored -/

/-- Where nothing is stored for any item of a list, nothing is stored for the list. -/
theorem flatten_mapIdx_map_eq_nil {α β γ : Type} {erase : α → β} {store : Nat → β → List γ}
    (h : ∀ index item, store index (erase item) = []) (items : List α) :
    ((items.map erase).mapIdx store).flatten = [] := by
  rw [List.flatten_eq_nil_iff]
  intro stored hstored
  obtain ⟨index, hindex, rfl⟩ := List.mem_mapIdx.mp hstored
  rw [List.getElem_map]
  exact h index _

mutual

/-- A message without comments has no locations, at any depth. -/
theorem MessageDraft.locations_uncommented (path : List Int32) : ∀ draft : MessageDraft,
    draft.uncommented.locations path = []
  | ⟨_, _, numbered, messages, enums, _, _, _, _⟩ => by
    have hfields : (numbered.map fun entry => (entry.1, entry.2.uncommented)).map (·.2) =
        (numbered.map (·.2)).map FieldDraft.uncommented := by
      rw [List.map_map, List.map_map]
      rfl
    rw [uncommented, locations, hfields, flatten_mapIdx_map_eq_nil fun _ _ => rfl,
      flatten_mapIdx_map_eq_nil fun _ _ => rfl, locationsFrom_uncommented path 0 messages]
    rfl

/-- There is nothing to store for nested messages without comments. -/
theorem MessageDraft.locationsFrom_uncommented (path : List Int32) (index : Nat) :
    ∀ drafts : List MessageDraft, locationsFrom path index (uncommentedAll drafts) = []
  | [] => rfl
  | draft :: rest => by
    rw [uncommentedAll, locationsFrom, locations_uncommented _ draft,
      locationsFrom_uncommented path (index + 1) rest]
    rfl

end

/-- There is nothing to store for a service without comments. -/
theorem ServiceDraft.locations_uncommented (draft : ServiceDraft) (path : List Int32) :
    draft.uncommented.locations path = [] := by
  rw [locations, uncommented, flatten_mapIdx_map_eq_nil fun _ _ => rfl]
  rfl

/-- There is nothing to store for a message without comments. -/
theorem FileMessage.locations_uncommented (message : FileMessage) (path : List Int32) :
    message.uncommented.locations path = [] := by
  cases message with
  | drafted draft => exact draft.locations_uncommented path
  | finished descriptor => rfl

namespace FileDraft

variable (draft : FileDraft)

/-- A file without comments has no locations. -/
theorem locations_uncommented : draft.uncommented.locations = [] := by
  rw [locations, sortedEnums_uncommented, sortedServices_uncommented, uncommented,
    flatten_mapIdx_map_eq_nil fun _ message => message.locations_uncommented _,
    flatten_mapIdx_map_eq_nil fun _ _ => rfl,
    flatten_mapIdx_map_eq_nil fun _ service => service.locations_uncommented _]
  rfl

/-- Before linking, only the locations are missing. -/
theorem assemble_uncommented :
    draft.uncommented.assemble = { draft.assemble with locations := none } := by
  have hmessages : draft.uncommented.messages.map FileMessage.build =
      draft.messages.map FileMessage.build := by
    rw [uncommented, List.map_map]
    exact List.map_congr_left fun message _ => message.build_uncommented
  have hservices : draft.uncommented.sortedServices.map ServiceDraft.build =
      draft.sortedServices.map ServiceDraft.build := by
    rw [sortedServices_uncommented, List.map_map]
    exact List.map_congr_left fun service _ => service.build_uncommented
  rw [assemble, locations_uncommented, hmessages, hservices, sortedEnums_uncommented, List.map_map]
  rfl

/-- Without its comments, a file is finished as before but for its source information. -/
theorem build_uncommented : draft.uncommented.build = { draft.build with locations := none } := by
  rw [build, assemble_uncommented]
  rfl

end FileDraft

end Protoscribe
