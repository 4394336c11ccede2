import Protoscribe.Proofs.Draft.Addresses

/-!
# `Protoscribe.Proofs.Draft.Elements`: where paths lead in the finished file

The paths of comments are read in the finished file, which knows nothing of the draft that it comes
from: `FileDescriptor.elementAt` goes down a path from list to list. What it finds there is what the
part of the draft with that path is finished to (`FileDraft.exists_elementAt`), although enums and
services are sorted and finished messages stand between the drafted ones.
-/

set_option autoImplicit false

namespace Protoscribe

open Address

/-- Something in a finished file that a path leads to. -/
inductive Element where
  | package (name : Option String)
  | message (descriptor : MessageDescriptor)
  | field (descriptor : FieldDescriptor)
  | enum (descriptor : EnumDescriptor)
  | service (descriptor : ServiceDescriptor)
  | method (descriptor : MethodDescriptor)

/-- Where a path leads from a message. -/
def MessageDescriptor.elementAt (message : MessageDescriptor) : List Int32 → Option Element
  | [] => some (.message message)
  | [_] => none
  | tag :: index :: rest =>
    if tag = 2 then (item? message.fields index).bind fun field => leafAt (.field field) rest
    else if tag = 3 then (item? message.messages index).bind fun nested => nested.elementAt rest
    else if tag = 4 then (item? message.enums index).bind fun nested => leafAt (.enum nested) rest
    else none

/-- Where a path leads from a service. -/
def ServiceDescriptor.elementAt (service : ServiceDescriptor) : List Int32 → Option Element
  | [] => some (.service service)
  | [_] => none
  | tag :: index :: rest =>
    if tag = 2 then (item? service.methods index).bind fun method => leafAt (.method method) rest
    else none

/-- Where a path leads in a file. The tags are those of the descriptor format. -/
def FileDescriptor.elementAt (file : FileDescriptor) : List Int32 → Option Element
  | [] => none
  | [tag] => if tag = 2 then some (.package file.package) else none
  | tag :: index :: rest =>
    if tag = 4 then (item? file.messages index).bind fun message => message.elementAt rest
    else if tag = 5 then (item? file.enums index).bind fun enum => leafAt (.enum enum) rest
    else if tag = 6 then (item? file.services index).bind fun service => service.elementAt rest
    else none

/-- What the parts of a draft are in the finished file. A message is linked at its place, a field
has the number that is stored with it, and the group that its place in the message gives it. -/
inductive FileDraft.Finishes (file : FileDraft) : Part → Element → Prop
  | package : file.Finishes (.package file.package file.packageComment)
      (.package (if file.package.isEmpty then none else some file.package))
  | message {names : List String} {draft : MessageDraft} (h : (names, draft) ∈ file.placed) :
      file.Finishes (.message draft) (.message (file.build.linked names draft))
  | finished {descriptor : MessageDescriptor} (h : .finished descriptor ∈ file.messages) :
      file.Finishes (.finished descriptor)
        (.message (Link.inMessage file.build.typeNames file.build.root descriptor))
  | field {names : List String} {draft : MessageDraft} {before after : List FieldDraft}
      {field : FieldDraft} (h : (names, draft) ∈ file.placed)
      (hfields : draft.fields = before ++ field :: after) :
      file.Finishes (.field field) (.field (file.build.linkedField names draft before field))
  | enum (draft : EnumDraft) : file.Finishes (.enum draft) (.enum draft.build)
  | service {draft : ServiceDraft} (h : draft ∈ file.services) :
      file.Finishes (.service draft) (.service (file.build.linkedService draft))
  | method (draft : MethodDraft) : file.Finishes (.method draft)
      (.method (Link.inMethod file.build.typeNames file.build.root draft.build))

/-! ### Lists of the finished file -/

namespace MessageDraft

/-- The field at a place is finished with its number and the group of its place. -/
theorem getElem?_buildFields (groups : Nat) (numbered : List (Int32 × FieldDraft)) (index : Nat) :
    (buildFields groups numbered)[index]? = numbered[index]?.map fun entry =>
      entry.2.build entry.1
        (ownGroup (groups + synthetics ((numbered.take index).map (·.2))) entry.2) := by
  induction numbered generalizing groups index with
  | nil => rfl
  | cons first rest ih =>
    rw [buildFields_cons]
    cases index with
    | zero => rfl
    | succ index =>
      rw [List.getElem?_cons_succ, List.getElem?_cons_succ, ih, List.take_succ_cons, List.map_cons,
        synthetics_cons, Nat.add_assoc groups]

end MessageDraft

/-- An item stands between those before it and those behind it. -/
theorem eq_append_of_getElem? {α : Type} {items : List α} {place : Nat} {item : α}
    (h : items[place]? = some item) :
    items = items.take place ++ item :: items.drop (place + 1) := by
  obtain ⟨hlt, rfl⟩ := List.getElem?_eq_some_iff.mp h
  rw [← List.drop_eq_getElem_cons hlt, List.take_append_drop]

namespace FileDescriptor

/-- The field at a place of a linked message comes from the one at this place of the draft. -/
theorem getElem?_fields_linked (file : FileDescriptor) (names : List String) (draft : MessageDraft)
    (index : Nat) : (file.linked names draft).fields[index]? = draft.fields[index]?.map fun field =>
      file.linkedField names draft (draft.fields.take index) field := by
  rw [fields_linked_eq, List.getElem?_map, MessageDraft.getElem?_buildFields, Option.map_map,
    MessageDraft.fields, List.getElem?_map, Option.map_map, ← List.map_take]
  refine Option.map_congr fun entry hentry => ?_
  have hlength : ((draft.numbered.take index).map (·.2)).length = index := by
    have := (List.getElem?_eq_some_iff.mp hentry).1
    rw [List.length_map, List.length_take]
    omega
  have hnumber : draft.storedNumber index = entry.1 := by
    rw [MessageDraft.storedNumber, hentry]
    rfl
  rw [Function.comp_apply, Function.comp_apply, linkedField, hlength, hnumber]

end FileDescriptor

namespace FileDraft

/-- What stands for a message of the draft in the finished file. -/
def finished (file : FileDraft) : FileMessage → MessageDescriptor
  | .drafted draft => file.build.linked [draft.name] draft
  | .finished descriptor => Link.inMessage file.build.typeNames file.build.root descriptor

/-- The messages of a file stand in the order in which they were drafted. -/
theorem messages_build (file : FileDraft) :
    file.build.messages = file.messages.map file.finished := by
  show Link.inMessages file.assemble.typeNames file.assemble.root file.assemble.messages = _
  rw [Link.inMessages_eq_map]
  show (file.messages.map FileMessage.build).map _ = _
  rw [List.map_map]
  refine List.map_congr_left fun message _ => ?_
  cases message with
  | drafted draft =>
    rw [finished, FileDescriptor.linked, typeNames_build, root_build]
    rfl
  | finished descriptor =>
    rw [finished, typeNames_build, root_build]
    rfl

/-- The enums of a file stand in the order of their names. -/
theorem enums_build (file : FileDraft) : file.build.enums = file.sortedEnums.map EnumDraft.build :=
  rfl

/-! ### Parts and elements -/

/-- From a message, a path leads to what the part with that path is finished to. -/
theorem exists_elementAt_linked {file : FileDraft} {part : Part} :
    ∀ (path : List Int32) {names : List String} {draft : MessageDraft},
    (names, draft) ∈ file.placed → draft.partAt path = some part →
    ∃ element, (file.build.linked names draft).elementAt path = some element ∧
      file.Finishes part element
  | [], names, draft => by
    intro hplaced hpart
    cases hpart
    exact ⟨_, rfl, .message hplaced⟩
  | [_], names, draft => by
    intro _ hpart
    cases hpart
  | tag :: index :: rest, names, draft => by
    intro hplaced hpart
    rw [MessageDraft.partAt] at hpart
    simp only [MessageDescriptor.elementAt]
    split_ifs at hpart ⊢
    · obtain ⟨field, hfield, hleaf⟩ := Option.bind_eq_some_iff.mp hpart
      obtain ⟨rfl, rfl⟩ := leafAt_eq_some_iff.mp hleaf
      obtain ⟨place, hlt, hplace, rfl⟩ := exists_of_item? hfield
      rw [item?_position hlt, FileDescriptor.getElem?_fields_linked, hplace]
      exact ⟨_, rfl, .field hplaced (eq_append_of_getElem? hplace)⟩
    · obtain ⟨nested, hnested, hfound⟩ := Option.bind_eq_some_iff.mp hpart
      obtain ⟨place, -, hplace, -⟩ := exists_of_item? hnested
      -- the nested message is linked one name further down
      rw [FileDescriptor.messages_linked _ (path_eq_of_mem_placed hplaced), item?_map, hnested]
      exact exists_elementAt_linked rest
        (mem_placed_of_nested hplaced (List.mem_of_getElem? hplace)) hfound
    · obtain ⟨nested, hnested, hleaf⟩ := Option.bind_eq_some_iff.mp hpart
      obtain ⟨rfl, rfl⟩ := leafAt_eq_some_iff.mp hleaf
      rw [FileDescriptor.enums_linked, item?_map, hnested]
      exact ⟨_, rfl, .enum nested⟩

/-- From a service, a path leads to what the part with that path is finished to. -/
theorem exists_elementAt_linkedService {file : FileDraft} {service : ServiceDraft}
    (hservice : service ∈ file.services) {path : List Int32} {part : Part}
    (hpart : service.partAt path = some part) :
    ∃ element, (file.build.linkedService service).elementAt path = some element ∧
      file.Finishes part element := by
  unfold ServiceDraft.partAt at hpart
  split at hpart
  · cases hpart
    exact ⟨_, rfl, .service hservice⟩
  · cases hpart
  · split_ifs at hpart with htag
    obtain ⟨method, hmethod, hleaf⟩ := Option.bind_eq_some_iff.mp hpart
    obtain ⟨rfl, rfl⟩ := leafAt_eq_some_iff.mp hleaf
    rw [ServiceDescriptor.elementAt, if_pos htag, FileDescriptor.linkedService, item?_map, hmethod]
    exact ⟨_, rfl, .method method⟩

/-- From a message of the file, a path leads to what the part with that path is finished to. -/
theorem exists_elementAt_finished {file : FileDraft} {message : FileMessage}
    (hmessage : message ∈ file.messages) {path : List Int32} {part : Part}
    (hpart : message.partAt path = some part) :
    ∃ element, (file.finished message).elementAt path = some element ∧
      file.Finishes part element := by
  cases message with
  | drafted draft =>
    have hplaced : ([draft.name], draft) ∈ file.placed :=
      mem_placed.mpr ⟨draft, hmessage, draft.mem_placed_self []⟩
    exact exists_elementAt_linked path hplaced hpart
  | finished descriptor =>
    obtain ⟨rfl, rfl⟩ := leafAt_eq_some_iff.mp hpart
    rw [finished, MessageDescriptor.elementAt]
    exact ⟨_, rfl, .finished hmessage⟩

/-- In the finished file, a path leads to what the part with that path is finished to. -/
theorem exists_elementAt {file : FileDraft} {path : List Int32} {part : Part}
    (hpart : file.partAt path = some part) :
    ∃ element, file.build.elementAt path = some element ∧ file.Finishes part element := by
  -- both go down the same path, one through the draft and the other through the file
  unfold partAt at hpart
  split at hpart
  · cases hpart
  · split_ifs at hpart with htag
    cases hpart
    rw [FileDescriptor.elementAt, if_pos htag]
    exact ⟨_, rfl, .package⟩
  · simp only [FileDescriptor.elementAt]
    split_ifs at hpart ⊢
    · obtain ⟨message, hmessage, hfound⟩ := Option.bind_eq_some_iff.mp hpart
      obtain ⟨place, -, hplace, -⟩ := exists_of_item? hmessage
      rw [messages_build, item?_map, hmessage]
      exact exists_elementAt_finished (List.mem_of_getElem? hplace) hfound
    · obtain ⟨enum, henum, hleaf⟩ := Option.bind_eq_some_iff.mp hpart
      obtain ⟨rfl, rfl⟩ := leafAt_eq_some_iff.mp hleaf
      rw [enums_build, item?_map, henum]
      exact ⟨_, rfl, .enum enum⟩
    · obtain ⟨service, hservice, hfound⟩ := Option.bind_eq_some_iff.mp hpart
      obtain ⟨place, -, hplace, -⟩ := exists_of_item? hservice
      rw [linkedServices_build, item?_map, hservice]
      exact exists_elementAt_linkedService (mem_sortedServices.mp (List.mem_of_getElem? hplace))
        hfound

end FileDraft

end Protoscribe
