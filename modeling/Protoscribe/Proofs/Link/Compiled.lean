import Mathlib.Data.List.Forall2
import Protoscribe.Proofs.Link.Drafted

/-!
# `Protoscribe.Proofs.Link.Compiled`: names in a compiled file

A compiled file is the draft that a run leaves, finished and linked. Each field of a drafted message
has its counterpart there, whose type name is the drafted one looked up from the path of the message
(`LinkedFrom`). `mem_placed_build` goes from drafted messages to compiled ones, and
`exists_of_mem_placed_build` comes back, where no finished messages were handed in.
`mem_methods_build` says the same about methods.
-/

set_option autoImplicit false

namespace Protoscribe

/-- The last name of a path is that of the draft there. -/
theorem MessageDraft.path_eq_of_mem_placed {path : List String}
    {entry : List String × MessageDraft} {draft : MessageDraft} (h : entry ∈ draft.placed path) :
    entry.1 = entry.1.dropLast ++ [entry.2.name] := by
  have hbuilt : (entry.1, entry.2.build) ∈ draft.build.placed path := by
    rw [placed_build]
    exact List.mem_map.mpr ⟨entry, h, rfl⟩
  have hpath := MessageDescriptor.path_eq_of_mem_placed _ hbuilt
  rwa [name_build] at hpath

/-- What a name stands for, seen from the message at a path or, if that is empty, from the root. -/
def FileDescriptor.lookUp (file : FileDescriptor) (path : List String) (name : String) : String :=
  Link.resolve file.typeNames (Link.fullName file.root path) name

/-- A field of a compiled file is a drafted one with its type name looked up from a path. -/
structure LinkedFrom (file : FileDescriptor) (path : List String) (field : FieldDraft)
    (linked : FieldDescriptor) : Prop where
  name : linked.name = some field.name
  type : linked.type = some field.type.code
  typeName : linked.typeName = field.typeName.map (file.lookUp path)

/-- What a draft at a path becomes in a file. -/
def FileDescriptor.linked (file : FileDescriptor) (path : List String) (draft : MessageDraft) :
    MessageDescriptor :=
  Link.inMessage file.typeNames (Link.fullName file.root path.dropLast) draft.build

/-- What a service becomes in a file. -/
def FileDescriptor.linkedService (file : FileDescriptor) (draft : ServiceDraft) :
    ServiceDescriptor :=
  ⟨some draft.name, draft.methods.map fun method =>
    Link.inMethod file.typeNames file.root method.build⟩

/-- The fields of a message that is linked at its path come from those of the draft. -/
theorem FileDescriptor.fields_linked {file : FileDescriptor} {path : List String}
    {draft : MessageDraft} (hpath : path = path.dropLast ++ [draft.name]) :
    List.Forall₂ (LinkedFrom file path) draft.fields (file.linked path draft).fields := by
  -- the scope of the fields is the message itself, which stands at the path
  rw [linked, Link.inMessage_eq, MessageDraft.name_build, Option.getD_some, ← Link.fullName_append,
    ← hpath]
  show List.Forall₂ _ draft.fields (draft.build.fields.map (Link.inField _ _))
  rw [List.forall₂_map_right_iff]
  refine (MessageDraft.fields_build draft).imp fun field built hbuilt => ?_
  exact ⟨hbuilt.name, hbuilt.type, by rw [Link.inField, hbuilt.typeName]; rfl⟩

namespace FileDescriptor

variable {path : List String} {draft : MessageDraft}

/-- A linked message has the name of its draft. -/
theorem name_linked (file : FileDescriptor) (path : List String) (draft : MessageDraft) :
    (file.linked path draft).name = some draft.name := by
  rw [linked, Link.inMessage_eq]
  exact draft.name_build

/-- Linking leaves the enums as they were finished. -/
theorem enums_linked (file : FileDescriptor) (path : List String) (draft : MessageDraft) :
    (file.linked path draft).enums = draft.enums.map EnumDraft.build := by
  rw [linked, Link.inMessage_eq]
  exact draft.enums_build

/-- Nested messages are linked at their own paths. -/
theorem messages_linked (file : FileDescriptor) (hpath : path = path.dropLast ++ [draft.name]) :
    (file.linked path draft).messages =
      draft.messages.map fun nested => file.linked (path ++ [nested.name]) nested := by
  rw [linked, Link.inMessage_eq]
  show Link.inMessages _ _ draft.build.messages = _
  rw [MessageDraft.name_build, Option.getD_some, ← Link.fullName_append, ← hpath,
    Link.inMessages_eq_map, MessageDraft.messages_build, List.map_map]
  refine List.map_congr_left fun nested _ => ?_
  rw [linked, List.dropLast_concat]
  rfl

/-- A message of the file is part of one of the finished messages, linked at its path. -/
def IsFinished (file : FileDescriptor) (finished : List MessageDescriptor) (path : List String)
    (message : MessageDescriptor) : Prop :=
  ∃ descriptor ∈ finished, ∃ original, (path, original) ∈ descriptor.placed [] ∧
    message = Link.inMessage file.typeNames (Link.fullName file.root path.dropLast) original

end FileDescriptor

namespace FileDraft

variable {file : FileDraft} {path : List String}

/-- Linking keeps the names of the declared types. -/
theorem typeNames_build (file : FileDraft) :
    file.build.typeNames = file.assemble.typeNames :=
  Link.typeNames_link _

/-- Linking keeps the scope of the file. -/
theorem root_build (file : FileDraft) : file.build.root = file.assemble.root :=
  rfl

/-- A package that has a name is the root with a dot in front. -/
theorem root_build_of_package (hpackage : file.package ≠ "") :
    file.build.root = "." ++ file.package := by
  have hname : file.package.isEmpty = false := by
    simpa [String.isEmpty_iff] using hpackage
  show Link.rootScope (if file.package.isEmpty then none else some file.package) = _
  rw [hname]
  show (if file.package.isEmpty then "" else "." ++ file.package) = _
  rw [hname]
  rfl

/-- Linking keeps the declared types. -/
theorem declares_build {kind : TypeKind} :
    file.build.Declares path kind ↔ file.assemble.Declares path kind :=
  Link.declares_link

/-- The last name of a path in a file is that of the draft there. -/
theorem path_eq_of_mem_placed {draft : MessageDraft} (h : (path, draft) ∈ file.placed) :
    path = path.dropLast ++ [draft.name] := by
  obtain ⟨_, -, hmem⟩ := mem_placed.mp h
  exact MessageDraft.path_eq_of_mem_placed hmem

/-- A drafted message stands in the compiled file as what it becomes there. -/
theorem linked_mem_placed {draft : MessageDraft} (h : (path, draft) ∈ file.placed) :
    (path, file.build.linked path draft) ∈ file.build.placed := by
  rw [FileDescriptor.linked, typeNames_build, root_build]
  exact Link.mem_placed_link (mem_placed_assemble h)

/-- A drafted message has its counterpart in the compiled file, with the same fields. -/
theorem mem_placed_build {draft : MessageDraft} (h : (path, draft) ∈ file.placed) :
    ∃ message, (path, message) ∈ file.build.placed ∧
      List.Forall₂ (LinkedFrom file.build path) draft.fields message.fields :=
  ⟨_, linked_mem_placed h, FileDescriptor.fields_linked (path_eq_of_mem_placed h)⟩

/-- A compiled message is what a draft becomes at its path, or it stands in a finished message. -/
theorem eq_linked_of_mem_placed_build {message : MessageDescriptor}
    (h : (path, message) ∈ file.build.placed) :
    (∃ draft, (path, draft) ∈ file.placed ∧ message = file.build.linked path draft) ∨
    ∃ descriptor original, .finished descriptor ∈ file.messages ∧
      (path, original) ∈ descriptor.placed [] ∧
      message = Link.inMessage file.build.typeNames
        (Link.fullName file.build.root path.dropLast) original := by
  simp only [FileDescriptor.linked, typeNames_build, root_build]
  rw [build, Link.placed_link] at h
  obtain ⟨⟨_, built⟩, hbuilt, heq⟩ := List.mem_map.mp h
  cases heq
  rcases mem_placed_assemble_cases hbuilt with ⟨draft, hdraft, rfl⟩ | ⟨descriptor, hfinished, hmem⟩
  · exact .inl ⟨draft, hdraft, rfl⟩
  · exact .inr ⟨descriptor, built, hfinished, hmem, rfl⟩

/-- A compiled message is the counterpart of a drafted one, or it stands in a finished one, linked
at its path. -/
theorem mem_placed_build_cases {message : MessageDescriptor}
    (h : (path, message) ∈ file.build.placed) :
    (∃ draft, (path, draft) ∈ file.placed ∧
      List.Forall₂ (LinkedFrom file.build path) draft.fields message.fields) ∨
    ∃ descriptor original, .finished descriptor ∈ file.messages ∧
      (path, original) ∈ descriptor.placed [] ∧
      message = Link.inMessage file.build.typeNames
        (Link.fullName file.build.root path.dropLast) original := by
  refine (eq_linked_of_mem_placed_build h).imp_left ?_
  rintro ⟨draft, hdraft, rfl⟩
  exact ⟨draft, hdraft, FileDescriptor.fields_linked (path_eq_of_mem_placed hdraft)⟩

/-- Without finished messages, a compiled message is the counterpart of a drafted one. -/
theorem exists_of_mem_placed_build (hnone : ∀ descriptor, .finished descriptor ∉ file.messages)
    {message : MessageDescriptor} (h : (path, message) ∈ file.build.placed) :
    ∃ draft, (path, draft) ∈ file.placed ∧
      List.Forall₂ (LinkedFrom file.build path) draft.fields message.fields := by
  rcases mem_placed_build_cases h with hdrafted | ⟨descriptor, _, hfinished, -⟩
  · exact hdrafted
  · exact absurd hfinished (hnone descriptor)

/-- The services of a compiled file are the drafted ones by name, with the types of their methods
looked up from the root. -/
theorem linkedServices_build (file : FileDraft) :
    file.build.services = file.sortedServices.map file.build.linkedService := by
  show (file.sortedServices.map ServiceDraft.build).map _ = _
  rw [List.map_map]
  refine List.map_congr_left fun service _ => ?_
  rw [FileDescriptor.linkedService, typeNames_build, root_build, Function.comp_apply,
    ServiceDraft.build, List.map_map]
  rfl

/-- The methods of a compiled file are the drafted ones with their types looked up from the root. -/
theorem mem_methods_build {method : MethodDescriptor} :
    (∃ service ∈ file.build.services, method ∈ service.methods) ↔
      ∃ service ∈ file.services, ∃ drafted ∈ service.methods,
        method = Link.inMethod file.build.typeNames file.build.root drafted.build := by
  rw [typeNames_build, root_build]
  constructor
  · rintro ⟨service, hservice, hmethod⟩
    obtain ⟨_, hbuilt, rfl⟩ := List.mem_map.mp hservice
    obtain ⟨source, hsource, rfl⟩ := List.mem_map.mp hbuilt
    obtain ⟨_, hbuilt, rfl⟩ := List.mem_map.mp hmethod
    obtain ⟨drafted, hdrafted, rfl⟩ := List.mem_map.mp hbuilt
    exact ⟨source, mem_sortByName.mp hsource, drafted, hdrafted, rfl⟩
  · rintro ⟨service, hservice, drafted, hdrafted, rfl⟩
    refine ⟨_, List.mem_map_of_mem (List.mem_map_of_mem (mem_sortByName.mpr hservice)), ?_⟩
    exact List.mem_map_of_mem (List.mem_map_of_mem hdrafted)

end FileDraft

end Protoscribe
