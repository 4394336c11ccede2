import Protoscribe.Proofs.Compile.WellNamed
import Protoscribe.Proofs.Compile.WellTyped
import Protoscribe.Proofs.Link.Places

/-!
# `Protoscribe.Proofs.Link.Drafted`: drafted messages in the finished file

What holds for drafts carries over to the finished file: a drafted message stands at its path in the
file (`mem_placed_assemble`), its fields are finished one by one (`fields_build`), and the types
that a draft names are declared there (`declares_of_mem_typeNames`).
-/

set_option autoImplicit false

namespace Protoscribe

/-! ### Paths of drafts -/

namespace MessageDraft

mutual

/-- What is nested in a placed message is placed below it. -/
theorem mem_placed_of_nested {path : List String} {entry below : List String × MessageDraft} :
    ∀ draft : MessageDraft, entry ∈ draft.placed path →
      below ∈ placedAll entry.1 entry.2.messages → below ∈ draft.placed path
  | ⟨name, comment, numbered, messages, enums, oneofs, takenFields, takenTypes, wrapper⟩ => by
    intro hentry hbelow
    rw [placed] at hentry ⊢
    rcases List.mem_cons.mp hentry with rfl | hentry
    · exact List.mem_cons_of_mem _ hbelow
    · exact List.mem_cons_of_mem _ (mem_placedAll_of_nested messages hentry hbelow)

/-- What is placed below a placed draft is placed. -/
theorem mem_placedAll_of_nested {path : List String} {entry below : List String × MessageDraft} :
    ∀ drafts : List MessageDraft, entry ∈ placedAll path drafts →
      below ∈ placedAll entry.1 entry.2.messages → below ∈ placedAll path drafts
  | [] => by simp [placedAll]
  | draft :: rest => by
    intro hentry hbelow
    rw [placedAll] at hentry ⊢
    rcases List.mem_append.mp hentry with hentry | hentry
    · exact List.mem_append_left _ (mem_placed_of_nested draft hentry hbelow)
    · exact List.mem_append_right _ (mem_placedAll_of_nested rest hentry hbelow)

end

/-- A draft stands at its own path. -/
theorem mem_placed_self (path : List String) (draft : MessageDraft) :
    (path ++ [draft.name], draft) ∈ draft.placed path := by
  rw [placed_eq]
  exact List.mem_cons_self ..

/-- A finished field is the drafted one with a number. -/
structure BuiltFrom (field : FieldDraft) (built : FieldDescriptor) : Prop where
  name : built.name = some field.name
  type : built.type = some field.type.code
  typeName : built.typeName = field.typeName

/-- Fields are finished one by one. -/
theorem buildFields_forall₂ (numbered : List (Int32 × FieldDraft)) (groups : Nat) :
    List.Forall₂ BuiltFrom (numbered.map (·.2)) (buildFields groups numbered) := by
  induction numbered generalizing groups with
  | nil => exact .nil
  | cons entry rest ih =>
    unfold buildFields
    split
    · exact .cons ⟨rfl, rfl, rfl⟩ (ih _)
    · exact .cons ⟨rfl, rfl, rfl⟩ (ih _)

/-- Fields are finished one by one. -/
theorem fields_build (draft : MessageDraft) :
    List.Forall₂ BuiltFrom draft.fields draft.build.fields := by
  cases draft
  rw [build]
  exact buildFields_forall₂ _ _

/-- A finished message has the enums of its draft, finished. -/
theorem enums_build (draft : MessageDraft) :
    draft.build.enums = draft.enums.map EnumDraft.build := by
  cases draft
  rw [build]

/-- A finished message has the name of its draft. -/
theorem name_build (draft : MessageDraft) : draft.build.name = some draft.name := by
  cases draft
  rw [build]

/-- A finished message has the groups of its draft, and one for each optional field behind them. -/
theorem oneofs_build (draft : MessageDraft) :
    draft.build.oneofs = (oneofNames draft.oneofs draft.fields).map fun group => ⟨some group⟩ := by
  cases draft
  rw [build, fields]

/-- Drafts are finished one by one. -/
theorem buildAll_eq_map (drafts : List MessageDraft) : buildAll drafts = drafts.map build := by
  induction drafts with
  | nil => rfl
  | cons draft rest ih => rw [buildAll, ih, List.map_cons]

/-- A finished message has the messages of its draft, finished. -/
theorem messages_build (draft : MessageDraft) :
    draft.build.messages = draft.messages.map build := by
  cases draft
  rw [build, buildAll_eq_map]

end MessageDraft

namespace Compile

/-- A property that holds everywhere in a message holds at each path in it. -/
theorem Everywhere.of_mem_placed {P : MessageDraft → Prop} {draft : MessageDraft}
    (h : Everywhere P draft) {path : List String} {entry : List String × MessageDraft}
    (hentry : entry ∈ draft.placed path) : P entry.2 := by
  induction h generalizing path with
  | intro here _ ih =>
    rw [MessageDraft.placed_eq, MessageDraft.placedAll_eq_flatMap] at hentry
    rcases List.mem_cons.mp hentry with rfl | hentry
    · exact here
    · obtain ⟨message, hmessage, hmem⟩ := List.mem_flatMap.mp hentry
      exact ih message hmessage hmem

/-- Where names are plain, paths consist of plain names. -/
theorem Everywhere.plain_path {draft : MessageDraft} (h : Everywhere WellNamed draft)
    {path : List String} (hpath : ∀ name ∈ path, Plain name)
    {entry : List String × MessageDraft} (hentry : entry ∈ draft.placed path) :
    ∀ name ∈ entry.1, Plain name := by
  induction h generalizing path with
  | @intro draft here _ ih =>
    have hbelow : ∀ name ∈ path ++ [draft.name], Plain name := by
      intro name hname
      rcases List.mem_append.mp hname with hname | hname
      · exact hpath name hname
      · cases List.mem_singleton.mp hname
        exact here.name
    rw [MessageDraft.placed_eq, MessageDraft.placedAll_eq_flatMap] at hentry
    rcases List.mem_cons.mp hentry with rfl | hentry
    · exact hbelow
    · obtain ⟨message, hmessage, hmem⟩ := List.mem_flatMap.mp hentry
      exact ih message hmessage hbelow hmem

end Compile

/-! ### Files -/

namespace FileDraft

/-- All messages that were drafted for a file, with their paths. -/
def placed (file : FileDraft) : List (List String × MessageDraft) :=
  file.messages.flatMap fun message =>
    match message with
    | .drafted draft => draft.placed []
    | .finished _ => []

/-- The drafts of a file are those of its messages and those nested in them. -/
theorem mem_placed {file : FileDraft} {entry : List String × MessageDraft} :
    entry ∈ file.placed ↔
      ∃ draft, .drafted draft ∈ file.messages ∧ entry ∈ draft.placed [] := by
  rw [placed, List.mem_flatMap]
  constructor
  · rintro ⟨message, hmessage, hentry⟩
    cases message with
    | drafted draft => exact ⟨draft, hmessage, hentry⟩
    | finished descriptor => simp at hentry
  · rintro ⟨draft, hdraft, hentry⟩
    exact ⟨_, hdraft, hentry⟩

/-- What is nested in a drafted message stands right below it. -/
theorem mem_placed_of_nested {file : FileDraft} {path : List String} {draft nested : MessageDraft}
    (hplaced : (path, draft) ∈ file.placed) (hnested : nested ∈ draft.messages) :
    (path ++ [nested.name], nested) ∈ file.placed := by
  obtain ⟨outer, houter, hmem⟩ := mem_placed.mp hplaced
  refine mem_placed.mpr ⟨outer, houter, MessageDraft.mem_placed_of_nested outer hmem ?_⟩
  rw [MessageDraft.placedAll_eq_flatMap]
  exact List.mem_flatMap.mpr ⟨nested, hnested, MessageDraft.mem_placed_self _ _⟩

/-- A file that is put together has its messages where they were finished. -/
theorem placed_assemble (file : FileDraft) :
    file.assemble.placed = file.messages.flatMap fun message => message.build.placed [] := by
  rw [FileDescriptor.placed, MessageDescriptor.placedAll_eq_flatMap]
  exact List.flatMap_map ..

/-- A drafted message stands at its path in the file. -/
theorem mem_placed_assemble {file : FileDraft} {path : List String} {draft : MessageDraft}
    (h : (path, draft) ∈ file.placed) : (path, draft.build) ∈ file.assemble.placed := by
  obtain ⟨outer, houter, hmem⟩ := mem_placed.mp h
  rw [placed_assemble]
  refine List.mem_flatMap.mpr ⟨_, houter, ?_⟩
  show _ ∈ outer.build.placed []
  rw [MessageDraft.placed_build]
  exact List.mem_map.mpr ⟨_, hmem, rfl⟩

/-- Every message of the file has been drafted, or it stands in a finished one. -/
theorem mem_placed_assemble_cases {file : FileDraft} {path : List String}
    {message : MessageDescriptor} (h : (path, message) ∈ file.assemble.placed) :
    (∃ draft, (path, draft) ∈ file.placed ∧ message = draft.build) ∨
      ∃ descriptor, .finished descriptor ∈ file.messages ∧
        (path, message) ∈ descriptor.placed [] := by
  rw [placed_assemble] at h
  obtain ⟨outer, houter, hmem⟩ := List.mem_flatMap.mp h
  cases outer with
  | drafted outer =>
    have hmem : (path, message) ∈ outer.build.placed [] := hmem
    rw [MessageDraft.placed_build] at hmem
    obtain ⟨⟨_, draft⟩, hdraft, heq⟩ := List.mem_map.mp hmem
    cases heq
    exact .inl ⟨draft, mem_placed.mpr ⟨outer, houter, hdraft⟩, rfl⟩
  | finished descriptor => exact .inr ⟨descriptor, houter, hmem⟩

/-- Without finished messages, every message of the file has been drafted. -/
theorem exists_of_mem_placed_assemble {file : FileDraft}
    (hnone : ∀ descriptor, .finished descriptor ∉ file.messages) {path : List String}
    {message : MessageDescriptor} (h : (path, message) ∈ file.assemble.placed) :
    ∃ draft, (path, draft) ∈ file.placed ∧ message = draft.build := by
  rcases mem_placed_assemble_cases h with hdrafted | ⟨descriptor, hfinished, -⟩
  · exact hdrafted
  · exact absurd hfinished (hnone descriptor)

/-- Inserting an item by name keeps the others. -/
theorem perm_insertByName {α : Type} (name : α → String) (added : α) (items : List α) :
    (insertByName name added items).Perm (added :: items) := by
  induction items with
  | nil => exact List.Perm.refl _
  | cons head rest ih =>
    unfold insertByName
    split
    · exact (ih.cons head).trans (List.Perm.swap ..)
    · exact List.Perm.refl _

/-- Sorting by name keeps all items. -/
theorem perm_sortByName {α : Type} (name : α → String) (items : List α) :
    (sortByName name items).Perm items := by
  induction items with
  | nil => exact List.Perm.refl _
  | cons first rest ih => exact (perm_insertByName name first _).trans (ih.cons first)

/-- Sorting by name neither brings nor loses an item. -/
theorem mem_sortByName {α : Type} {name : α → String} {items : List α} {item : α} :
    item ∈ sortByName name items ↔ item ∈ items :=
  (perm_sortByName name items).mem_iff

/-- The types of the draft are declared in the file. -/
theorem declares_of_mem_typeNames {file : FileDraft} {name : String}
    (h : name ∈ file.typeNames) : ∃ kind, file.assemble.Declares [name] kind := by
  rcases List.mem_append.mp h with h | h
  · obtain ⟨message, hmessage, rfl⟩ := List.mem_map.mp h
    have hname : message.build.name.getD "" = message.name := by
      cases message with
      | drafted draft =>
        rw [FileMessage.build, MessageDraft.name_build]
        rfl
      | finished descriptor => rfl
    -- every message of the file, finished or drafted, stands right below the root
    have hplaced : ([message.build.name.getD ""], message.build) ∈ file.assemble.placed := by
      rw [placed_assemble]
      refine List.mem_flatMap.mpr ⟨message, hmessage, ?_⟩
      rw [MessageDescriptor.placed_eq]
      exact List.mem_cons_self ..
    rw [← hname]
    exact ⟨.message, .message hplaced⟩
  · obtain ⟨enum, henum, rfl⟩ := List.mem_map.mp h
    have hbuilt : enum.build ∈ file.assemble.enums :=
      List.mem_map_of_mem (mem_sortByName.mpr henum)
    have hdeclares : file.assemble.Declares [enum.build.name.getD ""] .enum := .enum hbuilt
    exact ⟨.enum, hdeclares⟩

/-- The types nested in a draft are declared below its path. -/
theorem declares_of_mem_nested {file : FileDraft} {path : List String} {draft : MessageDraft}
    (hplaced : (path, draft) ∈ file.placed) {name : String} (h : name ∈ draft.typeNames) :
    ∃ kind, file.assemble.Declares (path ++ [name]) kind := by
  rcases List.mem_append.mp h with h | h
  · obtain ⟨message, hmessage, rfl⟩ := List.mem_map.mp h
    exact ⟨.message, .message (mem_placed_assemble (mem_placed_of_nested hplaced hmessage))⟩
  · obtain ⟨enum, henum, rfl⟩ := List.mem_map.mp h
    have hbuilt : enum.build ∈ draft.build.enums := by
      rw [MessageDraft.enums_build]
      exact List.mem_map_of_mem henum
    have hdeclares : file.assemble.Declares (path ++ [enum.build.name.getD ""]) .enum :=
      .nested (mem_placed_assemble hplaced) hbuilt
    exact ⟨.enum, hdeclares⟩

end FileDraft

end Protoscribe
