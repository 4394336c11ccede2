import Protoscribe.Draft.File
import Protoscribe.Proofs.Link.Resolve

/-!
# `Protoscribe.Proofs.Link.Places`: messages by their paths

A message stands at a path: the names of the messages around it, outermost first, and its own name.
`placed` lists all messages of a file with their paths, `FileDescriptor.Declares` says which types
there are at a path, and the steps from a drafted file to a finished one keep every path:

* `placed_build` and `placed_inMessage`: finishing and linking a message change what stands at a
  path, and not the path.
* `mem_declaredNames`: the declared names are the full names of the paths of types.
-/

set_option autoImplicit false

namespace Protoscribe

/-! ### Messages and their paths -/

namespace MessageDescriptor

mutual

/-- A message that stands below a path and all messages nested in it, with their paths. -/
def placed (path : List String) : MessageDescriptor → List (List String × MessageDescriptor)
  | ⟨name, fields, messages, enums, oneofs⟩ =>
    (path ++ [name.getD ""], ⟨name, fields, messages, enums, oneofs⟩) ::
      placedAll (path ++ [name.getD ""]) messages

/-- The messages of a list that stands below a path, with all messages nested in them. -/
def placedAll (path : List String) :
    List MessageDescriptor → List (List String × MessageDescriptor)
  | [] => []
  | message :: rest => placed path message ++ placedAll path rest

end

/-- A message stands at its path, and the messages nested in it stand below it. -/
theorem placed_eq (path : List String) (message : MessageDescriptor) :
    message.placed path = (path ++ [message.name.getD ""], message) ::
      placedAll (path ++ [message.name.getD ""]) message.messages := by
  cases message
  rw [placed]

/-- Messages are placed one by one. -/
theorem placedAll_eq_flatMap (path : List String) (messages : List MessageDescriptor) :
    placedAll path messages = messages.flatMap (placed path) := by
  induction messages with
  | nil => rfl
  | cons message rest ih => rw [placedAll, List.flatMap_cons, ih]

mutual

/-- A path ends in the name of the message that it leads to. -/
theorem path_eq_of_mem_placed {path : List String} {entry : List String × MessageDescriptor} :
    ∀ message : MessageDescriptor, entry ∈ message.placed path →
      entry.1 = entry.1.dropLast ++ [entry.2.name.getD ""]
  | ⟨name, fields, messages, enums, oneofs⟩ => by
    intro hentry
    rw [placed] at hentry
    rcases List.mem_cons.mp hentry with rfl | hentry
    · rw [List.dropLast_concat]
    · exact path_eq_of_mem_placedAll messages hentry

/-- The last name of a path is that of the message there. -/
theorem path_eq_of_mem_placedAll {path : List String} {entry : List String × MessageDescriptor} :
    ∀ messages : List MessageDescriptor, entry ∈ placedAll path messages →
      entry.1 = entry.1.dropLast ++ [entry.2.name.getD ""]
  | [] => by simp [placedAll]
  | message :: rest => by
    intro hentry
    rw [placedAll] at hentry
    rcases List.mem_append.mp hentry with hentry | hentry
    · exact path_eq_of_mem_placed message hentry
    · exact path_eq_of_mem_placedAll rest hentry

end

end MessageDescriptor

namespace MessageDraft

mutual

/-- A drafted message that stands below a path and all messages nested in it, with their paths. -/
def placed (path : List String) : MessageDraft → List (List String × MessageDraft)
  | ⟨name, comment, numbered, messages, enums, oneofs, takenFields, takenTypes, wrapper⟩ =>
    (path ++ [name],
      ⟨name, comment, numbered, messages, enums, oneofs, takenFields, takenTypes, wrapper⟩) ::
      placedAll (path ++ [name]) messages

/-- The drafted messages of a list that stands below a path, with all messages nested in them. -/
def placedAll (path : List String) : List MessageDraft → List (List String × MessageDraft)
  | [] => []
  | draft :: rest => placed path draft ++ placedAll path rest

end

/-- A draft stands at its path, and the drafts nested in it stand below it. -/
theorem placed_eq (path : List String) (draft : MessageDraft) :
    draft.placed path = (path ++ [draft.name], draft) ::
      placedAll (path ++ [draft.name]) draft.messages := by
  cases draft
  rw [placed]

/-- Drafts are placed one by one. -/
theorem placedAll_eq_flatMap (path : List String) (drafts : List MessageDraft) :
    placedAll path drafts = drafts.flatMap (placed path) := by
  induction drafts with
  | nil => rfl
  | cons draft rest ih => rw [placedAll, List.flatMap_cons, ih]

mutual

/-- Finishing a message keeps its path and those of the messages nested in it. -/
theorem placed_build (path : List String) : ∀ draft : MessageDraft,
    draft.build.placed path = (draft.placed path).map fun entry => (entry.1, entry.2.build)
  | ⟨name, comment, numbered, messages, enums, oneofs, takenFields, takenTypes, wrapper⟩ => by
    rw [build, MessageDescriptor.placed, placed, List.map_cons, build]
    rw [show (some name).getD "" = name from rfl, placedAll_buildAll]

/-- Finished messages stand where their drafts do. -/
theorem placedAll_buildAll (path : List String) : ∀ drafts : List MessageDraft,
    MessageDescriptor.placedAll path (buildAll drafts) =
      (placedAll path drafts).map fun entry => (entry.1, entry.2.build)
  | [] => by rw [buildAll, MessageDescriptor.placedAll, placedAll, List.map_nil]
  | draft :: rest => by
    rw [buildAll, MessageDescriptor.placedAll, placedAll, List.map_append, placed_build,
      placedAll_buildAll]

end

end MessageDraft

namespace Link

/-- A field of the message `scope` with the name of its type made absolute. -/
def inField (known : List String) (scope : String) (field : FieldDescriptor) : FieldDescriptor :=
  { field with typeName := field.typeName.map (resolve known scope) }

/-- A message is linked in its fields and in the messages nested in it, with its own name around
them. -/
theorem inMessage_eq (known : List String) (scope : String) (message : MessageDescriptor) :
    inMessage known scope message =
      { message with
        fields := message.fields.map (inField known (qualify scope (message.name.getD "")))
        messages := inMessages known (qualify scope (message.name.getD "")) message.messages } := by
  cases message
  rw [inMessage]
  rfl

/-- Messages are linked one by one. -/
theorem inMessages_eq_map (known : List String) (scope : String)
    (messages : List MessageDescriptor) :
    inMessages known scope messages = messages.map (inMessage known scope) := by
  induction messages with
  | nil => rw [inMessages, List.map_nil]
  | cons message rest ih => rw [inMessages, ih, List.map_cons]

mutual

/-- Linking a message keeps its path and those of the messages nested in it. -/
theorem placed_inMessage (known : List String) (root : String) (path : List String) :
    ∀ message : MessageDescriptor,
    (inMessage known (fullName root path) message).placed path =
      (message.placed path).map fun entry =>
        (entry.1, inMessage known (fullName root entry.1.dropLast) entry.2)
  | ⟨name, fields, messages, enums, oneofs⟩ => by
    rw [MessageDescriptor.placed, List.map_cons, List.dropLast_concat, inMessage,
      MessageDescriptor.placed, ← fullName_append, placed_inMessages]

/-- Linking messages keeps their paths and those of the messages nested in them. -/
theorem placed_inMessages (known : List String) (root : String) (path : List String) :
    ∀ messages : List MessageDescriptor,
    MessageDescriptor.placedAll path (inMessages known (fullName root path) messages) =
      (MessageDescriptor.placedAll path messages).map fun entry =>
        (entry.1, inMessage known (fullName root entry.1.dropLast) entry.2)
  | [] => by rw [inMessages, MessageDescriptor.placedAll, List.map_nil]
  | message :: rest => by
    rw [inMessages, MessageDescriptor.placedAll, MessageDescriptor.placedAll, List.map_append,
      placed_inMessage, placed_inMessages]

end

end Link

/-! ### Types of a file -/

/-- What a declared type is. -/
inductive TypeKind where
  | message
  | enum
  deriving Repr, DecidableEq

namespace FileDescriptor

/-- All messages of a file with their paths. -/
def placed (file : FileDescriptor) : List (List String × MessageDescriptor) :=
  MessageDescriptor.placedAll [] file.messages

/-- The scope that the types of the file stand in. -/
def root (file : FileDescriptor) : String :=
  Link.rootScope file.package

/-- The file declares a type of a kind at a path. -/
inductive Declares (file : FileDescriptor) : List String → TypeKind → Prop
  | message {path : List String} {message : MessageDescriptor}
      (hplaced : (path, message) ∈ file.placed) : Declares file path .message
  | nested {path : List String} {message : MessageDescriptor} {enum : EnumDescriptor}
      (hplaced : (path, message) ∈ file.placed) (henum : enum ∈ message.enums) :
      Declares file (path ++ [enum.name.getD ""]) .enum
  | enum {enum : EnumDescriptor} (henum : enum ∈ file.enums) :
      Declares file [enum.name.getD ""] .enum

/-- The full names of the declared types. -/
def typeNames (file : FileDescriptor) : List String :=
  Link.declaredNames file.root file

end FileDescriptor

namespace Link

/-- A message at a path declares a full name: its own, or that of an enum nested in it. -/
def DeclaresName (root full : String) (entry : List String × MessageDescriptor) : Prop :=
  full = fullName root entry.1 ∨
    ∃ enum ∈ entry.2.enums, full = fullName root (entry.1 ++ [enum.name.getD ""])

mutual

/-- The full names of a message are those of the types at its path and below it. -/
theorem mem_namesIn (root full : String) (path : List String) : ∀ message : MessageDescriptor,
    full ∈ namesIn (fullName root path) message ↔
      ∃ entry ∈ message.placed path, DeclaresName root full entry
  | ⟨name, fields, messages, enums, oneofs⟩ => by
    -- the names are listed inside out, the paths outside in
    rw [namesIn, MessageDescriptor.placed, ← fullName_append]
    simp only [List.mem_append, List.mem_singleton, List.mem_map, List.exists_mem_cons_iff,
      mem_namesInAll root full (path ++ [name.getD ""]) messages]
    constructor
    · rintro ((⟨enum, henum, rfl⟩ | hinner) | rfl)
      · exact .inl (.inr ⟨enum, henum, (fullName_append ..).symm⟩)
      · exact .inr hinner
      · exact .inl (.inl rfl)
    · rintro ((rfl | ⟨enum, henum, rfl⟩) | hinner)
      · exact .inr rfl
      · exact .inl (.inl ⟨enum, henum, (fullName_append ..).symm⟩)
      · exact .inl (.inr hinner)

/-- The full names of messages are those of the types at their paths and below them. -/
theorem mem_namesInAll (root full : String) (path : List String) :
    ∀ messages : List MessageDescriptor,
    full ∈ namesInAll (fullName root path) messages ↔
      ∃ entry ∈ MessageDescriptor.placedAll path messages, DeclaresName root full entry
  | [] => by simp [namesInAll, MessageDescriptor.placedAll]
  | message :: rest => by
    rw [namesInAll, MessageDescriptor.placedAll, List.mem_append, mem_namesIn, mem_namesInAll]
    simp only [List.mem_append, or_and_right, exists_or]

end

/-- The declared names are the full names of the types. -/
theorem mem_declaredNames {root full : String} {file : FileDescriptor} :
    full ∈ declaredNames root file ↔
      ∃ path kind, file.Declares path kind ∧ full = fullName root path := by
  rw [declaredNames, List.mem_append]
  constructor
  · rintro (hmem | hmem)
    · obtain ⟨⟨path, message⟩, hplaced, hfull⟩ := (mem_namesInAll root full [] _).mp hmem
      rcases hfull with rfl | ⟨enum, henum, rfl⟩
      · exact ⟨path, .message, .message hplaced, rfl⟩
      · exact ⟨_, .enum, .nested hplaced henum, rfl⟩
    · obtain ⟨enum, henum, rfl⟩ := List.mem_map.mp hmem
      exact ⟨_, .enum, .enum henum, rfl⟩
  · rintro ⟨path, kind, hdeclares, rfl⟩
    cases hdeclares with
    | message hplaced =>
      exact .inl ((mem_namesInAll root _ [] _).mpr ⟨_, hplaced, .inl rfl⟩)
    | nested hplaced henum =>
      exact .inl ((mem_namesInAll root _ [] _).mpr ⟨_, hplaced, .inr ⟨_, henum, rfl⟩⟩)
    | enum henum => exact .inr (List.mem_map_of_mem henum)

/-! ### Linking a file -/

/-- Linking a file keeps the paths of its messages. -/
theorem placed_link (file : FileDescriptor) :
    (link file).placed = file.placed.map fun entry =>
      (entry.1, inMessage file.typeNames (fullName file.root entry.1.dropLast) entry.2) :=
  placed_inMessages _ _ [] _

/-- A message of the file stands in the linked file, linked in its own scope. -/
theorem mem_placed_link {file : FileDescriptor} {path : List String} {message : MessageDescriptor}
    (h : (path, message) ∈ file.placed) :
    (path, inMessage file.typeNames (fullName file.root path.dropLast) message) ∈
      (link file).placed := by
  rw [placed_link]
  exact List.mem_map.mpr ⟨_, h, rfl⟩

/-- Linking declares what was declared before. -/
theorem declares_link {file : FileDescriptor} {path : List String} {kind : TypeKind} :
    (link file).Declares path kind ↔ file.Declares path kind := by
  -- linking changes the types of fields and methods, not what is declared
  constructor
  · intro h
    cases h with
    | message hplaced =>
      rw [placed_link] at hplaced
      obtain ⟨⟨_, message⟩, hmem, heq⟩ := List.mem_map.mp hplaced
      cases heq
      exact .message hmem
    | nested hplaced henum =>
      rw [placed_link] at hplaced
      obtain ⟨⟨_, message⟩, hmem, heq⟩ := List.mem_map.mp hplaced
      cases heq
      rw [inMessage_eq] at henum
      exact .nested hmem henum
    | enum henum => exact .enum henum
  · intro h
    cases h with
    | message hplaced => exact .message (mem_placed_link hplaced)
    | nested hplaced henum =>
      refine .nested (mem_placed_link hplaced) ?_
      rw [inMessage_eq]
      exact henum
    | enum henum => exact .enum henum

mutual

/-- Linking a message keeps the names that it declares. -/
theorem namesIn_inMessage (known : List String) (around scope : String) :
    ∀ message : MessageDescriptor,
    namesIn scope (inMessage known around message) = namesIn scope message
  | ⟨name, fields, messages, enums, oneofs⟩ => by
    rw [inMessage, namesIn, namesIn, namesInAll_inMessages]

/-- Linking messages keeps the names that they declare. -/
theorem namesInAll_inMessages (known : List String) (around scope : String) :
    ∀ messages : List MessageDescriptor,
    namesInAll scope (inMessages known around messages) = namesInAll scope messages
  | [] => by rw [inMessages]
  | message :: rest => by
    rw [inMessages, namesInAll, namesInAll, namesIn_inMessage, namesInAll_inMessages]

end

/-- Linking keeps the full names of the types. -/
theorem typeNames_link (file : FileDescriptor) : (link file).typeNames = file.typeNames := by
  show namesInAll file.root (inMessages _ _ file.messages) ++ _ = _
  rw [namesInAll_inMessages]
  rfl

end Link

end Protoscribe
