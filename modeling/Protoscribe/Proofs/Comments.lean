import Mathlib.Data.List.TakeWhile
import Protoscribe.Printer
import Protoscribe.Proofs.Draft.Elements

/-!
# `Protoscribe.Proofs.Comments`: comments stay with their elements

A comment is stored under the path of its element and looked up by that path when the file is
printed. Three walks compute such paths: one over the draft, where comments are stored, one over the
finished file, where a reader looks for the element, and that of the printer. `FileDraft.print`
needs no paths: each drafted element brings its own comment. The main result is that the printed
file is the same (`FileDraft.comments_stay_iff`), exactly as long as there are indices for all
elements.
-/

set_option autoImplicit false

namespace Protoscribe

open Address

/-! ### Stored comments -/

/-- Nothing is left of a text without its outer white space exactly when it is all white space. -/
theorem Text.trim_eq_nil_iff {text : List Char} :
    Text.trim text = [] ↔ ∀ c ∈ text, Text.isBlank c = true := by
  have hrest : Text.trim text = [] ↔ ∀ c ∈ text.dropWhile Text.isBlank, Text.isBlank c = true := by
    simp [Text.trim, Text.trimEnd, List.dropWhile_eq_nil_iff]
  rw [hrest]
  constructor
  · intro h c hc
    rw [← List.takeWhile_append_dropWhile (p := Text.isBlank) (l := text)] at hc
    rcases List.mem_append.mp hc with hc | hc
    · exact List.mem_takeWhile_imp hc
    · exact h c hc
  · exact fun h c hc => h c ((List.dropWhile_suffix _).subset hc)

namespace Draft

/-- Is there a comment that holds anything but white space? -/
def HasText (comment : Option String) : Prop :=
  ∃ text, comment = some text ∧ ∃ c ∈ text.toList, Text.isBlank c = false

/-- A comment is stored exactly when it holds anything but white space. -/
theorem exists_storedComment_iff {comment : Option String} :
    (∃ text, storedComment? comment = some text) ↔ HasText comment := by
  cases comment with
  | none => simp [storedComment?, HasText]
  | some text =>
    have htext : HasText (some text) ↔ Text.trim text.toList ≠ [] := by
      simp [Text.trim_eq_nil_iff, HasText]
    rw [htext, storedComment?]
    cases Text.trim text.toList <;> simp

/-- A comment that is stored has one location, which is that of its element. -/
theorem mem_located {path : List Int32} {comment : Option String} {location : Location} :
    location ∈ located path comment ↔ ∃ text, storedComment? comment = some text ∧
      location = ⟨path, [0, 0, 0], some text⟩ := by
  rw [located, List.mem_map]
  simp only [Option.mem_toList, @eq_comm _ location]

end Draft

/-! ### Looking up comments -/

namespace Printer

/-- Surroundings without comments. -/
def bare (package : String) : Surroundings :=
  ⟨package, []⟩

/-- The lines of a comment that an element carries itself. -/
def ownComment (depth : Nat) (comment : Option String) : List Line :=
  match Draft.storedComment? comment with
  | none => []
  | some text => (Text.lines text.toList).map fun line => .comment depth (String.ofList line)

/-- The last location of a comment holds the comment. -/
theorem getLast?_located (path : List Int32) (comment : Option String) :
    ((Draft.located path comment).getLast?.bind (·.comment)) = Draft.storedComment? comment := by
  unfold Draft.located
  cases Draft.storedComment? comment <;> rfl

/-- Under a path stands the comment of the element that has the path. -/
theorem filter_located (path place : List Int32) (comment : Option String) :
    ((Draft.located place comment).filter fun location =>
      location.path == path && location.comment.isSome) =
    if place = path then Draft.located place comment else [] := by
  unfold Draft.located
  cases Draft.storedComment? comment with
  | none => simp
  | some text => by_cases hpath : place = path <;> simp [hpath]

/-- Among parts with paths of their own, the locations with a path are those of its part. -/
theorem filter_locations {parts : List (List Int32 × Part)} (hnodup : (parts.map Prod.fst).Nodup)
    {path : List Int32} {found : Option Part}
    (hfound : ∀ part, (path, part) ∈ parts ↔ found = some part) :
    ((parts.flatMap fun part => Draft.located part.1 part.2.comment).filter fun location =>
      location.path == path && location.comment.isSome) =
    found.toList.flatMap fun part => Draft.located path part.comment := by
  induction parts generalizing found with
  | nil =>
    have hnone : found = none := Option.eq_none_iff_forall_ne_some.mpr fun part hpart => by
      simpa using (hfound part).mpr hpart
    rw [hnone]
    rfl
  | cons first rest ih =>
    obtain ⟨hnot, hrest⟩ := List.nodup_cons.mp hnodup
    rw [List.flatMap_cons, List.filter_append, filter_located]
    by_cases hpath : first.1 = path
    · -- the part with the path comes first, and no other one has the path
      have hfirst : found = some first.2 := (hfound _).mp (hpath ▸ List.mem_cons_self ..)
      have hnone : ∀ part, (path, part) ∈ rest ↔ (none : Option Part) = some part := by
        intro part
        simpa using fun hpart => hnot (hpath ▸ List.mem_map_of_mem hpart)
      rw [if_pos hpath, ih hrest hnone, hfirst, hpath]
      simp
    · have hsame : ∀ part, (path, part) ∈ rest ↔ found = some part := by
        intro part
        rw [← hfound, List.mem_cons, or_iff_right]
        exact fun heq => hpath (congrArg Prod.fst heq).symm
      rw [if_neg hpath, ih hrest hsame, List.nil_append]

/-- Looked up below a path, the comments are those of the parts that `partAt` leads to. -/
def Reads (around : Surroundings) (path : List Int32) (partAt : List Int32 → Option Part) : Prop :=
  ∀ rest, around.comment? (path ++ rest) =
    (partAt rest).bind fun part => Draft.storedComment? part.comment

/-- Below a path, no comments are found. -/
def Silent (around : Surroundings) (path : List Int32) : Prop :=
  ∀ rest, around.comment? (path ++ rest) = none

end Printer

/-- The comments of the finished file are those of the draft. -/
theorem FileDraft.locations_build (file : FileDraft) :
    file.build.locations.getD [] = file.locations := by
  show (if file.locations.isEmpty then none else some file.locations).getD [] = file.locations
  cases file.locations <;> rfl

/-- What the printer knows when it prints the elements of a file. -/
abbrev FileDescriptor.surroundings (file : FileDescriptor) : Printer.Surroundings :=
  ⟨file.package.getD "", file.locations.getD []⟩

/-- Where the file has an index for each element, a path leads to the comment of its part. -/
theorem FileDraft.comment?_build {file : FileDraft} (h : file.Fits) (path : List Int32) :
    file.build.surroundings.comment? path =
      (file.partAt path).bind fun part => Draft.storedComment? part.comment := by
  have hlocations : file.build.surroundings.locations = _ :=
    file.locations_build.trans file.locations_eq
  rw [Printer.Surroundings.comment?, hlocations,
    Printer.filter_locations (file.nodup_parts_iff.mpr h) fun _ => mem_parts_iff h]
  cases file.partAt path with
  | none => rfl
  | some part =>
    rw [Option.toList_some, List.flatMap_singleton]
    exact Printer.getLast?_located path part.comment

namespace Printer

variable {around : Surroundings} {path : List Int32}

/-- Where the comment of an element is looked up, it is printed. -/
theorem Surroundings.comments_eq {comment : Option String}
    (h : around.comment? path = Draft.storedComment? comment) (depth : Nat) :
    around.comments depth path = ownComment depth comment := by
  rw [comments, h]
  rfl

/-- Where nothing is looked up, nothing is printed. -/
theorem Surroundings.comments_eq_nil (h : around.comment? path = none) (depth : Nat) :
    around.comments depth path = [] := by
  rw [comments, h]

namespace Reads

variable {partAt : List Int32 → Option Part}

/-- The comment of a part is printed above the part itself. -/
theorem here (h : Reads around path partAt) {part : Part} (hroot : partAt [] = some part)
    (depth : Nat) : around.comments depth path = ownComment depth part.comment := by
  refine Surroundings.comments_eq ?_ depth
  have hpath := h []
  rwa [List.append_nil, hroot] at hpath

/-- Comments of an item are looked up below its place in the list. -/
theorem item {α : Type} {items : List α} {tag : Int32} {index : Nat} {item : α}
    {inner : α → List Int32 → Option Part} (h : Reads around path partAt)
    (hlength : items.length ≤ 2 ^ 31) (hitem : items[index]? = some item)
    (hbelow : ∀ rest, partAt (tag :: Draft.position index :: rest) =
      (item? items (Draft.position index)).bind fun item => inner item rest) :
    Reads around (child path tag index) (inner item) := by
  intro rest
  -- all places of the list have indices, so the index leads to the item itself
  have hlt : index < 2 ^ 31 := Nat.lt_of_lt_of_le (List.getElem?_eq_some_iff.mp hitem).1 hlength
  have hpath : child path tag index ++ rest = path ++ tag :: Draft.position index :: rest :=
    List.append_assoc ..
  rw [hpath, h, hbelow, item?_position hlt, hitem, Option.bind_some]

end Reads

/-- Where there are no comments, there are none further down. -/
theorem Silent.child (h : Silent around path) (tag : Int32) (index : Nat) :
    Silent around (child path tag index) := by
  intro rest
  rw [Printer.child, List.append_assoc]
  exact h _

/-- Where there are no comments, none is printed. -/
theorem Silent.here (h : Silent around path) (depth : Nat) : around.comments depth path = [] := by
  refine Surroundings.comments_eq_nil ?_ depth
  simpa using h []

/-- Surroundings without comments have none anywhere. -/
theorem bare_silent (package : String) (path : List Int32) : Silent (bare package) path :=
  fun _ => rfl

/-! ### Lists in print -/

/-- An item is listed with its place. -/
theorem mem_indexed {α : Type} {items : List α} {entry : Nat × α} :
    entry ∈ indexed items ↔ items[entry.1]? = some entry.2 := by
  obtain ⟨index, item⟩ := entry
  rw [indexed, List.mem_map, ← List.mk_mem_zipIdx_iff_getElem?]
  constructor
  · rintro ⟨⟨_, _⟩, hmem, heq⟩
    cases heq
    exact hmem
  · exact fun hmem => ⟨_, hmem, rfl⟩

/-- Building the items leaves their places alone. -/
theorem indexed_map {α β : Type} (build : α → β) (items : List α) :
    indexed (items.map build) = (indexed items).map fun entry => (entry.1, build entry.2) := by
  simp [indexed, List.zipIdx_map, Function.comp_def]

/-- Without their places, the items are there in their order. -/
theorem map_snd_indexed {α : Type} (items : List α) : (indexed items).map (·.2) = items := by
  simp [indexed, Function.comp_def]

/-- Items that print what is drafted for them, one by one, print what is drafted for the list. -/
theorem map_indexed_map {α β γ : Type} {items : List α} {build : α → β} {print : Nat × β → γ}
    {own : α → γ} (h : ∀ index item, items[index]? = some item →
      print (index, build item) = own item) :
    (indexed (items.map build)).map print = items.map own := by
  rw [indexed_map, List.map_map]
  conv_rhs => rw [← map_snd_indexed items, List.map_map]
  exact List.map_congr_left fun entry hentry => h entry.1 entry.2 (mem_indexed.mp hentry)

/-- Nested messages are printed one by one, each under its own path. -/
theorem messages_eq_map (around : Surroundings) (depth : Nat) (path : List Int32) (tag : Int32)
    (items : List MessageDescriptor) :
    messages around depth path tag 0 items =
      (indexed items).map fun entry => message around depth (child path tag entry.1) entry.2 := by
  have hfrom : ∀ start, messages around depth path tag start items =
      (items.zipIdx start).map fun entry =>
        message around depth (child path tag entry.2) entry.1 := by
    induction items with
    | nil => exact fun _ => rfl
    | cons item rest ih => exact fun start => by rw [messages, ih, List.zipIdx_cons, List.map_cons]
  rw [hfrom, indexed, List.map_map]
  rfl

/-- The lines of a printed message, part by part. -/
theorem message_eq (around : Surroundings) (depth : Nat) (path : List Int32)
    (descriptor : MessageDescriptor) :
    message around depth path descriptor =
      around.comments depth path ++
        [.code depth ("message " ++ descriptor.name.getD "" ++ " \x7b")] ++
        separated
          (((indexed descriptor.enums).map fun item =>
              enum around (depth + 1) (child path 4 item.1) item.2) ++
            ((indexed descriptor.messages).map fun item =>
              message around (depth + 1) (child path 3 item.1) item.2) ++
            (if descriptor.fields.isEmpty then []
             else [(members descriptor.fields).flatMap
               (member around (depth + 1) path descriptor.oneofs)])) ++
        [.code depth "\x7d"] := by
  cases descriptor
  rw [message, messages_eq_map]

/-- The fields in a part of a message body, with their indices. -/
def Member.entries : Member → List (Nat × FieldDescriptor)
  | .field index item => [(index, item)]
  | .oneof _ items => items

/-- A part of a message body holds only fields of the message. -/
theorem mem_of_mem_arrange {all rest : List (Nat × FieldDescriptor)} {seen : List Int32}
    (hrest : ∀ entry ∈ rest, entry ∈ all) {member : Member}
    (hmember : member ∈ arrange all seen rest)
    {entry : Nat × FieldDescriptor} (hentry : entry ∈ member.entries) : entry ∈ all := by
  induction rest generalizing seen with
  | nil => simp [arrange] at hmember
  | cons first rest ih =>
    obtain ⟨hfirst, hothers⟩ := List.forall_mem_cons.mp hrest
    obtain ⟨index, item⟩ := first
    unfold arrange at hmember
    split at hmember
    · rcases List.mem_cons.mp hmember with rfl | hmember
      · cases List.mem_singleton.mp hentry
        exact hfirst
      · exact ih hothers hmember
    · split at hmember
      · exact ih hothers hmember
      · rcases List.mem_cons.mp hmember with rfl | hmember
        · exact (List.mem_filter.mp hentry).1
        · exact ih hothers hmember

/-- Fields are printed with the indices that they have in the message. -/
theorem getElem?_of_mem_members {fields : List FieldDescriptor} {member : Member}
    (hmember : member ∈ members fields) {entry : Nat × FieldDescriptor}
    (hentry : entry ∈ member.entries) : fields[entry.1]? = some entry.2 :=
  mem_indexed.mp (mem_of_mem_arrange (fun _ h => h) hmember hentry)

/-! ### Elements with comments of their own -/

/-- A field with its comment. -/
def ownField (package : String) (depth : Nat) (comment : Option String) (item : FieldDescriptor) :
    List Line :=
  ownComment depth comment ++ field (bare package) depth [] item

/-- A part of a message body, where the fields have the comments `comments`. -/
def ownMember (package : String) (depth : Nat) (comments : Nat → Option String)
    (oneofs : List OneofDescriptor) : Member → List Line
  | .field index item => ownField package depth (comments index) item
  | .oneof group items =>
    [.code depth ("oneof " ++ oneofName oneofs group ++ " \x7b")] ++
      (items.flatMap fun item => ownField package (depth + 1) (comments item.1) item.2) ++
      [.code depth "\x7d"]

/-- A field is printed below its comment as it is without comments. -/
theorem field_eq (around : Surroundings) (depth : Nat) (path : List Int32)
    (item : FieldDescriptor) :
    field around depth path item =
      around.comments depth path ++ field (bare around.package) depth [] item := by
  rw [field, field, (bare_silent _ []).here, List.nil_append]
  rfl

/-- A method is printed below its comment as it is without comments. -/
theorem method_eq (around : Surroundings) (depth : Nat) (path : List Int32)
    (item : MethodDescriptor) :
    method around depth path item =
      around.comments depth path ++ method (bare around.package) depth [] item := by
  rw [method, method, (bare_silent _ []).here, List.nil_append]
  rfl

/-- A part of a message body is printed with the comments of its own fields. -/
theorem member_eq {depth : Nat} {comments : Nat → Option String} {oneofs : List OneofDescriptor}
    {item : Member} (h : ∀ entry ∈ item.entries, ∀ depth,
      around.comments depth (child path 2 entry.1) = ownComment depth (comments entry.1)) :
    member around depth path oneofs item = ownMember around.package depth comments oneofs item := by
  cases item with
  | field index item =>
    rw [member, field_eq, h _ (List.mem_singleton_self _)]
    rfl
  | oneof group items =>
    rw [member, ownMember]
    have hitems :
        (items.flatMap fun item => field around (depth + 1) (child path 2 item.1) item.2) =
          items.flatMap fun item => ownField around.package (depth + 1) (comments item.1) item.2 := by
      refine List.flatMap_congr fun entry hentry => ?_
      rw [field_eq, h entry hentry]
      rfl
    rw [hitems]

/-- Where there are no comments, it does not matter under which path an enum is printed. -/
theorem enum_eq_of_silent {other : Surroundings} {path' : List Int32} (h : Silent around path)
    (h' : Silent other path') (depth : Nat) (item : EnumDescriptor) :
    enum around depth path item = enum other depth path' item := by
  simp only [enum, h.here, h'.here, (h.child _ _).here, (h'.child _ _).here]

/-- An enum has a comment of its own, and its values have none. -/
theorem enum_eq {part : Part} (h : Reads around path (leafAt part)) (depth : Nat)
    (item : EnumDescriptor) :
    enum around depth path item =
      ownComment depth part.comment ++ enum (bare "") depth [] item := by
  -- nothing is drafted below an enum, so nothing is found there
  have hvalues : ∀ index, around.comments (depth + 1) (child path 2 index) = [] := fun index =>
    Surroundings.comments_eq_nil (h [2, Draft.position index]) _
  simp only [enum, hvalues, h.here rfl, (bare_silent _ _).here, List.nil_append, List.append_assoc]

/-- Where there are no comments, the fields of a message body are printed without any. -/
theorem member_eq_of_silent (h : Silent around path) (depth : Nat)
    (oneofs : List OneofDescriptor) (item : Member) : member around depth path oneofs item =
      ownMember around.package depth (fun _ => none) oneofs item :=
  member_eq fun entry _ depth => (h.child 2 entry.1).here depth

mutual

/-- Without comments, a message is printed in the same way at every path. -/
theorem message_eq_of_silent {other : Surroundings} (hpackage : around.package = other.package)
    {path path' : List Int32} (h : Silent around path) (h' : Silent other path') (depth : Nat) :
    ∀ item : MessageDescriptor, message around depth path item = message other depth path' item
  | ⟨name, fields, nested, enums, oneofs⟩ => by
    have hbody : member around (depth + 1) path oneofs = member other (depth + 1) path' oneofs := by
      funext item
      rw [member_eq_of_silent h, member_eq_of_silent h', hpackage]
    have henums : ∀ item : Nat × EnumDescriptor,
        enum around (depth + 1) (child path 4 item.1) item.2 =
          enum other (depth + 1) (child path' 4 item.1) item.2 := fun item =>
      enum_eq_of_silent (h.child 4 item.1) (h'.child 4 item.1) _ _
    rw [message, message, h.here, h'.here, messages_eq_of_silent hpackage h h' 3 0 nested]
    simp only [henums]
    rw [hbody]

/-- Where there are no comments, it does not matter under which paths messages are printed. -/
theorem messages_eq_of_silent {other : Surroundings} (hpackage : around.package = other.package)
    {path path' : List Int32} (h : Silent around path) (h' : Silent other path') {depth : Nat}
    (tag : Int32) (start : Nat) : ∀ items : List MessageDescriptor,
    messages around depth path tag start items = messages other depth path' tag start items
  | [] => rfl
  | item :: rest => by
    rw [messages, messages,
      message_eq_of_silent hpackage (h.child tag start) (h'.child tag start) depth item,
      messages_eq_of_silent hpackage h h' tag (start + 1) rest]

end

end Printer

/-! ### Drafts in print -/

open Printer

/-- An enum with its comment. -/
def EnumDraft.print (depth : Nat) (draft : EnumDraft) : List Line :=
  ownComment depth draft.comment ++ enum (bare "") depth [] draft.build

namespace MessageDraft

/-- The comment of the field at a place. -/
def commentAt (fields : List FieldDraft) (place : Nat) : Option String :=
  fields[place]?.bind (·.comment)

mutual

/-- A drafted message with its comment and those of all elements in it, below the messages `names`
of a file. -/
def print (file : FileDescriptor) (names : List String) (depth : Nat) : MessageDraft → List Line
  | ⟨name, comment, numbered, messages, enums, oneofs, takenFields, takenTypes, wrapper⟩ =>
    let fields := numbered.map (·.2)
    let linked := file.linked (names ++ [name])
      ⟨name, comment, numbered, messages, enums, oneofs, takenFields, takenTypes, wrapper⟩
    let body := (members linked.fields).flatMap
      (ownMember (file.package.getD "") (depth + 1) (commentAt fields) linked.oneofs)
    ownComment depth comment ++ [.code depth ("message " ++ name ++ " \x7b")] ++
      separated
        (enums.map (EnumDraft.print (depth + 1)) ++
          printAll file (names ++ [name]) (depth + 1) messages ++
          (if fields.isEmpty then [] else [body])) ++
      [.code depth "\x7d"]

/-- The drafted messages of a list. -/
def printAll (file : FileDescriptor) (names : List String) (depth : Nat) :
    List MessageDraft → List (List Line)
  | [] => []
  | draft :: rest => print file names depth draft :: printAll file names depth rest

end

/-- Drafts that are nested are printed one by one. -/
theorem printAll_eq_map (file : FileDescriptor) (names : List String) (depth : Nat)
    (drafts : List MessageDraft) :
    printAll file names depth drafts = drafts.map (print file names depth) := by
  induction drafts with
  | nil => rfl
  | cons draft rest ih => rw [printAll, ih, List.map_cons]

/-- The lines of a printed draft, part by part. -/
theorem print_eq (file : FileDescriptor) (names : List String) (depth : Nat)
    (draft : MessageDraft) :
    draft.print file names depth =
      ownComment depth draft.comment ++ [.code depth ("message " ++ draft.name ++ " \x7b")] ++
        separated
          (draft.enums.map (EnumDraft.print (depth + 1)) ++
            draft.messages.map (print file (names ++ [draft.name]) (depth + 1)) ++
            (if draft.fields.isEmpty then []
             else [(members (file.linked (names ++ [draft.name]) draft).fields).flatMap
               (ownMember (file.package.getD "") (depth + 1) (commentAt draft.fields)
                 (file.linked (names ++ [draft.name]) draft).oneofs)])) ++
        [.code depth "\x7d"] := by
  cases draft
  rw [print, printAll_eq_map]
  rfl

/-- A linked message has as many fields as its draft. -/
theorem length_fields_linked (file : FileDescriptor) (names : List String) (draft : MessageDraft) :
    (file.linked names draft).fields.length = draft.fields.length := by
  have hnames := congrArg List.length (file.fieldNames_linked names draft)
  rwa [List.length_map, List.length_map, fieldNames, List.length_map] at hnames

end MessageDraft

section

variable {around : Surroundings} {file : FileDescriptor} {path : List Int32}

/-- A field is printed with the comment of the field that was drafted at its place. -/
theorem Printer.member_linked (hpackage : around.package = file.package.getD "")
    {draft : MessageDraft} (hlength : draft.fields.length ≤ 2 ^ 31)
    (h : Reads around path draft.partAt) {names : List String} {depth : Nat} {item : Member}
    (hitem : item ∈ members (file.linked names draft).fields) (oneofs : List OneofDescriptor) :
    member around depth path oneofs item =
      ownMember (file.package.getD "") depth (MessageDraft.commentAt draft.fields) oneofs item := by
  rw [← hpackage]
  refine member_eq fun entry hentry depth => ?_
  have hlinked := getElem?_of_mem_members hitem hentry
  rw [FileDescriptor.getElem?_fields_linked] at hlinked
  obtain ⟨field, hfield, -⟩ := Option.map_eq_some_iff.mp hlinked
  have hreads := h.item hlength hfield (draft.partAt_field _)
  rw [hreads.here rfl, MessageDraft.commentAt, hfield]
  rfl

/-- Where the comments of a message are looked up by the paths of its parts, it is printed with
each comment above its element. -/
theorem Printer.message_linked (hpackage : around.package = file.package.getD "")
    {draft : MessageDraft} (hfits : draft.Fits) (h : Reads around path draft.partAt)
    (names : List String) (depth : Nat) :
    message around depth path (file.linked (names ++ [draft.name]) draft) =
      draft.print file names depth := by
  -- the lookup goes along with the message, down each of its lists
  induction hfits generalizing path names depth with
  | @intro draft hfields hmessages henums _ ih =>
    have hpath : names ++ [draft.name] = (names ++ [draft.name]).dropLast ++ [draft.name] := by
      rw [List.dropLast_concat]
    have hprintedEnums : ((indexed (draft.enums.map EnumDraft.build)).map fun item =>
        enum around (depth + 1) (child path 4 item.1) item.2) =
        draft.enums.map (EnumDraft.print (depth + 1)) := by
      refine map_indexed_map fun index nested hnested => ?_
      have hreads := h.item henums hnested (draft.partAt_enum _)
      exact enum_eq hreads (depth + 1) nested.build
    have hprintedMessages : ((indexed (draft.messages.map fun nested =>
          file.linked (names ++ [draft.name] ++ [nested.name]) nested)).map fun item =>
        message around (depth + 1) (child path 3 item.1) item.2) =
        draft.messages.map (MessageDraft.print file (names ++ [draft.name]) (depth + 1)) := by
      refine map_indexed_map fun index nested hnested => ?_
      have hreads := h.item hmessages hnested (draft.partAt_message _)
      exact ih nested (List.mem_of_getElem? hnested) hreads _ _
    have hempty : (file.linked (names ++ [draft.name]) draft).fields.isEmpty =
        draft.fields.isEmpty := by
      rw [Bool.eq_iff_iff, List.isEmpty_iff_length_eq_zero, List.isEmpty_iff_length_eq_zero,
        MessageDraft.length_fields_linked]
    rw [message_eq, FileDescriptor.enums_linked, FileDescriptor.messages_linked _ hpath,
      FileDescriptor.name_linked, hprintedEnums, hprintedMessages, h.here rfl,
      List.flatMap_congr fun item hitem => member_linked hpackage hfields h hitem _,
      MessageDraft.print_eq, hempty]
    rfl

end

/-- A service with its comment and those of its methods. -/
def ServiceDraft.print (file : FileDescriptor) (draft : ServiceDraft) : List Line :=
  ownComment 0 draft.comment ++ [.code 0 ("service " ++ draft.name ++ " \x7b")] ++
    (draft.methods.flatMap fun drafted =>
      ownComment 1 drafted.comment ++ method (bare (file.package.getD "")) 1 []
        (Link.inMethod file.typeNames file.root drafted.build)) ++
    [.code 0 "\x7d"]

/-- A service of the file is printed as its draft is. -/
theorem Printer.service_linked {around : Surroundings} {file : FileDescriptor}
    (hpackage : around.package = file.package.getD "") {draft : ServiceDraft} (hfits : draft.Fits)
    {path : List Int32} (h : Reads around path draft.partAt) :
    service around 0 path (file.linkedService draft) = draft.print file := by
  have hmethods : (indexed (file.linkedService draft).methods).flatMap (fun item =>
      method around 1 (child path 2 item.1) item.2) =
      draft.methods.flatMap fun drafted =>
        ownComment 1 drafted.comment ++ method (bare (file.package.getD "")) 1 []
          (Link.inMethod file.typeNames file.root drafted.build) := by
    refine congrArg List.flatten (map_indexed_map fun index drafted hdrafted => ?_)
    have hreads := h.item hfits hdrafted (draft.partAt_method _)
    rw [method_eq, hreads.here rfl, hpackage]
    rfl
  rw [service, hmethods, h.here rfl]
  rfl

/-- A message of the file. A finished one comes without comments. -/
def FileMessage.print (file : FileDescriptor) : FileMessage → List Line
  | .drafted draft => draft.print file [] 0
  | .finished descriptor => message (bare (file.package.getD "")) 0 []
      (Link.inMessage file.typeNames file.root descriptor)

/-- A message of the file is printed as its draft is. A finished one has no comments to print. -/
theorem Printer.message_finished {around : Surroundings} {file : FileDraft}
    (hpackage : around.package = file.build.package.getD "") {draft : FileMessage}
    (hfits : draft.Fits) {path : List Int32} (h : Reads around path draft.partAt) :
    message around 0 path (file.finished draft) = draft.print file.build := by
  cases draft with
  | drafted draft => exact message_linked hpackage hfits h [] 0
  | finished descriptor =>
    -- the message has no comment itself, and nothing is drafted below it
    have hsilent : Silent around path := by
      intro rest
      rw [h]
      cases rest <;> rfl
    exact message_eq_of_silent hpackage hsilent (bare_silent _ _) 0 _

namespace FileDraft

/-- The file with all comments above the elements that they were drafted for. That of the package
is printed if there is one. -/
def print (file : FileDraft) : List Line :=
  let declarations := file.sortedEnums.map (EnumDraft.print 0) ++
    file.messages.map (FileMessage.print file.build) ++
    file.sortedServices.map (ServiceDraft.print file.build)
  [.code 0 "syntax = \"proto3\";"] ++
    (if file.package.isEmpty then []
     else .blank :: ownComment 0 file.packageComment ++
      [.code 0 ("package " ++ file.package ++ ";")]) ++
    (if file.dependencies.keys.isEmpty then []
     else .blank :: file.dependencies.keys.map fun name =>
      .code 0 ("import " ++ literal name ++ ";")) ++
    declarations.flatMap fun part => .blank :: part

/-- The file has the package of its draft. -/
theorem package_build (file : FileDraft) : file.build.package.getD "" = file.package := by
  show (if file.package.isEmpty then none else some file.package).getD "" = file.package
  split
  · next hempty => exact (String.isEmpty_iff.mp hempty).symm
  · rfl

/-- Printing the finished file puts each comment above the element that it was drafted for. -/
theorem print_build {file : FileDraft} (h : file.Fits) : Printer.file file.build = file.print := by
  have hreads : Reads file.build.surroundings [] file.partAt := comment?_build h
  -- part by part, each with the surroundings narrowed to its own path
  have henums : (indexed file.build.enums).map (fun item =>
      enum file.build.surroundings 0 (child [] 5 item.1) item.2) =
      file.sortedEnums.map (EnumDraft.print 0) := by
    refine map_indexed_map fun index nested hnested => ?_
    have hlength : file.sortedEnums.length ≤ 2 ^ 31 := file.length_sortedEnums ▸ h.enums
    have hinner := hreads.item hlength hnested (file.partAt_enum _)
    exact enum_eq hinner 0 nested.build
  have hmessages : Printer.messages file.build.surroundings 0 [] 4 0 file.build.messages =
      file.messages.map (FileMessage.print file.build) := by
    rw [messages_eq_map, messages_build]
    refine map_indexed_map fun index message hmessage => ?_
    have hinner := hreads.item h.messages hmessage (file.partAt_message _)
    exact message_finished rfl (h.inMessages _ (List.mem_of_getElem? hmessage)) hinner
  have hservices : (indexed file.build.services).map (fun item =>
      service file.build.surroundings 0 (child [] 6 item.1) item.2) =
      file.sortedServices.map (ServiceDraft.print file.build) := by
    rw [linkedServices_build]
    refine map_indexed_map fun index drafted hdrafted => ?_
    have hlength : file.sortedServices.length ≤ 2 ^ 31 :=
      file.length_sortedServices ▸ h.services
    have hinner := hreads.item hlength hdrafted (file.partAt_service _)
    have hfits := h.inServices _ (mem_sortedServices.mp (List.mem_of_getElem? hdrafted))
    exact service_linked rfl hfits hinner
  have hcomment : file.build.surroundings.comments 0 [2] = ownComment 0 file.packageComment :=
    Surroundings.comments_eq (hreads [2]) 0
  simp only [Printer.file]
  rw [henums, hmessages, hservices, hcomment, package_build]
  rfl

/-- The locations of the finished file hold the comments of the parts, each under its path. -/
theorem mem_locations_build {file : FileDraft} {location : Location} :
    location ∈ file.build.locations.getD [] ↔ ∃ path part text, (path, part) ∈ file.parts ∧
      Draft.storedComment? part.comment = some text ∧ location = ⟨path, [0, 0, 0], some text⟩ := by
  rw [locations_build, locations_eq, List.mem_flatMap]
  simp only [Draft.mem_located, Prod.exists, exists_and_left]

/-- A part has a location exactly when its comment is not blank. -/
theorem exists_location_iff {file : FileDraft} (h : file.Fits) {path : List Int32} {part : Part}
    (hpart : (path, part) ∈ file.parts) :
    (∃ location ∈ file.build.locations.getD [], location.path = path) ↔
      Draft.HasText part.comment := by
  rw [← Draft.exists_storedComment_iff]
  constructor
  · rintro ⟨location, hlocation, rfl⟩
    obtain ⟨path, other, text, hother, htext, rfl⟩ := mem_locations_build.mp hlocation
    -- the path leads to both parts, so they are one
    have hsame := ((mem_parts_iff h).mp hpart).symm.trans ((mem_parts_iff h).mp hother)
    rw [Option.some_inj.mp hsame]
    exact ⟨text, htext⟩
  · rintro ⟨text, htext⟩
    exact ⟨_, mem_locations_build.mpr ⟨path, part, text, hpart, htext, rfl⟩, rfl⟩

/-- The paths of comments are paths of parts, in the same order. -/
theorem map_path_locations (parts : List (List Int32 × Part)) :
    ((parts.flatMap fun part => Draft.located part.1 part.2.comment).map (·.path)).Sublist
      (parts.map Prod.fst) := by
  induction parts with
  | nil => exact .slnil
  | cons first rest ih =>
    rw [List.flatMap_cons, List.map_append, List.map_cons]
    unfold Draft.located
    cases Draft.storedComment? first.2.comment with
    | none => exact ih.cons _
    | some text => exact ih.cons_cons _

/-- Comments stay with the elements that they were drafted for. -/
structure CommentsStay (file : FileDraft) : Prop where
  /-- Every part has a path of its own. -/
  apart : (file.parts.map Prod.fst).Nodup
  /-- So have the locations of the finished file. -/
  distinct : ((file.build.locations.getD []).map (·.path)).Nodup
  /-- They hold comments of parts, each under the path of its part. -/
  stored : ∀ location ∈ file.build.locations.getD [], ∃ path part text, (path, part) ∈ file.parts ∧
    Draft.storedComment? part.comment = some text ∧ location = ⟨path, [0, 0, 0], some text⟩
  /-- There is one for each comment that is not blank, and for no other one. -/
  complete : ∀ path part, (path, part) ∈ file.parts →
    ((∃ location ∈ file.build.locations.getD [], location.path = path) ↔
      Draft.HasText part.comment)
  /-- In the finished file, the path leads to what the part is finished to. -/
  designated : ∀ path part, (path, part) ∈ file.parts →
    ∃ element, file.build.elementAt path = some element ∧ file.Finishes part element
  /-- Under the path, the printer finds the comment of the part. -/
  found : ∀ path part, (path, part) ∈ file.parts →
    file.build.surroundings.comment? path = Draft.storedComment? part.comment
  /-- The file is printed with each comment above the element that it was drafted for. -/
  printed : Printer.file file.build = file.print

/-- Comments stay with their elements exactly when there is an index for each element. -/
theorem comments_stay_iff (file : FileDraft) : file.CommentsStay ↔ file.Fits := by
  constructor
  · exact fun h => file.nodup_parts_iff.mp h.apart
  · intro h
    have hapart := file.nodup_parts_iff.mpr h
    have hdistinct : ((file.build.locations.getD []).map (·.path)).Nodup := by
      rw [locations_build, locations_eq]
      exact hapart.sublist (map_path_locations _)
    have hfound : ∀ path part, (path, part) ∈ file.parts →
        file.build.surroundings.comment? path = Draft.storedComment? part.comment := by
      intro path part hpart
      rw [comment?_build h, (mem_parts_iff h).mp hpart]
      rfl
    exact
      { apart := hapart
        distinct := hdistinct
        stored := fun _ => mem_locations_build.mp
        complete := fun _ _ => exists_location_iff h
        designated := fun _ _ hpart => exists_elementAt ((mem_parts_iff h).mp hpart)
        found := hfound
        printed := print_build h }

/-- A message with two fields, of which one has a comment, and with a nested message. -/
def pet : MessageDraft :=
  (((MessageDraft.addField { name := "Pet" } { name := "id", type := .string }).addField
    { name := "kind", type := .enum, typeName := some "Kind",
      comment := some "What it is." }).addMessage
        { name := "Owner", comment := some "Who keeps it." })

/-- A file with a finished message in front of a drafted one and enums that are not sorted. -/
def petShop : FileDraft where
  name := "pets.proto"
  package := "pets"
  packageComment := some "A shop."
  messages := [.finished { name := some "Empty" }, .drafted pet]
  enums := [{ name := "Size", comment := some "How big it is." }, { name := "Kind" }]

/-- The comments of the pet shop stay with their elements. -/
theorem comments_stay_iff_petShop : petShop.CommentsStay ∧
    (petShop.build.locations.getD []).map (fun location => (location.path, location.comment)) =
      [([2], some " A shop.\n"), ([4, 1, 2, 1], some " What it is.\n"),
       ([4, 1, 3, 0], some " Who keeps it.\n"), ([5, 1], some " How big it is.\n")] := by
  have hfits : petShop.Fits := (nodup_parts_iff _).mp (by decide +kernel)
  exact ⟨(comments_stay_iff petShop).mpr hfits, by decide +kernel⟩

end FileDraft

end Protoscribe
