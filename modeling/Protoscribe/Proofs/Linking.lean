import Protoscribe.Proofs.Link.Compiled
import Protoscribe.Proofs.Table

/-!
# `Protoscribe.Proofs.Linking`: what linking a file does

Linking looks every type name up and changes nothing else. `StandsFor` says what a name stands for
without a search: a name with a dot in front for itself, any other one for the declared type in the
longest scope that declares it, and otherwise for itself with a dot in front. The scopes are read
off the text of a full name (`Around`), so names with dots in them need no care.

* `resolve_standsFor`: looking a name up finds what it stands for.
* `bare_link`: without the names of types, a file and its linked one are equal.
* `link_link`: linking a linked file changes nothing.
* `FileDraft.build_isLinked`: a finished file holds what was drafted, with every type name replaced
  by what it stands for.
-/

set_option autoImplicit false

namespace Protoscribe

/-! ### What a name stands for -/

/-- A type of the file has the full name. -/
def FileDescriptor.HasType (file : FileDescriptor) (full : String) : Prop :=
  ∃ path kind, file.Declares path kind ∧ full = Link.fullName file.root path

namespace Link

/-- A full name is its own scope, and whatever stands in front of one of its dots is one as well. -/
def Around (full scope : String) : Prop :=
  full = scope ∨ ∃ rest, full = qualify scope rest

/-- What a name stands for, seen from the element with the full name `full`. -/
inductive StandsFor (file : FileDescriptor) (full name : String) : String → Prop
  | absolute (hdot : name.toList.head? = some '.') : StandsFor file full name name
  | declared {scope : String} (hname : name.toList.head? ≠ some '.') (hscope : Around full scope)
      (hdeclared : file.HasType (qualify scope name))
      (hlongest : ∀ other, Around full other → file.HasType (qualify other name) →
        other.length ≤ scope.length) :
      StandsFor file full name (qualify scope name)
  | undeclared (hname : name.toList.head? ≠ some '.')
      (hnone : ∀ scope, Around full scope → ¬ file.HasType (qualify scope name)) :
      StandsFor file full name ("." ++ name)

/-- The cuts of a text are what stands in front of its dots. -/
theorem mem_cuts {front text : List Char} :
    front ∈ cuts text ↔ ∃ rest, text = rest ++ '.' :: front.reverse := by
  -- a cut is a prefix in front of a dot, kept in reverse
  induction text with
  | nil => simp [cuts]
  | cons c text ih =>
    rw [cuts]
    split
    case isTrue hdot =>
      subst hdot
      rw [List.mem_cons, ih]
      constructor
      · rintro (rfl | ⟨rest, rfl⟩)
        · exact ⟨[], by simp⟩
        · exact ⟨'.' :: rest, rfl⟩
      · rintro ⟨rest, heq⟩
        cases rest with
        | nil => exact .inl (by simp [(List.cons.inj heq).2])
        | cons _ rest => exact .inr ⟨rest, (List.cons.inj heq).2⟩
    case isFalse hdot =>
      rw [ih]
      constructor
      · rintro ⟨rest, rfl⟩
        exact ⟨c :: rest, rfl⟩
      · rintro ⟨rest, heq⟩
        cases rest with
        | nil => exact absurd (List.cons.inj heq).1 hdot
        | cons _ rest => exact ⟨rest, (List.cons.inj heq).2⟩

/-- The scopes that are searched are those around the element. -/
theorem mem_scopes {full : String} {scope : List Char} :
    scope ∈ scopes full.toList ↔ Around full (String.ofList scope) := by
  rw [scopes_eq_cons, List.mem_cons, mem_cuts, Around]
  refine or_congr ?_ ⟨?_, ?_⟩
  · rw [← String.toList_inj, String.toList_ofList]
    exact eq_comm
  · rintro ⟨rest, heq⟩
    have hfull := congrArg List.reverse heq
    refine ⟨String.ofList rest.reverse, String.toList_inj.mp ?_⟩
    rw [toList_qualify, String.toList_ofList, String.toList_ofList]
    simpa using hfull
  · rintro ⟨rest, rfl⟩
    exact ⟨rest.toList.reverse, by simp [toList_qualify]⟩

/-- The list of full names holds those of the declared types. -/
theorem mem_typeNames_iff {file : FileDescriptor} {full : String} :
    full ∈ file.typeNames ↔ file.HasType full :=
  mem_declaredNames

/-- A search stops at the first scope that declares the name. -/
theorem find?_scopes_eq_some {known : List String} {scopes : List (List Char)} {name found : String}
    (h : (scopes.map fun around => qualify (String.ofList around) name).find? known.contains =
      some found) :
    ∃ inner scope outer, scopes = inner ++ scope :: outer ∧
      found = qualify (String.ofList scope) name ∧ found ∈ known ∧
      ∀ around ∈ inner, qualify (String.ofList around) name ∉ known := by
  obtain ⟨hknown, _, _, heq, hfront⟩ := List.find?_eq_some_iff_append.mp h
  obtain ⟨inner, _, rfl, rfl, hrest⟩ := List.map_eq_append_iff.mp heq
  obtain ⟨scope, outer, rfl, rfl, -⟩ := List.map_eq_cons_iff.mp hrest
  refine ⟨inner, scope, outer, rfl, rfl, by simpa using hknown, fun around haround => ?_⟩
  simpa using hfront _ (List.mem_map_of_mem haround)

/-- Looking a name up finds what it stands for. -/
theorem resolve_standsFor (file : FileDescriptor) (full name : String) :
    StandsFor file full name (resolve file.typeNames full name) := by
  unfold resolve
  split
  case isTrue hdot => exact .absolute hdot
  case isFalse hname =>
    cases hfind : ((scopes full.toList).map
        fun around => qualify (String.ofList around) name).find? file.typeNames.contains with
    | some found =>
      obtain ⟨inner, scope, outer, heq, rfl, hknown, hfront⟩ := find?_scopes_eq_some hfind
      refine .declared hname (mem_scopes.mp (heq ▸ by simp)) (mem_typeNames_iff.mp hknown) ?_
      -- a longer scope comes earlier, and those do not declare the name
      intro other hother hdeclared
      have hmem : other.toList ∈ scopes full.toList := mem_scopes.mpr (by simpa using hother)
      have hshorter := pairwise_scopes full.toList
      rw [heq] at hmem hshorter
      rcases List.mem_append.mp hmem with hinner | hmem
      · have hnot := hfront _ hinner
        rw [String.ofList_toList] at hnot
        exact absurd (mem_typeNames_iff.mpr hdeclared) hnot
      · rw [String.length_ofList, ← String.length_toList]
        rcases List.mem_cons.mp hmem with heq | houter
        · exact Nat.le_of_eq (congrArg List.length heq)
        · have hrest := (List.pairwise_append.mp hshorter).2.1
          exact Nat.le_of_lt ((List.pairwise_cons.mp hrest).1 _ houter)
    | none =>
      refine .undeclared hname fun scope hscope hdeclared => ?_
      have hmem : scope.toList ∈ scopes full.toList := mem_scopes.mpr (by simpa using hscope)
      have hnot := List.find?_eq_none.mp hfind _ (List.mem_map_of_mem hmem)
      rw [String.ofList_toList] at hnot
      exact hnot (by simpa using mem_typeNames_iff.mpr hdeclared)

/-! ### Absolute names -/

/-- A scope is empty, or it starts with a dot. -/
def IsScope (scope : String) : Prop :=
  scope = "" ∨ scope.toList.head? = some '.'

/-- The scope of a package is one. -/
theorem isScope_rootScope (package : Option String) : IsScope (rootScope package) := by
  unfold rootScope
  split
  · split
    · exact .inl rfl
    · exact .inr (by simp)
  · exact .inl rfl

/-- A name that is qualified by a scope starts with a dot. -/
theorem IsScope.head?_qualify {scope : String} (h : IsScope scope) (name : String) :
    (qualify scope name).toList.head? = some '.' := by
  rw [toList_qualify]
  rcases h with rfl | h
  · rfl
  · rw [List.head?_append, h]
    rfl

/-- Full names are scopes. -/
theorem isScope_fullName {root : String} (hroot : IsScope root) (path : List String) :
    IsScope (fullName root path) := by
  induction path using List.reverseRecOn with
  | nil => exact hroot
  | append_singleton path name ih =>
    rw [fullName_append]
    exact .inr (ih.head?_qualify name)

/-- Whatever is around a full name is a scope. -/
theorem IsScope.around {full scope : String} (h : IsScope full) (hscope : Around full scope) :
    IsScope scope := by
  rcases hscope with rfl | ⟨rest, rfl⟩
  · exact h
  · rw [IsScope, toList_qualify, List.head?_append] at h
    cases hhead : scope.toList.head? with
    | none => exact .inl (by simpa using hhead)
    | some c =>
      rcases h with hempty | hdot
      · have hlength := congrArg String.length hempty
        rw [length_qualify] at hlength
        simp at hlength
      · rw [hhead] at hdot
        exact .inr (hhead.trans hdot)

/-- What a name stands for starts with a dot. -/
theorem StandsFor.head? {file : FileDescriptor} {full name result : String}
    (h : StandsFor file full name result) (hfull : IsScope full) :
    result.toList.head? = some '.' := by
  cases h with
  | absolute hdot => exact hdot
  | declared _ hscope => exact (hfull.around hscope).head?_qualify name
  | undeclared => simp

/-- A name that starts with a dot is not looked up. -/
theorem resolve_of_head? {known : List String} {scope name : String}
    (h : name.toList.head? = some '.') : resolve known scope name = name :=
  if_pos h

/-- A name that was looked up is not looked up again. -/
theorem map_resolve_resolve (file : FileDescriptor) {full : String} (hfull : IsScope full)
    (name : Option String) :
    (name.map (resolve file.typeNames full)).map (resolve file.typeNames full) =
      name.map (resolve file.typeNames full) := by
  rw [Option.map_map]
  refine Option.map_congr fun text _ => resolve_of_head? ?_
  exact (resolve_standsFor file full text).head? hfull

/-- A file starts with a scope. -/
theorem isScope_root (file : FileDescriptor) : IsScope file.root :=
  isScope_rootScope _

mutual

/-- Linking a message that is linked changes nothing. -/
theorem inMessage_inMessage (file : FileDescriptor) (path : List String) :
    ∀ message : MessageDescriptor,
    inMessage file.typeNames (fullName file.root path)
        (inMessage file.typeNames (fullName file.root path) message) =
      inMessage file.typeNames (fullName file.root path) message
  | ⟨name, fields, messages, enums, oneofs⟩ => by
    simp only [inMessage, ← fullName_append, List.map_map, MessageDescriptor.mk.injEq, true_and,
      and_true]
    refine ⟨List.map_congr_left fun field _ => ?_, inMessages_inMessages file _ messages⟩
    have hscope := isScope_fullName (isScope_root file) (path ++ [name.getD ""])
    simp only [Function.comp_apply, map_resolve_resolve file hscope]

/-- Linking messages that are linked changes nothing. -/
theorem inMessages_inMessages (file : FileDescriptor) (path : List String) :
    ∀ messages : List MessageDescriptor,
    inMessages file.typeNames (fullName file.root path)
        (inMessages file.typeNames (fullName file.root path) messages) =
      inMessages file.typeNames (fullName file.root path) messages
  | [] => by rw [inMessages, inMessages]
  | message :: rest => by
    rw [inMessages, inMessages, inMessage_inMessage file path message,
      inMessages_inMessages file path rest]

end

/-- Linking a method that is linked changes nothing. -/
theorem inMethod_inMethod (file : FileDescriptor) (method : MethodDescriptor) :
    inMethod file.typeNames file.root (inMethod file.typeNames file.root method) =
      inMethod file.typeNames file.root method := by
  simp only [inMethod, map_resolve_resolve file (isScope_root file)]

/-- A file is linked message by message and method by method. -/
theorem link_eq (file : FileDescriptor) : link file =
    { file with
      messages := inMessages file.typeNames file.root file.messages
      services := file.services.map fun service =>
        { service with methods := service.methods.map (inMethod file.typeNames file.root) } } :=
  rfl

/-- Linking a linked file changes nothing. -/
theorem link_link (file : FileDescriptor) : link (link file) = link file := by
  have hroot : (link file).root = file.root := rfl
  rw [link_eq (link file), typeNames_link, hroot, link_eq file]
  simp only [FileDescriptor.mk.injEq, true_and, and_true, List.map_map]
  refine ⟨inMessages_inMessages file [] _, List.map_congr_left fun service _ => ?_⟩
  simp only [Function.comp_apply, List.map_map, ServiceDescriptor.mk.injEq, true_and]
  exact List.map_congr_left fun method _ => inMethod_inMethod file method

end Link

/-! ### Everything but the names of types -/

/-- The field without the name of its type. -/
def FieldDescriptor.bare (field : FieldDescriptor) : FieldDescriptor :=
  { field with typeName := none }

/-- The method without the names of its types. -/
def MethodDescriptor.bare (method : MethodDescriptor) : MethodDescriptor :=
  { method with inputType := none, outputType := none }

namespace MessageDescriptor

mutual

/-- The message without the names of types, at every depth. -/
def bare : MessageDescriptor → MessageDescriptor
  | ⟨name, fields, messages, enums, oneofs⟩ =>
    ⟨name, fields.map FieldDescriptor.bare, bareAll messages, enums, oneofs⟩

/-- The messages of a list without the names of types. -/
def bareAll : List MessageDescriptor → List MessageDescriptor
  | [] => []
  | message :: rest => bare message :: bareAll rest

end

end MessageDescriptor

/-- The file without the names of types. -/
def FileDescriptor.bare (file : FileDescriptor) : FileDescriptor :=
  { file with
    messages := MessageDescriptor.bareAll file.messages
    services := file.services.map fun service =>
      { service with methods := service.methods.map MethodDescriptor.bare } }

namespace Link

mutual

/-- Linking a message touches nothing but the names of types. -/
theorem bare_inMessage (known : List String) (scope : String) : ∀ message : MessageDescriptor,
    (inMessage known scope message).bare = message.bare
  | ⟨name, fields, messages, enums, oneofs⟩ => by
    rw [inMessage, MessageDescriptor.bare, MessageDescriptor.bare, bareAll_inMessages,
      List.map_map]
    rfl

/-- Linking messages touches nothing but the names of types. -/
theorem bareAll_inMessages (known : List String) (scope : String) :
    ∀ messages : List MessageDescriptor,
    MessageDescriptor.bareAll (inMessages known scope messages) =
      MessageDescriptor.bareAll messages
  | [] => by rw [inMessages]
  | message :: rest => by
    rw [inMessages, MessageDescriptor.bareAll, MessageDescriptor.bareAll, bare_inMessage,
      bareAll_inMessages]

end

/-- Linking touches nothing but the names of types. -/
theorem bare_link (file : FileDescriptor) : (link file).bare = file.bare := by
  rw [link_eq, FileDescriptor.bare, FileDescriptor.bare]
  simp only [bareAll_inMessages, List.map_map, FileDescriptor.mk.injEq, true_and, and_true]
  refine List.map_congr_left fun service _ => ?_
  simp only [Function.comp_apply, List.map_map, ServiceDescriptor.mk.injEq, true_and]
  exact List.map_congr_left fun method _ => rfl

/-! ### A linked file -/

/-- A file is another one with every type name replaced by what it stands for. The messages of the
two are compared place by place, those nested in others included. -/
structure IsLinked (source file : FileDescriptor) : Prop where
  fields : List.Forall₂ (fun message linked =>
    linked.1 = message.1 ∧
      List.Forall₂ (fun (field new : FieldDescriptor) =>
        Option.Rel (StandsFor source (fullName source.root message.1)) field.typeName new.typeName)
        message.2.fields linked.2.fields) source.placed file.placed
  methods : List.Forall₂ (fun (service linked : ServiceDescriptor) =>
    List.Forall₂ (fun (method new : MethodDescriptor) =>
      Option.Rel (StandsFor source source.root) method.inputType new.inputType ∧
        Option.Rel (StandsFor source source.root) method.outputType new.outputType)
      service.methods linked.methods) source.services file.services
  others : file.bare = source.bare

/-- Every type name of the file starts with a dot. -/
structure IsAbsolute (file : FileDescriptor) : Prop where
  fields : ∀ entry ∈ file.placed, ∀ field ∈ entry.2.fields, ∀ name ∈ field.typeName,
    name.toList.head? = some '.'
  methods : ∀ service ∈ file.services, ∀ method ∈ service.methods,
    (∀ name ∈ method.inputType, name.toList.head? = some '.') ∧
      ∀ name ∈ method.outputType, name.toList.head? = some '.'

/-- A name is resolved to what it stands for. -/
theorem rel_map_resolve (file : FileDescriptor) (full : String) (name : Option String) :
    Option.Rel (StandsFor file full) name (name.map (resolve file.typeNames full)) := by
  cases name with
  | none => exact .none
  | some name => exact .some (resolve_standsFor file full name)

/-- A linked file is the file with every type name replaced. -/
theorem isLinked_link (file : FileDescriptor) : IsLinked file (link file) where
  fields := by
    rw [placed_link, List.forall₂_map_right_iff, List.forall₂_same]
    rintro ⟨path, message⟩ hplaced
    refine ⟨rfl, ?_⟩
    -- the scope of the fields is the message itself, which stands at the path
    have hpath := MessageDescriptor.path_eq_of_mem_placedAll _ hplaced
    rw [inMessage_eq, ← fullName_append, ← hpath, List.forall₂_map_right_iff, List.forall₂_same]
    exact fun field _ => rel_map_resolve file _ field.typeName
  methods := by
    rw [link_eq, List.forall₂_map_right_iff, List.forall₂_same]
    intro service _
    rw [List.forall₂_map_right_iff, List.forall₂_same]
    exact fun method _ => ⟨rel_map_resolve file _ _, rel_map_resolve file _ _⟩
  others := bare_link file

/-- What a name stands for starts with a dot. -/
theorem head?_of_rel {file : FileDescriptor} {full : String} (hfull : IsScope full)
    {name linked : Option String} (h : Option.Rel (StandsFor file full) name linked) :
    ∀ text ∈ linked, text.toList.head? = some '.' := by
  intro text htext
  cases h with
  | none => simp at htext
  | some hstands =>
    obtain rfl := Option.some.inj htext
    exact hstands.head? hfull

/-- All names of a linked file start with a dot. -/
theorem IsLinked.isAbsolute {source file : FileDescriptor} (h : IsLinked source file) :
    IsAbsolute file where
  fields := by
    intro entry hentry field hfield
    obtain ⟨original, -, -, hfields⟩ := (exists_of_forall₂ h.fields).2 entry hentry
    obtain ⟨_, -, hstands⟩ := (exists_of_forall₂ hfields).2 field hfield
    exact head?_of_rel (isScope_fullName (isScope_root source) _) hstands
  methods := by
    intro service hservice method hmethod
    obtain ⟨_, -, hmethods⟩ := (exists_of_forall₂ h.methods).2 service hservice
    obtain ⟨_, -, hinput, houtput⟩ := (exists_of_forall₂ hmethods).2 method hmethod
    exact ⟨head?_of_rel (isScope_root source) hinput, head?_of_rel (isScope_root source) houtput⟩

end Link

/-! ### Finished files -/

namespace FileDraft

/-- Items are listed in the order of their names. -/
structure ListedByName {α : Type} (name : α → String) (items listed : List α) : Prop where
  same : listed.Perm items
  sorted : listed.Pairwise fun earlier later => name earlier ≤ name later

/-- An item is inserted where its name belongs. -/
theorem pairwise_insertByName {α : Type} {name : α → String} {item : α} {items : List α}
    (h : items.Pairwise fun earlier later => name earlier ≤ name later) :
    (insertByName name item items).Pairwise fun earlier later => name earlier ≤ name later := by
  induction items with
  | nil => simp [insertByName]
  | cons head rest ih =>
    obtain ⟨hhead, hrest⟩ := List.pairwise_cons.mp h
    unfold insertByName
    split
    case isTrue hlt =>
      refine List.pairwise_cons.mpr ⟨fun later hlater => ?_, ih hrest⟩
      rcases List.mem_cons.mp ((perm_insertByName name item rest).mem_iff.mp hlater) with
        rfl | hlater
      · exact String.not_lt.mp fun hafter => String.lt_irrefl _ (String.lt_trans hlt hafter)
      · exact hhead later hlater
    case isFalse hnot =>
      have hle : name item ≤ name head := String.not_lt.mp hnot
      refine List.pairwise_cons.mpr ⟨fun later hlater => ?_, h⟩
      rcases List.mem_cons.mp hlater with rfl | hlater
      · exact hle
      · exact String.le_trans hle (hhead later hlater)

/-- Sorting lists the items by name. -/
theorem listedByName_sortByName {α : Type} (name : α → String) (items : List α) :
    ListedByName name items (sortByName name items) where
  same := perm_sortByName name items
  sorted := by
    induction items with
    | nil => exact List.Pairwise.nil
    | cons item rest ih => exact pairwise_insertByName ih

/-- The file holds what was drafted: messages in their order, enums, services and imports by
name. -/
structure HeldBy (draft : FileDraft) (file : FileDescriptor) : Prop where
  name : file.name = some draft.name
  package : file.package = if draft.package = "" then none else some draft.package
  dependencies : file.dependencies.Pairwise (· < ·) ∧
    ∀ dependency, dependency ∈ file.dependencies ↔ draft.dependencies.contains dependency = true
  messages : file.messages = draft.messages.map FileMessage.build
  enums : ∃ listed, ListedByName EnumDraft.name draft.enums listed ∧
    file.enums = listed.map EnumDraft.build
  services : ∃ listed, ListedByName ServiceDraft.name draft.services listed ∧
    file.services = listed.map ServiceDraft.build
  extensions : file.extensions = []
  locations : file.locations = if draft.locations = [] then none else some draft.locations
  syntaxName : file.syntaxName = some "proto3"

/-- What is drafted is in the file, each in its place. -/
theorem heldBy_assemble (draft : FileDraft) : draft.HeldBy draft.assemble where
  name := rfl
  package := by simp [assemble, String.isEmpty_iff]
  dependencies := by
    refine ⟨Table.pairwise_keys _, fun dependency => ⟨fun hmem => ?_, fun hcontains => ?_⟩⟩
    · obtain ⟨entry, hentry, rfl⟩ := List.mem_map.mp hmem
      rw [Table.contains, Table.find?_eq_some_iff.mpr hentry]
      rfl
    · obtain ⟨value, hvalue⟩ := Option.isSome_iff_exists.mp hcontains
      exact Table.mem_keys_of_find?_eq_some hvalue
  messages := rfl
  enums := ⟨_, listedByName_sortByName _ _, rfl⟩
  services := ⟨_, listedByName_sortByName _ _, rfl⟩
  extensions := rfl
  locations := by simp [assemble]
  syntaxName := rfl

/-- A finished file holds what was drafted, in finished messages that were handed in as well, but
for the names of types: each of them is replaced by what it stands for. They are absolute then, so
linking the file once more changes nothing. -/
theorem build_isLinked (draft : FileDraft) :
    draft.HeldBy draft.assemble ∧ Link.IsLinked draft.assemble draft.build ∧
      Link.IsAbsolute draft.build ∧ Link.link draft.build = draft.build :=
  ⟨draft.heldBy_assemble, Link.isLinked_link _, (Link.isLinked_link _).isAbsolute,
    Link.link_link _⟩

end FileDraft

end Protoscribe
