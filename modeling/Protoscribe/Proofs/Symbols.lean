import Mathlib.Data.List.Nodup
import Protoscribe.Proofs.Compile.ScopeNames
import Protoscribe.Proofs.NamesAndNumbers
import Protoscribe.Proofs.Oneofs

/-!
# `Protoscribe.Proofs.Symbols`: which names share a scope

All names that a message declares share one scope: those of its fields, oneof groups and nested
types, and the values of its enums, which stand beside the enum and not in it. So do the types, the
service and the values of the enums of a file. A compilation looks names of one kind up before it
takes them, but not names of different kinds. Their spelling keeps many of them apart (`Spelled`):
groups that are made for optional fields share no name with anything, and values with a prefix are
no fields and no types, unless they begin with an underscore. What remains is `Apart`, and
`symbols_unique_iff` states that it is all that the uniqueness of symbols depends on.
-/

set_option autoImplicit false

namespace Protoscribe

/-! ### Scopes -/

/-- The names of the values of an enum. -/
def EnumDescriptor.valueNames (enum : EnumDescriptor) : List String :=
  enum.values.map (·.name.getD "")

/-- Do no two of the enums have a value of one name? -/
def EnumDescriptor.ShareNoValue (enums : List EnumDescriptor) : Prop :=
  enums.Pairwise fun enum other => enum.valueNames.Disjoint other.valueNames

namespace MessageDescriptor

def fieldNames (message : MessageDescriptor) : List String :=
  message.fields.map (·.name.getD "")

def oneofNames (message : MessageDescriptor) : List String :=
  message.oneofs.map (·.name.getD "")

/-- The names of the nested messages and enums. -/
def nestedNames (message : MessageDescriptor) : List String :=
  message.messages.map (·.name.getD "") ++ message.enums.map (·.name.getD "")

/-- The names of the values of all nested enums. -/
def valueNames (message : MessageDescriptor) : List String :=
  message.enums.flatMap (·.valueNames)

/-- All names in the scope of the message. -/
def symbols (message : MessageDescriptor) : List String :=
  message.fieldNames ++ message.oneofNames ++ message.nestedNames ++ message.valueNames

/-- A group of the name is that of a union, not one that has been made for an optional field. -/
def HasUnion (message : MessageDescriptor) (name : String) : Prop :=
  ∃ place, message.oneofNames[place]? = some name ∧ ¬ message.IsSynthetic place

/-- Names of different kinds that are not kept apart by their spelling. -/
structure Apart (message : MessageDescriptor) : Prop where
  unions : ∀ name ∈ message.fieldNames, ¬ message.HasUnion name
  types : ∀ name ∈ message.nestedNames, name ∉ message.fieldNames ∧ ¬ message.HasUnion name
  values : ∀ name ∈ message.valueNames, name.toList.head? = some '_' →
    name ∉ message.fieldNames ∧ ¬ message.HasUnion name ∧ name ∉ message.nestedNames
  enums : EnumDescriptor.ShareNoValue message.enums

end MessageDescriptor

namespace FileDescriptor

def serviceNames (file : FileDescriptor) : List String :=
  file.services.map (·.name.getD "")

/-- The names of the values of all enums outside messages. -/
def valueNames (file : FileDescriptor) : List String :=
  file.enums.flatMap (·.valueNames)

/-- All names in the scope of the file. -/
def symbols (file : FileDescriptor) : List String :=
  file.topLevelNames ++ file.serviceNames ++ file.valueNames

/-- Names of different kinds that are not kept apart by their spelling. -/
structure Apart (file : FileDescriptor) : Prop where
  services : ∀ name ∈ file.serviceNames, name ∉ file.topLevelNames
  values : ∀ name ∈ file.valueNames, name.toList.head? = some '_' → name ∉ file.topLevelNames
  enums : EnumDescriptor.ShareNoValue file.enums

/-- In no scope of the file do two symbols have one name. -/
structure SymbolsUnique (file : FileDescriptor) : Prop where
  own : file.symbols.Nodup
  messages : ∀ path message, (path, message) ∈ file.placed → message.symbols.Nodup

/-- In no scope of the file is a name shared that spelling does not keep apart. -/
structure SymbolsApart (file : FileDescriptor) : Prop where
  own : file.Apart
  messages : ∀ path message, (path, message) ∈ file.placed → message.Apart

end FileDescriptor

/-! ### Messages -/

/-- The values of an enum are different, and they are spelled like values with a prefix. -/
structure EnumDescriptor.Spelled (enum : EnumDescriptor) : Prop where
  distinct : enum.valueNames.Nodup
  upper : ∀ name ∈ enum.valueNames, UpperName name
  joined : ∀ name ∈ enum.valueNames, '_' ∈ name.toList

/-- Names of one kind are different, and they are spelled like names of their kind. -/
structure MessageDescriptor.Spelled (message : MessageDescriptor) : Prop where
  fields : message.fieldNames.Nodup
  oneofs : message.oneofNames.Nodup
  types : message.nestedNames.Nodup
  enums : ∀ enum ∈ message.enums, enum.Spelled
  fieldName : ∀ name ∈ message.fieldNames, ∃ text, name = Identifier.fieldName text
  oneofName : ∀ name ∈ message.oneofNames,
    message.HasUnion name ∧ (∃ text, name = Identifier.fieldName text) ∨
      ∃ text, name = "_" ++ Identifier.fieldName text
  typeName : ∀ name ∈ message.nestedNames, TypeName name

namespace MessageDescriptor

variable {message : MessageDescriptor}

/-- A union is one of the groups. -/
theorem HasUnion.mem_oneofNames {name : String} (h : message.HasUnion name) :
    name ∈ message.oneofNames := by
  obtain ⟨place, hplace, -⟩ := h
  exact List.mem_of_getElem? hplace

/-- A guarded name is that of a group for a union, if it is that of any group. -/
theorem Spelled.not_mem_oneofNames (h : message.Spelled) {name : String}
    (hguards : UnderscoreGuards name) (hunion : ¬ message.HasUnion name) :
    name ∉ message.oneofNames := by
  intro hname
  rcases h.oneofName name hname with ⟨hreal, -⟩ | ⟨text, heq⟩
  · exact hunion hreal
  · exact hguards.ne_underscore_fieldName text heq

/-- A value that begins with a letter is the name of nothing else. -/
theorem Spelled.not_mem_of_value (h : message.Spelled) {name : String} (hupper : UpperName name)
    (hunderscore : '_' ∈ name.toList) (hstart : name.toList.head? ≠ some '_') :
    name ∉ message.fieldNames ∧ name ∉ message.oneofNames ∧ name ∉ message.nestedNames := by
  have hempty : name ≠ "" := by
    rintro rfl
    simp at hunderscore
  refine ⟨fun hfield => ?_, fun honeof => ?_, fun htype => ?_⟩
  · obtain ⟨text, heq⟩ := h.fieldName name hfield
    exact hupper.ne_fieldName hempty hstart text heq
  · rcases h.oneofName name honeof with ⟨-, text, heq⟩ | ⟨text, heq⟩
    · exact hupper.ne_fieldName hempty hstart text heq
    · exact hupper.guards.ne_underscore_fieldName text heq
  · exact hupper.ne_typeName hunderscore hstart (h.typeName name htype) rfl

/-- Where names of one kind are different, the symbols are different when those of different kinds
are. -/
theorem Spelled.nodup_symbols_iff (h : message.Spelled) :
    message.symbols.Nodup ↔ message.Apart := by
  have hsplit : message.symbols.Nodup ↔
      message.fieldNames.Disjoint message.oneofNames ∧
      (message.fieldNames ++ message.oneofNames).Disjoint message.nestedNames ∧
      EnumDescriptor.ShareNoValue message.enums ∧
      (message.fieldNames ++ message.oneofNames ++ message.nestedNames).Disjoint
        message.valueNames := by
    rw [symbols, List.nodup_append', List.nodup_append', List.nodup_append', valueNames,
      List.nodup_flatMap, and_iff_right h.fields, and_iff_right h.oneofs, and_iff_right h.types,
      and_iff_right fun enum henum => (h.enums enum henum).distinct, and_assoc]
    rfl
  rw [hsplit]
  constructor
  · rintro ⟨hunions, htypes, henums, hvalues⟩
    rw [List.disjoint_append_left] at htypes
    rw [List.disjoint_append_left, List.disjoint_append_left] at hvalues
    obtain ⟨⟨hfields, honeofs⟩, hnested⟩ := hvalues
    exact
      { unions := fun name hname hreal => hunions hname hreal.mem_oneofNames
        types := fun name hname =>
          ⟨fun hfield => htypes.1 hfield hname, fun hreal => htypes.2 hreal.mem_oneofNames hname⟩
        values := fun name hname _ =>
          ⟨fun hfield => hfields hfield hname, fun hreal => honeofs hreal.mem_oneofNames hname,
            fun htype => hnested htype hname⟩
        enums := henums }
  · intro hapart
    refine ⟨fun name hfield => ?_, ?_, hapart.enums, fun name hother hvalue => ?_⟩
    · obtain ⟨text, heq⟩ := h.fieldName name hfield
      have hguards : UnderscoreGuards name :=
        heq ▸ (Identifier.fieldName_guarded text).underscoreGuards
      exact h.not_mem_oneofNames hguards (hapart.unions name hfield)
    · intro name hmember htype
      obtain ⟨hfield, hunion⟩ := hapart.types name htype
      rcases List.mem_append.mp hmember with hmem | hmem
      · exact hfield hmem
      · exact h.not_mem_oneofNames (h.typeName name htype).guards hunion hmem
    · suffices hnot : name ∉ message.fieldNames ∧ name ∉ message.oneofNames ∧
          name ∉ message.nestedNames by
        simp only [List.mem_append] at hother
        exact hother.elim (fun hmember => hmember.elim hnot.1 hnot.2.1) hnot.2.2
      obtain ⟨enum, henum, hmem⟩ := List.mem_flatMap.mp hvalue
      have hupper := (h.enums enum henum).upper name hmem
      -- a value that begins with a letter needs no condition
      by_cases hstart : name.toList.head? = some '_'
      · obtain ⟨hfield, hunion, htype⟩ := hapart.values name hvalue hstart
        exact ⟨hfield, h.not_mem_oneofNames hupper.guards hunion, htype⟩
      · exact h.not_mem_of_value hupper ((h.enums enum henum).joined name hmem) hstart

end MessageDescriptor

/-! ### Files -/

/-- Names of one kind are different, and they are spelled like names of their kind. -/
structure FileDescriptor.Spelled (file : FileDescriptor) : Prop where
  types : file.topLevelNames.Nodup
  services : file.serviceNames.Nodup
  enums : ∀ enum ∈ file.enums, enum.Spelled
  typeName : ∀ name ∈ file.topLevelNames, TypeName name
  serviceName : ∀ name ∈ file.serviceNames, ∃ c ∈ name.toList, c.isLower = true

/-- Where names of one kind are different, the symbols of the file are different when those of
different kinds are. -/
theorem FileDescriptor.Spelled.nodup_symbols_iff {file : FileDescriptor} (h : file.Spelled) :
    file.symbols.Nodup ↔ file.Apart := by
  -- names of one kind are distinct anyway
  have hsplit : file.symbols.Nodup ↔ file.topLevelNames.Disjoint file.serviceNames ∧
      EnumDescriptor.ShareNoValue file.enums ∧
      (file.topLevelNames ++ file.serviceNames).Disjoint file.valueNames := by
    rw [symbols, List.nodup_append', List.nodup_append', valueNames, List.nodup_flatMap,
      and_iff_right h.types, and_iff_right h.services,
      and_iff_right fun enum henum => (h.enums enum henum).distinct]
    rfl
  rw [hsplit]
  constructor
  · rintro ⟨hservices, henums, hvalues⟩
    rw [List.disjoint_append_left] at hvalues
    exact ⟨fun name hservice htype => hservices htype hservice,
      fun name hvalue _ htype => hvalues.1 htype hvalue, henums⟩
  · intro hapart
    refine ⟨fun name htype hservice => hapart.services name hservice htype, hapart.enums, ?_⟩
    intro name hother hvalue
    obtain ⟨enum, henum, hmem⟩ := List.mem_flatMap.mp hvalue
    -- names of values are in capitals, so they differ from those of types and services
    have hupper := (h.enums enum henum).upper name hmem
    rcases List.mem_append.mp hother with htype | hservice
    · by_cases hstart : name.toList.head? = some '_'
      · exact hapart.values name hvalue hstart htype
      · exact hupper.ne_typeName ((h.enums enum henum).joined name hmem) hstart
          (h.typeName name htype) rfl
    · obtain ⟨c, hc, hlower⟩ := h.serviceName name hservice
      exact hupper.ne_of_isLower hc hlower rfl

/-! ### Compiled names -/

/-- Names that are all given are given. -/
theorem map_getD_eq {options : List (Option String)} {names : List String}
    (h : options = names.map some) : options.map (·.getD "") = names := by
  rw [h, List.map_map]
  exact List.map_id names

/-- A finished enum has the value names of its draft. -/
theorem EnumDraft.valueNames_build (draft : EnumDraft) : draft.build.valueNames = draft.values := by
  rw [← map_getD_eq draft.names_build, List.map_map]
  rfl

/-- The compiled file has the services of the draft, in another order. -/
theorem FileDraft.serviceNames_build (file : FileDraft) :
    file.build.serviceNames.Perm (file.services.map (·.name)) := by
  have hnames : file.build.serviceNames = file.sortedServices.map (·.name) := by
    show ((file.sortedServices.map ServiceDraft.build).map _).map _ = _
    rw [List.map_map, List.map_map]
    rfl
  rw [hnames]
  exact (perm_sortByName _ file.services).map _

namespace FileDescriptor

variable {file : FileDescriptor} {path : List String} {draft : MessageDraft}

/-- A linked message has the field names of its draft. -/
theorem fieldNames_linked_eq : (file.linked path draft).fieldNames = draft.fieldNames := by
  rw [← map_getD_eq (file.fieldNames_linked path draft), List.map_map]
  rfl

/-- A linked message has the names of nested types of its draft. -/
theorem nestedNames_linked_eq (hpath : path = path.dropLast ++ [draft.name]) :
    (file.linked path draft).nestedNames = draft.typeNames := by
  rw [← map_getD_eq (file.nestedNames_linked hpath), List.map_append, List.map_map, List.map_map]
  rfl

/-- The groups of a message are those of the draft, or they are named after its fields. -/
theorem mem_oneofNames_linked {name : String}
    (h : name ∈ (file.linked path draft).oneofNames) :
    name ∈ draft.oneofs ∨ ∃ field ∈ draft.fields, name = "_" ++ field.name := by
  rw [MessageDescriptor.oneofNames, oneofs_linked, List.map_map] at h
  obtain ⟨group, hgroup, rfl⟩ := List.mem_map.mp h
  rcases List.mem_append.mp hgroup with hdeclared | hsynthetic
  · exact .inl hdeclared
  · obtain ⟨field, hfield, rfl⟩ := List.mem_map.mp hsynthetic
    exact .inr ⟨field, List.mem_of_mem_filter hfield, rfl⟩

/-- The groups of a message are those of a union, or they are named after optional fields. -/
theorem oneofNames_linked {group : Option Int32} (hgrouped : Compile.Grouped group draft)
    (hnames : Compile.NamesFields draft) (hdistinct : draft.DistinctNames) :
    (file.linked path draft).oneofNames.Nodup ∧
    ∀ name ∈ (file.linked path draft).oneofNames,
      (file.linked path draft).HasUnion name ∧ (∃ text, name = Identifier.fieldName text) ∨
        ∃ text, name = "_" ++ Identifier.fieldName text := by
  -- a message has the groups of its optional fields, or the one group of a union
  rcases hgrouped.declared with ⟨rfl, -⟩ | ⟨rfl, -⟩
  · have honeofs : (file.linked path draft).oneofNames =
        (draft.fields.filter (·.isSynthetic)).map fun field => "_" ++ field.name := by
      rw [MessageDescriptor.oneofNames, oneofs_of_plain file path hgrouped, List.map_map]
      rfl
    rw [honeofs]
    constructor
    · have hfields : ((draft.fields.filter (·.isSynthetic)).map (·.name)).Nodup :=
        hdistinct.fields.sublist (List.filter_sublist.map _)
      have hbehind := hfields.map fun _ _ => (String.append_right_inj "_").mp
      rwa [List.map_map] at hbehind
    · intro name hname
      obtain ⟨field, hfield, rfl⟩ := List.mem_map.mp hname
      obtain ⟨text, htext⟩ := hnames field (List.mem_of_mem_filter hfield)
      exact .inr ⟨text, congrArg _ htext⟩
  · obtain ⟨text, honeofs⟩ := oneofs_of_union file path hgrouped
    have hone : (file.linked path draft).oneofNames = [Identifier.fieldName text] := by
      rw [MessageDescriptor.oneofNames, honeofs]
      rfl
    refine ⟨by simp [hone], fun name hname => .inl ⟨⟨0, ?_, ?_⟩, text, ?_⟩⟩
    · rw [hone] at hname ⊢
      cases List.mem_singleton.mp hname
      rfl
    · exact not_isSynthetic_of_union hgrouped 0
    · rw [hone] at hname
      exact List.mem_singleton.mp hname

end FileDescriptor

namespace Compile

open OpenApi (Document SchemaNode)

/-- With prefixes, the values of a finished enum are spelled after it. -/
theorem NamesValues.spelled_build {job : Job} {enum : EnumDraft} (h : NamesValues job enum)
    (hprefixed : job.config.prefixEnumValues = true) : enum.build.Spelled := by
  constructor <;> rw [enum.valueNames_build]
  · exact h.distinct
  · exact h.upper
  · exact h.joined hprefixed

namespace Outcome

variable {job : Job} {s : State}

/-! ### Names of a kind -/

section

variable {path : List String} {draft : MessageDraft}

/-- Fields are named after texts. -/
theorem exists_text_of_mem_fieldNames (h : Outcome job s) (hplaced : (path, draft) ∈ s.file.placed)
    {name : String} (hname : name ∈ (s.file.build.linked path draft).fieldNames) :
    ∃ text, name = Identifier.fieldName text := by
  rw [FileDescriptor.fieldNames_linked_eq] at hname
  obtain ⟨field, hfield, rfl⟩ := List.mem_map.mp hname
  exact h.of_mem_placed (namesFields_stable job s.facts) hplaced field hfield

/-- The groups of a message are those of a union, or they are named after optional fields. -/
theorem oneofNames_linked (h : Outcome job s) (hplaced : (path, draft) ∈ s.file.placed) :
    (s.file.build.linked path draft).oneofNames.Nodup ∧
    ∀ name ∈ (s.file.build.linked path draft).oneofNames,
      (s.file.build.linked path draft).HasUnion name ∧ (∃ text, name = Identifier.fieldName text) ∨
        ∃ text, name = "_" ++ Identifier.fieldName text := by
  obtain ⟨outer, houter, hwithin⟩ := FileDraft.mem_placed.mp hplaced
  obtain ⟨group, hgrouped⟩ :=
    (h.justified.messages outer houter).everywhere_grouped.of_mem_placed hwithin
  exact FileDescriptor.oneofNames_linked hgrouped
    (h.of_mem_placed (namesFields_stable job s.facts) hplaced)
    (h.of_mem_placed (distinctNames_stable job s.facts) hplaced)

/-- The names of nested types are of a kind when all names of types are. -/
theorem ofKind_of_mem_nestedNames {kind : String → Prop} (hkind : NamesTypes job kind)
    (h : Outcome job s) (hplaced : (path, draft) ∈ s.file.placed) {name : String}
    (hname : name ∈ (s.file.build.linked path draft).nestedNames) : kind name := by
  rw [FileDescriptor.nestedNames_linked_eq (FileDraft.path_eq_of_mem_placed hplaced)] at hname
  rcases List.mem_append.mp hname with hname | hname
  · obtain ⟨nested, hnested, rfl⟩ := List.mem_map.mp hname
    have hbelow := FileDraft.mem_placed_of_nested hplaced hnested
    exact (h.of_mem_placed (named_stable hkind s.facts) hbelow).name
  · obtain ⟨enum, henum, rfl⟩ := List.mem_map.mp hname
    exact (h.of_mem_placed (named_stable hkind s.facts) hplaced).enums enum henum

/-- The enums of a compiled message come from drafts that name their values. -/
theorem exists_namesValues_of_nested (h : Outcome job s) (hplaced : (path, draft) ∈ s.file.placed)
    {enum : EnumDescriptor} (henum : enum ∈ (s.file.build.linked path draft).enums) :
    ∃ drafted, NamesValues job drafted ∧ enum = drafted.build := by
  rw [FileDescriptor.enums_linked] at henum
  obtain ⟨drafted, hdrafted, rfl⟩ := List.mem_map.mp henum
  exact ⟨drafted, h.of_mem_placed (namesValues_stable job s.facts) hplaced drafted hdrafted, rfl⟩

end

/-- The enums of a compiled file come from drafts that name their values. -/
theorem exists_namesValues (h : Outcome job s) {enum : EnumDescriptor}
    (henum : enum ∈ s.file.build.enums) :
    ∃ drafted, NamesValues job drafted ∧ enum = drafted.build := by
  obtain ⟨drafted, hdrafted, rfl⟩ := List.mem_map.mp henum
  exact ⟨drafted, h.justified.namesValues (FileDraft.mem_sortByName.mp hdrafted), rfl⟩

/-- The service is named after a text. -/
theorem exists_text_of_mem_serviceNames (h : Outcome job s) {name : String}
    (hname : name ∈ s.file.build.serviceNames) :
    ∃ text, name = job.messageName text ++ "Service" := by
  rw [s.file.serviceNames_build.mem_iff] at hname
  rcases h.services with hnoService | ⟨service, text, hone, hservice⟩
  · simp [hnoService] at hname
  · rw [hone] at hname
    cases List.mem_singleton.mp hname
    exact ⟨text, hservice⟩

/-! ### Spelling -/

/-- With prefixes, the names in a compiled message are spelled like their kinds. -/
theorem spelled_linked (h : Outcome job s) (hprefixed : job.config.prefixEnumValues = true)
    {path : List String} {draft : MessageDraft} (hplaced : (path, draft) ∈ s.file.placed) :
    (s.file.build.linked path draft).Spelled := by
  have hdistinct := h.of_mem_placed (distinctNames_stable job s.facts) hplaced
  have hpath := FileDraft.path_eq_of_mem_placed hplaced
  constructor
  case fields => exact FileDescriptor.fieldNames_linked_eq ▸ hdistinct.fields
  case oneofs => exact (h.oneofNames_linked hplaced).1
  case types => exact FileDescriptor.nestedNames_linked_eq hpath ▸ hdistinct.types
  case enums =>
    intro enum henum
    obtain ⟨drafted, hvalues, rfl⟩ := h.exists_namesValues_of_nested hplaced henum
    exact hvalues.spelled_build hprefixed
  case fieldName => exact fun name hname => h.exists_text_of_mem_fieldNames hplaced hname
  case oneofName => exact (h.oneofNames_linked hplaced).2
  case typeName =>
    exact fun name hname => h.ofKind_of_mem_nestedNames (typeName_namesTypes job) hplaced hname

/-- With prefixes and without finished messages, the names in the scope of the file are spelled like
their kinds. -/
theorem spelled_build (h : Outcome job s) (hprefixed : job.config.prefixEnumValues = true)
    (hnone : job.config.additionalMessages = []) : s.file.build.Spelled := by
  constructor
  case types => exact s.file.topLevelNames_build.nodup_iff.mpr h.justified.names
  case services =>
    rw [s.file.serviceNames_build.nodup_iff]
    rcases h.services with hnoService | ⟨service, text, hone, -⟩
    · simp [hnoService]
    · simp [hone]
  case enums =>
    intro enum henum
    obtain ⟨drafted, hvalues, rfl⟩ := h.exists_namesValues henum
    exact hvalues.spelled_build hprefixed
  case typeName =>
    intro name hname
    exact h.justified.ofKind_of_mem_typeNames (typeName_namesTypes job) hnone
      (s.file.topLevelNames_build.mem_iff.mp hname)
  case serviceName =>
    intro name hname
    obtain ⟨text, rfl⟩ := h.exists_text_of_mem_serviceNames hname
    exact ⟨'e', by simp, by decide⟩

end Outcome

/-- With prefixes and without finished messages, the symbols of a compiled file are unique in all
scopes exactly when none of the names is shared that spelling does not keep apart. -/
theorem symbols_unique_iff {document : Document} {config : Config} {out : Output}
    (hprefixed : config.prefixEnumValues = true) (hnone : config.additionalMessages = [])
    (h : compile document config = .ok out) : out.file.SymbolsUnique ↔ out.file.SymbolsApart := by
  obtain ⟨s, -, hs, hfile⟩ := compile_eq_ok h
  rw [hfile]
  have hown := (hs.spelled_build hprefixed hnone).nodup_symbols_iff
  have hmessages : ∀ path message, (path, message) ∈ s.file.build.placed →
      (message.symbols.Nodup ↔ message.Apart) := by
    intro path message hplaced
    obtain ⟨draft, hdraft, rfl⟩ := hs.exists_linked hnone hplaced
    exact (hs.spelled_linked hprefixed hdraft).nodup_symbols_iff
  constructor
  · intro hunique
    exact ⟨hown.mp hunique.own, fun path message hplaced =>
      (hmessages path message hplaced).mp (hunique.messages path message hplaced)⟩
  · intro hapart
    exact ⟨hown.mpr hapart.own, fun path message hplaced =>
      (hmessages path message hplaced).mpr (hapart.messages path message hplaced)⟩

/-- Two messages with enums of one name, and a field that is called like its message. -/
def wardrobe : Document :=
  let size : SchemaNode := .inline { shape := .enum [.text "s", .text "m"] }
  descriptionOf
    [("Coat", objectNode [("size", size), ("coat", nullableNode)]),
     ("Hat", .inline { shape := .oneOf [textNode, objectNode [("size", size)] (some "Size")] }),
     ("Size", size)]

/-- The symbols of the wardrobe are unique exactly when no name is shared. -/
theorem symbols_unique_iff_wardrobe :
    ∃ out, compile wardrobe {} = .ok out ∧ ({} : Config).prefixEnumValues = true ∧
      ({} : Config).additionalMessages = [] ∧
      (out.file.SymbolsUnique ↔ out.file.SymbolsApart) := by
  have hcompiles : compilesTo wardrobe {} (fun _ => true) = true := by decide +kernel
  obtain ⟨out, -, hout, -⟩ := exists_of_compilesTo hcompiles
  exact ⟨out, hout, rfl, rfl, symbols_unique_iff rfl rfl hout⟩

/-- A union with a variant of its own name. -/
def petUnion : Document :=
  descriptionOf
    [("Pet", .inline { shape := .oneOf [.inline { title := some "Pet", shape := .string none }] })]

/-- The field for the variant has the name of the group that it is in. -/
theorem petUnion_repeats_symbol :
    ∃ out, compile petUnion {} = .ok out ∧ ({} : Config).prefixEnumValues = true ∧
      ({} : Config).additionalMessages = [] ∧ ¬ out.file.SymbolsUnique := by
  have hcompiles : compilesTo petUnion {} (fun s =>
      s.file.build.placed.any fun entry => decide ¬ entry.2.symbols.Nodup) = true := by
    decide +kernel
  obtain ⟨out, s, hout, hfile, -, hcheck⟩ := exists_of_compilesTo hcompiles
  rw [← hfile] at hcheck
  simp only [List.any_eq_true, decide_eq_true_eq] at hcheck
  obtain ⟨⟨path, message⟩, hplaced, hrepeats⟩ := hcheck
  exact ⟨out, hout, rfl, rfl, fun hunique => hrepeats (hunique.messages path message hplaced)⟩

end Compile

end Protoscribe
