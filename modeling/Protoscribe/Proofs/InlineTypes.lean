import Protoscribe.Proofs.Compile.History
import Protoscribe.Proofs.Compile.Linked

/-!
# `Protoscribe.Proofs.InlineTypes`: which type an inline schema gets

An inline schema becomes a type that is nested in the message of its field, and the field names the
type. Names come from titles and keys, and of several types with one name the first is nested and
the others are dropped. The fields of the others stay, and what they name is the first type.

`inline_types_kept_iff` says for every field that stands for an inline schema which type it names:
the nested one of that name, with the members of the type that was offered first. So the field gets
the type that its own schema was compiled to exactly when the type that was offered first under the
name has the same members.
-/

set_option autoImplicit false

namespace Protoscribe

/-! ### The content of a type -/

/-- A field without its number and its place in a oneof group. -/
structure FieldSignature where
  name : Option String
  label : Option Int32
  type : Option Int32
  typeName : Option String
  deriving DecidableEq

/-- The members of a type. -/
inductive TypeContent where
  | message (fields : List FieldSignature)
  | enum (values : List EnumValueDescriptor)
  deriving DecidableEq

def FieldDescriptor.signature (field : FieldDescriptor) : FieldSignature :=
  ⟨field.name, field.label, field.type, field.typeName⟩

def MessageDescriptor.content (message : MessageDescriptor) : TypeContent :=
  .message (message.fields.map (·.signature))

def EnumDescriptor.content (enum : EnumDescriptor) : TypeContent :=
  .enum enum.values

/-- The content of the type that is nested under a name. -/
def MessageDescriptor.nestedContent? (message : MessageDescriptor) (name : String) :
    Option TypeContent :=
  ((message.messages.find? (·.name == some name)).map (·.content)).or
    ((message.enums.find? (·.name == some name)).map (·.content))

/-- The content of a type that is nested in the message at a path. -/
def NestedType.content (file : FileDescriptor) (path : List String) : NestedType → TypeContent
  | .message draft => (file.linked (path ++ [draft.name]) draft).content
  | .enum draft => draft.build.content

/-- Under the name of a type, the message at a path nests a type with the same content. -/
def FileDescriptor.Keeps (file : FileDescriptor) (path : List String) (draft : MessageDraft)
    (type : NestedType) : Prop :=
  (file.linked path draft).nestedContent? type.name = some (type.content file path)

/-! ### Nested types of a compiled message -/

namespace FileDescriptor

variable {path : List String} {draft : MessageDraft}

/-- A name stands for the content of the first nested type of the name. -/
theorem nestedContent?_linked (file : FileDescriptor)
    (hpath : path = path.dropLast ++ [draft.name]) (name : String) :
    (file.linked path draft).nestedContent? name =
      (firstNamed draft.nestedTypes name).map (NestedType.content file path) := by
  rw [MessageDescriptor.nestedContent?, messages_linked file hpath, enums_linked,
    MessageDraft.nestedTypes, firstNamed_append, Option.map_or, firstNamed, firstNamed,
    List.find?_map, List.find?_map, List.find?_map, List.find?_map, Option.map_map,
    Option.map_map, Option.map_map, Option.map_map]
  have hmessage : ((fun message : MessageDescriptor => message.name == some name) ∘
      fun nested => file.linked (path ++ [nested.name]) nested) =
        (fun type : NestedType => type.name == name) ∘ NestedType.message := by
    funext nested
    simp [name_linked, NestedType.name]
  have henum : ((fun enum : EnumDescriptor => enum.name == some name) ∘ EnumDraft.build) =
      (fun type : NestedType => type.name == name) ∘ NestedType.enum := by
    funext nested
    simp [EnumDraft.build, NestedType.name]
  rw [hmessage, henum]
  rfl

end FileDescriptor

namespace Compile

open OpenApi (Document Schema)

variable {job : Job} {s : State}

/-- A field of the message at a path names the type that is nested there for an inline field. -/
structure InlineField.LeadsTo (field : InlineField) (file : FileDescriptor) (path : List String)
    (linked : FieldDescriptor) : Prop where
  name : linked.name = some field.name
  type : linked.type = some field.type.fieldType.code
  typeName : linked.typeName = some (Link.fullName file.root (path ++ [field.type.name]))

/-- Nested types have plain names. -/
theorem Outcome.plain_of_mem_nestedTypes (h : Outcome job s) {path : List String}
    {draft : MessageDraft} (hplaced : (path, draft) ∈ s.file.placed) {type : NestedType}
    (htype : type ∈ draft.nestedTypes) : Plain type.name := by
  rcases List.mem_append.mp htype with htype | htype
  · obtain ⟨nested, hnested, rfl⟩ := List.mem_map.mp htype
    have hbelow := FileDraft.mem_placed_of_nested hplaced hnested
    exact h.plain_path hbelow nested.name (by simp)
  · obtain ⟨nested, hnested, rfl⟩ := List.mem_map.mp htype
    exact (h.of_mem_placed (wellNamed_stable job s.facts) hplaced).enums nested hnested

/-- Seen from a message, the name of a nested type stands for the nested type. -/
theorem Outcome.lookUp_nested (h : Outcome job s) {path : List String} {draft : MessageDraft}
    (hplaced : (path, draft) ∈ s.file.placed) {type : NestedType}
    (htype : type ∈ draft.nestedTypes) :
    s.file.build.lookUp path type.name =
      Link.fullName s.file.build.root (path ++ [type.name]) := by
  have hname : type.name ∈ draft.typeNames := by
    have hmem := List.mem_map_of_mem (f := NestedType.name) htype
    rw [MessageDraft.nestedTypes, List.map_append, List.map_map, List.map_map] at hmem
    exact hmem
  obtain ⟨kind, hdeclares⟩ := FileDraft.declares_of_mem_nested hplaced hname
  have hknown : Link.fullName s.file.build.root (path ++ [type.name]) ∈ s.file.build.typeNames :=
    FileDescriptor.mem_typeNames.mpr ⟨_, kind, FileDraft.declares_build.mpr hdeclares, rfl⟩
  have hplain := h.plain_of_mem_nestedTypes hplaced htype
  rw [Link.fullName_append] at hknown ⊢
  exact Link.resolve_of_mem (Link.head?_ne_dot hplain.dot_not_mem) hknown

/-- What is said about one field for an inline schema: its type is what the schema was compiled to,
the compiled field names the type that is nested under the name, and that is the type of the schema
exactly when the type that was offered first under the name has the same content. -/
structure ServedFrom (job : Job) (facts : Facts) (file : FileDescriptor) (path : List String)
    (draft : MessageDraft) (history : History) (field : InlineField) : Prop where
  compiled : field.Compiled job facts
  leads : ∃ linked ∈ (file.linked path draft).fields, field.LeadsTo file path linked
  keeps_iff : file.Keeps path draft field.type ↔
    ∃ first, firstNamed history.offered field.type.name = some first ∧
      first.content file path = field.type.content file path

/-- Every field for an inline schema is served in the compiled file, wherever its message stands. -/
theorem Outcome.servedFrom (h : Outcome job s) {path : List String} {draft : MessageDraft}
    (hplaced : (path, draft) ∈ s.file.placed) {history : History}
    (hhistory : HasHistory job s.facts draft history) {field : InlineField}
    (hfield : field ∈ history.fields) :
    ServedFrom job s.facts s.file.build path draft history field := by
  have hexplains := hhistory.explains
  have hpath := FileDraft.path_eq_of_mem_placed hplaced
  -- some type is nested under the name: the first that was offered
  obtain ⟨first, hfirst⟩ := exists_firstNamed (hexplains.offered field hfield)
  have hnested := hfirst
  rw [← hexplains.first] at hnested
  refine ⟨hexplains.compiled field hfield, ?_, ?_⟩
  · obtain ⟨drafted, hdrafted, hmatches⟩ := hexplains.matched field hfield
    obtain ⟨linked, hlinked, hfrom⟩ :=
      (exists_of_forall₂ (FileDescriptor.fields_linked hpath)).1 drafted hdrafted
    refine ⟨linked, hlinked, hfrom.name.trans (congrArg some hmatches.name), ?_, ?_⟩
    · rw [hfrom.type, hmatches.type]
    · have hname : first.name = field.type.name := by
        simpa [firstNamed] using List.find?_some hnested
      rw [hfrom.typeName, hmatches.typeName, Option.map_some, ← hname,
        h.lookUp_nested hplaced (List.mem_of_find?_eq_some hnested)]
  · rw [FileDescriptor.Keeps, FileDescriptor.nestedContent?_linked _ hpath, hnested, hfirst]
    simp

/-- Each drafted message stands in the compiled file and has a history. The fields that the history
does not list have scalar types or name components; each field that it lists stands for an inline
schema and names a nested type, which is the type of the schema exactly when the type that was
offered first under the name has the same content. -/
theorem inline_types_kept_iff {document : Document} {config : Config} {out : Output}
    (h : compile document config = .ok out) :
    ∃ s, compileDocument ⟨document, config⟩ { file := startFile document config } = .ok ⟨⟩ s ∧
      out.file = s.file.build ∧
      ∀ path draft, (path, draft) ∈ s.file.placed →
        (path, out.file.linked path draft) ∈ out.file.placed ∧
        (∃ history, HasHistory ⟨document, config⟩ s.facts draft history) ∧
        ∀ history, HasHistory ⟨document, config⟩ s.facts draft history →
          (∀ drafted ∈ draft.fields, (∃ field ∈ history.fields, field.name = drafted.name) ∨
            TypedElsewhere ⟨document, config⟩ s.facts drafted.type drafted.typeName) ∧
          ∀ field ∈ history.fields,
            ServedFrom ⟨document, config⟩ s.facts out.file path draft history field := by
  obtain ⟨s, hrun, hs, hfile⟩ := compile_eq_ok h
  refine ⟨s, hrun, hfile, fun path draft hplaced => ?_⟩
  rw [hfile]
  refine ⟨FileDraft.linked_mem_placed hplaced,
    hs.of_mem_placed (hasHistory_stable _ s.facts) hplaced, fun history hhistory => ?_⟩
  exact ⟨hhistory.explains.complete, fun field hfield => hs.servedFrom hplaced hhistory hfield⟩

/-- Two inline objects of one title that have the same members. -/
def route : Document :=
  descriptionOf
    [("Route", objectNode
       [("from", objectNode [("city", textNode)] (some "Place")),
        ("to", objectNode [("city", textNode)] (some "Place"))])]

/-- The fields of the route get the types of their schemas as far as the first one has the same
content. -/
theorem inline_types_kept_iff_route :
    ∃ out, compile route {} = .ok out ∧
      ∃ s, compileDocument ⟨route, {}⟩ { file := startFile route {} } = .ok ⟨⟩ s ∧
        out.file = s.file.build ∧
        ∀ path draft, (path, draft) ∈ s.file.placed →
          (path, out.file.linked path draft) ∈ out.file.placed ∧
          (∃ history, HasHistory ⟨route, {}⟩ s.facts draft history) ∧
          ∀ history, HasHistory ⟨route, {}⟩ s.facts draft history →
            (∀ drafted ∈ draft.fields, (∃ field ∈ history.fields, field.name = drafted.name) ∨
              TypedElsewhere ⟨route, {}⟩ s.facts drafted.type drafted.typeName) ∧
            ∀ field ∈ history.fields,
              ServedFrom ⟨route, {}⟩ s.facts out.file path draft history field := by
  have hcompiles : compilesTo route {} (fun _ => true) = true := by decide +kernel
  obtain ⟨out, -, hout, -⟩ := exists_of_compilesTo hcompiles
  exact ⟨out, hout, inline_types_kept_iff hout⟩

/-- An object with a title that another one has as well. -/
def lowerShelf : Schema :=
  { title := some "Shelf", shape := .object [("pots", textNode)] [] }

/-- Two inline objects of one title that have different members. -/
def cabinet : Document :=
  descriptionOf
    [("Cabinet", objectNode
       [("upper", objectNode [("cups", textNode)] (some "Shelf")), ("lower", .inline lowerShelf)])]

/-- Is a schema compiled by itself, and does the message pass a check? -/
def schemaCompilesTo (job : Job) (hint : String) (schema : Schema) (check : MessageDraft → Bool) :
    Bool :=
  match job.engine.schema hint schema { file := startFile job.document job.config } with
  | .ok (some child) _ => check child
  | _ => false

/-- The lower shelf of the cabinet gets the type of the upper one. -/
theorem cabinet_mixes_shelves :
    ∃ out s child t, compile cabinet {} = .ok out ∧
      compileDocument ⟨cabinet, {}⟩ { file := startFile cabinet {} } = .ok ⟨⟩ s ∧
      out.file = s.file.build ∧
      (Job.engine ⟨cabinet, {}⟩).schema "Lower" lowerShelf { file := startFile cabinet {} } =
        .ok (some child) t ∧
      child.carriedEnum? = none ∧ child.name ∉ Job.componentNames ⟨cabinet, {}⟩ ∧
      ∃ draft, (["Cabinet"], draft) ∈ s.file.placed ∧
        (["Cabinet"], out.file.linked ["Cabinet"] draft) ∈ out.file.placed ∧
        (∃ linked ∈ (out.file.linked ["Cabinet"] draft).fields,
          InlineField.LeadsTo ⟨"lower", lowerShelf, .message child⟩ out.file ["Cabinet"] linked) ∧
        ¬ out.file.Keeps ["Cabinet"] draft (.message child) := by
  have hcompiles : compilesTo cabinet {} (fun s =>
      schemaCompilesTo ⟨cabinet, {}⟩ "Lower" lowerShelf fun child =>
        child.carriedEnum?.isNone && !(Job.componentNames ⟨cabinet, {}⟩).contains child.name &&
        s.file.placed.any fun entry => entry.1 == ["Cabinet"] &&
          (s.file.build.linked ["Cabinet"] entry.2).fields.any (fun linked =>
            linked.name == some "lower" && linked.type == some FieldType.message.code &&
              linked.typeName ==
                some (Link.fullName s.file.build.root (["Cabinet"] ++ [child.name]))) &&
          (s.file.build.linked ["Cabinet"] entry.2).nestedContent? child.name !=
            some (NestedType.content s.file.build ["Cabinet"] (.message child))) = true := by
    decide +kernel
  obtain ⟨out, s, hout, hfile, hrun, hcheck⟩ := exists_of_compilesTo hcompiles
  unfold schemaCompilesTo at hcheck
  split at hcheck
  · next child t hschema =>
    simp only [Bool.and_eq_true, List.any_eq_true, beq_iff_eq, bne_iff_ne] at hcheck
    obtain ⟨⟨hcarried, hname⟩, ⟨_, draft⟩, hplaced, ⟨rfl, linked, hlinked, ⟨hfield, htype⟩,
      htypeName⟩, hcontent⟩ := hcheck
    rw [← hfile] at hlinked htypeName hcontent
    have hmessage : (["Cabinet"], out.file.linked ["Cabinet"] draft) ∈ out.file.placed :=
      hfile ▸ FileDraft.linked_mem_placed hplaced
    exact ⟨out, s, child, t, hout, hrun, hfile, hschema, by simpa using hcarried,
      by simpa using hname, draft, hplaced, hmessage,
      ⟨linked, hlinked, hfield, htype, htypeName⟩, hcontent⟩
  · cases hcheck

end Compile

end Protoscribe
