import Mathlib.Data.List.Infix
import Protoscribe.Proofs.Compile.Accepted
import Protoscribe.Proofs.ImportCover
import Protoscribe.Proofs.Oneofs
import Protoscribe.Proofs.PrintedTypes

/-!
# `Protoscribe.Proofs.Presence`: one way to say that a scalar may be missing

A compiled file tells a missing scalar from its default in one of two ways, and the configuration
says which: a label on the field, or a type that holds the scalar. `FileDescriptor.Encodes` says
that the other way is nowhere in the file, that every marked field is a single one outside of the
declared oneof groups, and that it was accepted where its message was put together, for an inline
schema that the description does not require (`AcceptedAt`).

The fields of the drafts come with this from `Outcome.wellMarked` and `Sourced.acceptedIn`. What
remains is that the lookup of names does not lead to a holder by chance: names that are no holders
are plain, and the types of a file have other full names than the holders unless its package is one
of theirs (`Outcome.holdsScalar_of_linked`).
-/

set_option autoImplicit false

namespace Protoscribe

open OpenApi (Document)

/-- The package is `google`, or a package in it. -/
def UnderGoogle (package : String) : Prop :=
  package = "google" ∨ "google.".toList <+: package.toList

/-- The type of the field is a message that holds a scalar. -/
def FieldDescriptor.HoldsScalar (field : FieldDescriptor) : Prop :=
  ∃ holder ∈ Compile.holderNames, field.typeName = some ("." ++ holder)

open Compile (AcceptedIn Job State)

namespace FileDescriptor

/-- The field of a message at a path is what a drafted field becomes, and the drafted field was
accepted for a member that may be missing, where the outermost message around it was put
together. -/
inductive AcceptedAt (file : FileDescriptor) (job : Job) (s : State) (path : List String)
    (message : MessageDescriptor) (field : FieldDescriptor) : Prop
  | intro {outer draft : MessageDraft} {rest : List String} {before after : List FieldDraft}
      {drafted : FieldDraft} (houter : .drafted outer ∈ s.file.messages)
      (hpath : path = outer.name :: rest) (hplaced : (path, draft) ∈ outer.placed [])
      (hmessage : message = file.linked path draft)
      (hfields : draft.fields = before ++ drafted :: after)
      (hfield : field = file.linkedField path draft before drafted)
      (haccepted : AcceptedIn job s.facts (· ∈ job.servedAmong job.document.endpoints) outer rest
        drafted) : AcceptedAt file job s path message field

/-- The marked field is a single one. Its message declares no oneof group: the groups are those that
are made for optional fields, and a field that is not optional is in none. The field was accepted
for a member that may be missing. -/
structure Accepts (file : FileDescriptor) (job : Job) (s : State) (path : List String)
    (message : MessageDescriptor) (field : FieldDescriptor) : Prop where
  single : field.effectiveLabel ≠ .repeated
  groups : ∀ group ∈ message.oneofs, ∃ optional ∈ message.fields, optional.isOptional = true ∧
    group.name = some ("_" ++ optional.name.getD "")
  ungrouped : field.isOptional = false → field.oneofIndex = none
  accepted : file.AcceptedAt job s path message field

/-- A file says in one way only that a scalar may be missing, and only where it may. -/
structure Encodes (file : FileDescriptor) (job : Job) (s : State) : Prop where
  unlabelled : job.config.wrapPrimitives = true → ∀ path message, (path, message) ∈ file.placed →
    ∀ field ∈ message.fields, field.isOptional = false
  unheld : job.config.wrapPrimitives = false → ∀ path message, (path, message) ∈ file.placed →
    ∀ field ∈ message.fields, ¬ field.HoldsScalar
  accepts : ∀ path message, (path, message) ∈ file.placed → ∀ field ∈ message.fields,
    field.isOptional = true ∨ field.HoldsScalar → file.Accepts job s path message field

end FileDescriptor

namespace Compile

/-! ### Names of holders -/

/-- A holder stands below no package but those of its own name. -/
theorem underGoogle_of_starts {holder package : String} (hholder : holder ∈ holderNames)
    (h : package.toList ++ ['.'] <+: holder.toList) : UnderGoogle package := by
  have hall : ∀ holder ∈ holderNames, ∀ start ∈ holder.toList.inits, start.getLast? = some '.' →
      start.dropLast = "google".toList ∨ "google.".toList <+: start.dropLast := by
    decide
  have hstart := hall holder hholder _ ((List.mem_inits _ _).mpr h) (by simp)
  rw [List.dropLast_concat] at hstart
  exact hstart.imp_left String.toList_injective

/-- The types of a package that is not under `google` have other full names than the holders. -/
theorem not_mem_typeNames_of_holder {file : FileDescriptor} {package holder : String}
    (hroot : file.root = "." ++ package) (hpackage : ¬ UnderGoogle package)
    (hholder : holder ∈ holderNames) : "." ++ holder ∉ file.typeNames := by
  intro hmem
  obtain ⟨target, kind, hdeclares, heq⟩ := FileDescriptor.mem_typeNames.mp hmem
  obtain ⟨around, name, rfl⟩ := hdeclares.exists_eq_append
  rw [hroot, Link.fullName_eq_qualify _ (by simp)] at heq
  have hchars := congrArg String.toList heq
  rw [Link.toList_qualify, String.toList_append, String.toList_append] at hchars
  refine hpackage (underGoogle_of_starts hholder ⟨(Link.dotted (around ++ [name])).toList, ?_⟩)
  simpa using hchars.symm

variable {job : Job} {s : State} {path : List String} {draft : MessageDraft}

/-- Where the type of a field is linked to a holder, the drafted type is one. -/
theorem Outcome.holdsScalar_of_linked (h : Outcome job s)
    (hnone : job.config.additionalMessages = [])
    (hpackage : ¬ UnderGoogle (packageFor job.document job.config))
    (hplaced : (path, draft) ∈ s.file.placed) {field : FieldDraft} (hfield : field ∈ draft.fields)
    {linked : FieldDescriptor} (hfrom : LinkedFrom s.file.build path field linked)
    (hholds : linked.HoldsScalar) : HoldsScalar field.typeName := by
  obtain ⟨holder, hholder, htype⟩ := hholds
  rw [hfrom.typeName, Option.map_eq_some_iff] at htype
  obtain ⟨name, hname, hlooked⟩ := htype
  rcases h.holder_or_plain hnone hplaced hfield hname with ⟨⟨type, hsome⟩, -⟩ | hplain
  · exact ⟨type, name, hsome, hname⟩
  · -- a plain name is looked up to a type of the file, or to itself
    rcases s.file.build.lookUp_mem_or path (Link.head?_ne_dot hplain.dot_not_mem) with
      hmem | habsolute
    · exact absurd (hlooked ▸ hmem) (not_mem_typeNames_of_holder h.root_eq hpackage hholder)
    · have hsame : name = holder := by
        rw [habsolute] at hlooked
        simpa [String.ext_iff] using hlooked
      exact absurd (hsame ▸ hplain)
        (not_plain_of_mem_wellKnownNames holder (holderNames_subset hholder))

/-! ### Marked fields -/

/-- A field of the finished message is linked from its draft. -/
theorem linkedFrom_linkedField (file : FileDescriptor)
    (hpath : path = path.dropLast ++ [draft.name]) (before : List FieldDraft) (field : FieldDraft) :
    LinkedFrom file path field (file.linkedField path draft before field) := by
  have hscope : Link.qualify (Link.fullName file.root path.dropLast) draft.name =
      Link.fullName file.root path := by
    rw [← Link.fullName_append, ← hpath]
  refine ⟨rfl, rfl, ?_⟩
  show field.typeName.map (Link.resolve _ _) = _
  rw [hscope]
  rfl

/-- Every marked field of a draft is accepted in the compiled file. -/
theorem Outcome.accepts (h : Outcome job s) (hplaced : (path, draft) ∈ s.file.placed)
    {before after : List FieldDraft} {field : FieldDraft}
    (hsplit : draft.fields = before ++ field :: after) (hmarked : Marked job field)
    (hunmarked : ¬ Unmarked field) :
    s.file.build.Accepts job s path (s.file.build.linked path draft)
      (s.file.build.linkedField path draft before field) := by
  have hfield : field ∈ draft.fields := by simp [hsplit]
  obtain ⟨outer, houter, hwithin⟩ := FileDraft.mem_placed.mp hplaced
  obtain ⟨group, hgrouped⟩ :=
    (h.justified.messages outer houter).everywhere_grouped.of_mem_placed hwithin
  -- a marked field is in no group, so its message declares none
  obtain rfl : group = none := (hgrouped.members field hfield).symm.trans hmarked.ungrouped
  constructor
  case single => exact FileDescriptor.effectiveLabel_linkedField before hmarked.single
  case groups =>
    rw [FileDescriptor.oneofs_of_plain _ _ hgrouped]
    intro oneof honeof
    obtain ⟨optional, hoptional, rfl⟩ := List.mem_map.mp honeof
    obtain ⟨hmem, hsynthetic⟩ := List.mem_filter.mp hoptional
    obtain ⟨front, rest, hparts⟩ := List.append_of_mem hmem
    refine ⟨_, FileDescriptor.mem_fields_linked.mpr ⟨front, optional, rest, hparts, rfl⟩, ?_, rfl⟩
    rw [FileDescriptor.isOptional_linkedField, hsynthetic]
  case ungrouped =>
    intro hnot
    rw [FileDescriptor.isOptional_linkedField] at hnot
    rw [FileDescriptor.oneofIndex_linkedField hgrouped before hfield, MessageDraft.ownGroup]
    simp [hnot]
  case accepted =>
    obtain ⟨rest, hpath, hat⟩ := MessageDraft.exists_fieldAt_of_mem_placed outer hwithin hfield
    have haccepted := (h.sourced.messages outer houter).acceptedIn h.plain_of_names hunmarked hat
    exact .intro houter hpath hwithin rfl hsplit rfl haccepted

/-- A field of the compiled file that has a mark is what a marked field of a draft becomes. -/
theorem Outcome.exists_marked (h : Outcome job s) (hnone : job.config.additionalMessages = [])
    (hpackage : ¬ UnderGoogle (packageFor job.document job.config)) {message : MessageDescriptor}
    (hmessage : (path, message) ∈ s.file.build.placed) {linked : FieldDescriptor}
    (hlinked : linked ∈ message.fields) (hmark : linked.isOptional = true ∨ linked.HoldsScalar) :
    ∃ draft before field after, (path, draft) ∈ s.file.placed ∧
      draft.fields = before ++ field :: after ∧ message = s.file.build.linked path draft ∧
      linked = s.file.build.linkedField path draft before field ∧ Marked job field ∧
      ¬ Unmarked field ∧ (linked.HoldsScalar → HoldsScalar field.typeName) := by
  obtain ⟨draft, hplaced, rfl⟩ := h.exists_linked hnone hmessage
  obtain ⟨before, field, after, hsplit, rfl⟩ := FileDescriptor.mem_fields_linked.mp hlinked
  have hfield : field ∈ draft.fields := by simp [hsplit]
  obtain ⟨outer, -, hwithin⟩ := FileDraft.mem_placed.mp hplaced
  have hholds := h.holdsScalar_of_linked hnone hpackage hplaced hfield
    (linkedFrom_linkedField s.file.build (MessageDraft.path_eq_of_mem_placed hwithin) before field)
  -- a mark of the finished field is one of the drafted field
  have hunmarked : ¬ Unmarked field := by
    intro hunmarked
    rcases hmark with hoptional | hholder
    · rw [FileDescriptor.isOptional_linkedField, FieldDraft.isSynthetic, hunmarked.optional]
        at hoptional
      cases hoptional
    · exact hunmarked.type (hholds hholder)
  exact ⟨draft, before, field, after, hplaced, hsplit, rfl, rfl,
    ((h.wellMarked hplaced field hfield).resolve_left hunmarked).2, hunmarked, hholds⟩

/-- For a document that compiles, without messages that are handed in and with a package that is not
under `google`: the file marks what may be missing in the way that is configured, and only where it
may be missing. -/
theorem presence_encoded_once {document : Document} {config : Config} {out : Output}
    (hnone : config.additionalMessages = [])
    (hpackage : ¬ UnderGoogle (packageFor document config))
    (h : compile document config = .ok out) :
    ∃ s, compileDocument ⟨document, config⟩ { file := startFile document config } = .ok ⟨⟩ s ∧
      out.file = s.file.build ∧ out.file.Encodes ⟨document, config⟩ s := by
  obtain ⟨s, hrun, hs, hfile⟩ := compile_eq_ok h
  refine ⟨s, hrun, hfile, ?_⟩
  rw [hfile]
  -- a mark in the file is one that a drafted field was given
  constructor
  case unlabelled =>
    intro hwrap path message hmessage linked hlinked
    by_contra hlabel
    rw [Bool.not_eq_false] at hlabel
    obtain ⟨draft, before, field, after, -, -, -, rfl, hmarked, -, -⟩ :=
      hs.exists_marked hnone hpackage hmessage hlinked (.inl hlabel)
    rw [FileDescriptor.isOptional_linkedField] at hlabel
    simp only [FieldDraft.isSynthetic, Bool.and_eq_true] at hlabel
    exact absurd (hwrap.symm.trans (hmarked.labelled hlabel.1.1)) (by decide)
  case unheld =>
    intro hwrap path message hmessage linked hlinked hholds
    obtain ⟨draft, before, field, after, -, -, -, -, hmarked, -, hdrafted⟩ :=
      hs.exists_marked hnone hpackage hmessage hlinked (.inr hholds)
    exact absurd (hwrap.symm.trans (hmarked.held (hdrafted hholds))) (by decide)
  case accepts =>
    intro path message hmessage linked hlinked hmark
    obtain ⟨draft, before, field, after, hplaced, hsplit, rfl, rfl, hmarked, hunmarked, -⟩ :=
      hs.exists_marked hnone hpackage hmessage hlinked hmark
    exact hs.accepts hplaced hsplit hmarked hunmarked

/-- An object with a text that may be missing, which comes from a variant, and an operation that
takes such a text as its body. -/
def telegram : Document :=
  { descriptionOf
      [("Telegram", .inline
         { shape := .allOf [objectNode [("note", nullableNode)]]
             [("stamps", .inline { shape := .array (some textNode) })] [] })] with
    paths := .ofList [("/labels", { post := some (operationWith nullableNode) })] }

/-- Does a file have a field that is marked, in the way that is given? -/
def marksSome (mark : FieldDescriptor → Bool) (s : State) : Bool :=
  s.file.build.placed.any fun entry => entry.2.fields.any mark

/-- The telegram is marked with labels or with holders, as configured. -/
theorem presence_encoded_once_telegram :
    (∃ out s, compile telegram {} = .ok out ∧ ({} : Config).additionalMessages = [] ∧
      ¬ UnderGoogle (packageFor telegram {}) ∧ out.file = s.file.build ∧
      out.file.Encodes ⟨telegram, {}⟩ s ∧ marksSome (·.isOptional) s = true) ∧
    ∃ out s, compile telegram { wrapPrimitives := true } = .ok out ∧ out.file = s.file.build ∧
      out.file.Encodes ⟨telegram, { wrapPrimitives := true }⟩ s ∧
      marksSome (·.typeName == some ".google.protobuf.StringValue") s = true := by
  have hpackage : ∀ wrap, ¬ UnderGoogle (packageFor telegram { wrapPrimitives := wrap }) := by
    unfold UnderGoogle
    decide
  have hlabelled : compilesTo telegram {} (marksSome (·.isOptional)) = true := by decide +kernel
  have hheld : compilesTo telegram { wrapPrimitives := true }
      (marksSome (·.typeName == some ".google.protobuf.StringValue")) = true := by decide +kernel
  constructor
  · obtain ⟨out, s, hout, -, hrun, hcheck⟩ := exists_of_compilesTo hlabelled
    obtain ⟨t, hrun', hfile, hencodes⟩ := presence_encoded_once rfl (hpackage false) hout
    obtain ⟨-, rfl⟩ := EStateM.Result.ok.inj (hrun.symm.trans hrun')
    exact ⟨out, s, hout, rfl, hpackage false, hfile, hencodes, hcheck⟩
  · obtain ⟨out, s, hout, -, hrun, hcheck⟩ := exists_of_compilesTo hheld
    obtain ⟨t, hrun', hfile, hencodes⟩ := presence_encoded_once rfl (hpackage true) hout
    obtain ⟨-, rfl⟩ := EStateM.Result.ok.inj (hrun.symm.trans hrun')
    exact ⟨out, s, hout, hfile, hencodes, hcheck⟩

end Compile

end Protoscribe
