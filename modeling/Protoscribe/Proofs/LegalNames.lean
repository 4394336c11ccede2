import Protoscribe.Proofs.Compile.LetteredNames
import Protoscribe.Proofs.Symbols

/-!
# `Protoscribe.Proofs.LegalNames`: which names are legal identifiers

A name that is made from a text keeps its letters and digits, with an underscore in front of a first
digit. So it is a legal identifier unless it is empty, which happens when the text has neither
letters nor digits. Types, fields and oneof groups have such names. Values, services and methods
have names with a part that does not come from the description, and these are always legal.
`names_legal_iff` states both for the names of a compiled file, and that all of them are legal when
every text of the description has a letter or a digit.
-/

set_option autoImplicit false

namespace Protoscribe

/-! ### Names with a part of their own -/

/-- A legal name is legal unless it is empty. -/
theorem Legal.legalUnlessEmpty {name : String} (h : Legal name) : LegalUnlessEmpty name :=
  ⟨h.plain, h.start⟩

/-- With a legal name behind it, a name that may be empty is legal. -/
theorem LegalUnlessEmpty.append_legal {first second : String} (h : LegalUnlessEmpty first)
    (hsecond : Legal second) : Legal (first ++ second) := by
  refine (h.append hsecond.legalUnlessEmpty).legal fun hempty => hsecond.ne_empty ?_
  exact (String.append_eq_empty_iff.mp hempty).2

namespace Compile

open OpenApi (Verb)

variable {job : Job}

/-- A message name is legal unless it is empty. -/
theorem Job.messageName_legalUnlessEmpty (job : Job) (text : String) :
    LegalUnlessEmpty (job.messageName text) :=
  Acronyms.messageName_legalUnlessEmpty _ text

/-- The name of a method is legal, as the verb has letters. -/
theorem Job.methodName_legal (job : Job) (path : String) (verb : Verb) :
    Legal (job.methodName path verb) := by
  have hbase : LegalUnlessEmpty (job.baseName path) := .join fun part hpart => by
    obtain ⟨segment, -, rfl⟩ := List.mem_map.mp hpart
    exact job.messageName_legalUnlessEmpty _
  have hname : LegalUnlessEmpty (job.methodName path verb) :=
    (job.messageName_legalUnlessEmpty _).append hbase
  exact hname.legal (job.methodName_lettered path verb).ne_empty

/-- Every name of a type is a legal identifier or empty. -/
theorem legalUnlessEmpty_namesTypes (job : Job) : NamesTypes job LegalUnlessEmpty where
  text := job.messageName_legalUnlessEmpty
  renamed name suffix n hsuffix hname := by
    have hlegal : Legal suffix := by
      rcases hsuffix with rfl | rfl <;> exact ⟨by decide, by decide, by simp⟩
    refine ((hname.append_legal hlegal).append ?_).legalUnlessEmpty
    split
    · decide
    · exact plain_toString n
  payload path verb suffix hsuffix := by
    refine ((job.methodName_legal path verb).append ?_).legalUnlessEmpty
    rcases hsuffix with rfl | rfl <;> decide

end Compile

/-! ### Names of a file -/

namespace FileDescriptor

/-- The names of all methods. -/
def methodNames (file : FileDescriptor) : List String :=
  file.services.flatMap fun service => service.methods.map (·.name.getD "")

/-- The names that are made from a text alone: those of types, fields and oneof groups. -/
def textNames (file : FileDescriptor) : List String :=
  file.topLevelNames ++ file.placed.flatMap fun entry =>
    entry.2.fieldNames ++ entry.2.oneofNames ++ entry.2.nestedNames

/-- The other names: those of values, of the service and of its methods. -/
def partedNames (file : FileDescriptor) : List String :=
  file.valueNames ++ (file.placed.flatMap fun entry => entry.2.valueNames) ++ file.serviceNames ++
    file.methodNames

/-- All names in the file are legal identifiers. A name that is missing counts as empty. -/
def NamesLegal (file : FileDescriptor) : Prop :=
  ∀ name ∈ file.textNames ++ file.partedNames, Legal name

end FileDescriptor

namespace Compile

open OpenApi (Document SchemaNode)

namespace Outcome

variable {job : Job} {s : State}

/-- When the names in all drafted messages are of a kind, and so are the names of enums, then so are
the names of types, fields and oneof groups in the file. -/
theorem ofKind_of_mem_textNames {kind : String → Prop}
    (hsynthetic : ∀ name, kind name → kind ("_" ++ name)) (h : Outcome job s)
    (hnone : job.config.additionalMessages = [])
    (hmessages : ∀ draft, .drafted draft ∈ s.file.messages → Everywhere (AllNamed kind) draft)
    (henums : ∀ enum ∈ s.file.enums, kind enum.name) {name : String}
    (hname : name ∈ s.file.build.textNames) : kind name := by
  have hplaced : ∀ {path draft}, (path, draft) ∈ s.file.placed → AllNamed kind draft := by
    intro path draft hdraft
    obtain ⟨outer, houter, hwithin⟩ := FileDraft.mem_placed.mp hdraft
    exact (hmessages outer houter).of_mem_placed hwithin
  rcases List.mem_append.mp hname with hname | hname
  · -- the types of the file itself
    rcases List.mem_append.mp (s.file.topLevelNames_build.mem_iff.mp hname) with hname | hname
    · obtain ⟨message, hmessage, rfl⟩ := List.mem_map.mp hname
      cases message with
      | drafted draft => exact (hmessages draft hmessage).here.name
      | finished descriptor => exact absurd hmessage (h.not_finished hnone descriptor)
    · obtain ⟨enum, henum, rfl⟩ := List.mem_map.mp hname
      exact henums enum henum
  · -- the names in a message, at whatever depth it stands
    obtain ⟨⟨path, message⟩, hmessage, hname⟩ := List.mem_flatMap.mp hname
    obtain ⟨draft, hdraft, rfl⟩ := h.exists_linked hnone hmessage
    have hnames := hplaced hdraft
    simp only [List.mem_append] at hname
    rcases hname with (hfield | honeof) | htype
    · rw [FileDescriptor.fieldNames_linked_eq] at hfield
      obtain ⟨field, hmem, rfl⟩ := List.mem_map.mp hfield
      exact hnames.fields field hmem
    · rcases FileDescriptor.mem_oneofNames_linked honeof with hdeclared | ⟨field, hfield, rfl⟩
      · exact hnames.oneofs name hdeclared
      · exact hsynthetic _ (hnames.fields field hfield)
    · rw [FileDescriptor.nestedNames_linked_eq (FileDraft.path_eq_of_mem_placed hdraft)] at htype
      rcases List.mem_append.mp htype with htype | htype
      · obtain ⟨nested, hnested, rfl⟩ := List.mem_map.mp htype
        exact (hplaced (FileDraft.mem_placed_of_nested hdraft hnested)).name
      · obtain ⟨enum, henum, rfl⟩ := List.mem_map.mp htype
        exact hnames.enums enum henum

/-- Types, fields and oneof groups have legal names, or empty ones. -/
theorem legalUnlessEmpty_of_mem_textNames (h : Outcome job s)
    (hnone : job.config.additionalMessages = []) {name : String}
    (hname : name ∈ s.file.build.textNames) : LegalUnlessEmpty name := by
  have hunderscore : LegalUnlessEmpty "_" := ⟨by decide, by simp⟩
  have htypes := legalUnlessEmpty_namesTypes job
  refine h.ofKind_of_mem_textNames (fun _ hname => hunderscore.append hname) hnone ?_ ?_ hname
  · intro draft hdraft
    exact h.everywhere
      (allNamed_stable htypes Identifier.fieldName_legalUnlessEmpty s.facts) hdraft
  · intro enum henum
    refine h.justified.ofKind_of_mem_typeNames htypes hnone (List.mem_append_right _ ?_)
    exact List.mem_map_of_mem henum

/-- When every text of the description has a letter or a digit, so have their names. -/
theorem lettered_of_mem_textNames (h : Outcome job s)
    (hnone : job.config.additionalMessages = [])
    (hdocument : ∀ text ∈ job.document.texts, Lettered text) {name : String}
    (hname : name ∈ s.file.build.textNames) : Lettered name := by
  have htypes : LetteredTypes s.facts.schemas := h.justified.letteredTypes hdocument
  refine h.ofKind_of_mem_textNames (fun name => .append_behind _) hnone ?_ ?_ hname
  · intro draft hdraft
    exact (h.sourced.messages draft hdraft).lettered hdocument htypes
  · intro enum henum
    obtain ⟨draft, hsourced, hcarried⟩ := h.sourced.enums enum henum
    obtain ⟨-, -, henums⟩ := MessageDraft.carriedEnum?_eq_some_iff.mp hcarried
    exact (hsourced.lettered hdocument htypes).here.enums enum (by simp [henums])

/-- Values, services and methods have legal names. -/
theorem legal_of_mem_partedNames (h : Outcome job s)
    (hnone : job.config.additionalMessages = []) {name : String}
    (hname : name ∈ s.file.build.partedNames) : Legal name := by
  have hvalues : ∀ enum : EnumDescriptor,
      (∃ drafted, NamesValues job drafted ∧ enum = drafted.build) →
      ∀ name ∈ enum.valueNames, Legal name := by
    rintro _ ⟨drafted, hnames, rfl⟩ name hname
    exact hnames.legal name (drafted.valueNames_build ▸ hname)
  simp only [FileDescriptor.partedNames, List.mem_append] at hname
  -- values of the enums of the file and of messages, services, methods
  rcases hname with ((hname | hname) | hname) | hname
  · obtain ⟨enum, henum, hname⟩ := List.mem_flatMap.mp hname
    exact hvalues enum (h.exists_namesValues henum) name hname
  · obtain ⟨⟨path, message⟩, hplaced, hname⟩ := List.mem_flatMap.mp hname
    obtain ⟨draft, hdraft, rfl⟩ := h.exists_linked hnone hplaced
    obtain ⟨enum, henum, hname⟩ := List.mem_flatMap.mp hname
    exact hvalues enum (h.exists_namesValues_of_nested hdraft henum) name hname
  · obtain ⟨text, rfl⟩ := h.exists_text_of_mem_serviceNames hname
    have hservice : Legal "Service" := ⟨by decide, by decide, by simp⟩
    exact (job.messageName_legalUnlessEmpty text).append_legal hservice
  · obtain ⟨service, hservice, hname⟩ := List.mem_flatMap.mp hname
    obtain ⟨method, hmethod, rfl⟩ := List.mem_map.mp hname
    obtain ⟨drafted, hdrafted, source, hsource, rfl⟩ :=
      FileDraft.mem_methods_build.mp ⟨service, hservice, hmethod⟩
    obtain ⟨endpoint, -, htyped⟩ := h.methods hdrafted hsource
    show Legal source.name
    rw [htyped.name]
    exact job.methodName_legal _ _

end Outcome

/-- In a compiled file without finished messages, values, services and methods have legal names, and
so have types, fields and oneof groups where their names are not empty. All names are legal exactly
when none is empty, and so they are when every text of the description has a letter or a digit. -/
theorem names_legal_iff {document : Document} {config : Config} {out : Output}
    (hnone : config.additionalMessages = []) (h : compile document config = .ok out) :
    (∀ name ∈ out.file.partedNames, Legal name) ∧
    (∀ name ∈ out.file.textNames, name ≠ "" → Legal name) ∧
    (out.file.NamesLegal ↔ "" ∉ out.file.textNames) ∧
    ((∀ text ∈ document.texts, Lettered text) → out.file.NamesLegal) := by
  obtain ⟨s, -, hs, hfile⟩ := compile_eq_ok h
  rw [hfile]
  have hparted : ∀ name ∈ s.file.build.partedNames, Legal name :=
    fun _ => hs.legal_of_mem_partedNames hnone
  have htext : ∀ name ∈ s.file.build.textNames, name ≠ "" → Legal name :=
    fun _ hname => (hs.legalUnlessEmpty_of_mem_textNames hnone hname).legal
  have hlegal : s.file.build.NamesLegal ↔ "" ∉ s.file.build.textNames := by
    refine ⟨fun hlegal hempty => ?_, fun hsome name hname => ?_⟩
    · exact (hlegal "" (List.mem_append_left _ hempty)).ne_empty rfl
    · rcases List.mem_append.mp hname with hname | hname
      · exact htext name hname fun hempty => hsome (hempty ▸ hname)
      · exact hparted name hname
  refine ⟨hparted, htext, hlegal, fun hdocument => hlegal.mpr fun hempty => ?_⟩
  exact (hs.lettered_of_mem_textNames hnone hdocument hempty).ne_empty rfl

/-- A union under a key with a digit in front, an enum with a literal without letters, and an
operation on a path without letters. -/
def turnstile : Document :=
  let light : SchemaNode := .inline { shape := .enum [.text "--", .integer 2] }
  { descriptionOf
      [("2nd gate", .inline { shape := .oneOf [textNode, objectNode [("light", light)]] })] with
    paths := .ofList [("/", { post := some (operationWith textNode) })] }

/-- All names of the turnstile are legal. -/
theorem names_legal_iff_turnstile :
    ∃ out, compile turnstile {} = .ok out ∧ ({} : Config).additionalMessages = [] ∧
      (∀ text ∈ turnstile.texts, Lettered text) ∧ out.file.NamesLegal := by
  have hcompiles : compilesTo turnstile {} (fun _ => true) = true := by decide +kernel
  have htexts : ∀ text ∈ turnstile.texts, Lettered text := by decide +kernel
  obtain ⟨out, -, hout, -⟩ := exists_of_compilesTo hcompiles
  exact ⟨out, hout, rfl, htexts, (names_legal_iff rfl hout).2.2.2 htexts⟩

/-- A property whose key has neither a letter nor a digit of the alphabet. -/
def badge : Document :=
  descriptionOf [("Badge", objectNode [("名前", textNode)])]

/-- The field of the badge has no name. -/
theorem badge_has_empty_name :
    ∃ out, compile badge {} = .ok out ∧ ({} : Config).additionalMessages = [] ∧
      "" ∈ out.file.textNames ∧ ¬ out.file.NamesLegal := by
  have hcompiles : compilesTo badge {} (fun s => s.file.build.textNames.contains "") = true := by
    decide +kernel
  obtain ⟨out, s, hout, hfile, -, hcheck⟩ := exists_of_compilesTo hcompiles
  have hempty : "" ∈ out.file.textNames := by simpa [hfile] using hcheck
  refine ⟨out, hout, rfl, hempty, fun hlegal => ?_⟩
  exact (hlegal "" (List.mem_append_left _ hempty)).ne_empty rfl

end Compile

end Protoscribe
