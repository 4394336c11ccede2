import Protoscribe.Proofs.Link.References

/-!
# `Protoscribe.Proofs.Compile.Linked`: the references of a compiled description

What the lookup of names needs holds for every file that a compilation leaves: messages stand at
paths of plain names (`Outcome.plain_path`), and without finished messages that is so for all types
(`Outcome.dotFree`). `Outcome.refers_cases` says where the names in references come from: they are
well known, or some message around declares them, or they were borrowed from a component that was
still being compiled.
-/

set_option autoImplicit false

namespace Protoscribe.Compile

open OpenApi (Document)

/-- The types of other files that a compilation uses: the empty message and those that hold a
scalar. -/
def wellKnownNames : List String :=
  emptyMessage :: FieldType.all.filterMap holder?

/-- The type that wraps a scalar is a well-known one. -/
theorem holder?_mem_wellKnownNames {type : FieldType} {holder : String}
    (h : holder? type = some holder) : holder ∈ wellKnownNames := by
  refine List.mem_cons_of_mem _ (List.mem_filterMap.mpr ⟨type, ?_, h⟩)
  cases type <;> decide

/-- The names of well-known types have dots in them. -/
theorem not_plain_of_mem_wellKnownNames : ∀ name ∈ wellKnownNames, ¬ Plain name := by
  decide

/-- The names of well-known types do not start with a dot. -/
theorem head?_of_mem_wellKnownNames :
    ∀ name ∈ wellKnownNames, name.toList.head? ≠ some '.' := by
  decide

/-- Every file has a package. -/
theorem packageFor_ne_empty (document : Document) (config : Config) :
    packageFor document config ≠ "" := by
  unfold packageFor
  cases hpackage : config.package.filter (!·.isEmpty) with
  | some package =>
    have hkept := (Option.filter_eq_some_iff.mp hpackage).2
    simpa [String.isEmpty_iff] using hkept
  | none =>
    by_cases hderived : Identifier.fieldName document.info.title = ""
    · simp [hderived]
    · simp [String.isEmpty_iff, hderived]

namespace Outcome

variable {job : Job} {s : State}

/-- The types of the file stand below its package. -/
theorem root_eq (h : Outcome job s) :
    s.file.build.root = "." ++ packageFor job.document job.config := by
  have hpackage : s.file.package ≠ "" := h.package ▸ packageFor_ne_empty _ _
  rw [FileDraft.root_build_of_package hpackage, h.package]

/-- Without prebuilt messages, all messages of a file are drafted. -/
theorem not_finished (h : Outcome job s) (hnone : job.config.additionalMessages = [])
    (descriptor : MessageDescriptor) : .finished descriptor ∉ s.file.messages := by
  intro hmem
  have hadditional := h.justified.finished descriptor hmem
  simp [hnone] at hadditional

/-- Drafted messages stand at paths of plain names. -/
theorem plain_path (h : Outcome job s) {path : List String} {draft : MessageDraft}
    (hplaced : (path, draft) ∈ s.file.placed) : ∀ name ∈ path, Plain name := by
  obtain ⟨outer, houter, hmem⟩ := FileDraft.mem_placed.mp hplaced
  exact (h.everywhere (wellNamed_stable job s.facts) houter).plain_path (by simp) hmem

/-- A property of single messages holds for all drafted messages at once. -/
theorem of_mem_placed {P : MessageDraft → Prop} (h : Outcome job s) (hP : Stable job s.facts P)
    {path : List String} {draft : MessageDraft} (hplaced : (path, draft) ∈ s.file.placed) :
    P draft := by
  obtain ⟨outer, houter, hmem⟩ := FileDraft.mem_placed.mp hplaced
  exact (h.everywhere hP houter).of_mem_placed hmem

/-- A message of the compiled file is what a draft becomes, or part of a message that was handed
in. -/
theorem linked_or_finished (h : Outcome job s) {path : List String}
    {message : MessageDescriptor} (hplaced : (path, message) ∈ s.file.build.placed) :
    (∃ draft, (path, draft) ∈ s.file.placed ∧ message = s.file.build.linked path draft) ∨
      s.file.build.IsFinished job.config.additionalMessages path message := by
  refine (FileDraft.eq_linked_of_mem_placed_build hplaced).imp_right ?_
  rintro ⟨descriptor, original, hfinished, hmem, heq⟩
  exact ⟨descriptor, h.justified.finished descriptor hfinished, original, hmem, heq⟩

/-- Without finished messages, every message of the compiled file is what a draft becomes. -/
theorem exists_linked (h : Outcome job s) (hnone : job.config.additionalMessages = [])
    {path : List String} {message : MessageDescriptor}
    (hplaced : (path, message) ∈ s.file.build.placed) :
    ∃ draft, (path, draft) ∈ s.file.placed ∧ message = s.file.build.linked path draft := by
  rcases h.linked_or_finished hplaced with hdrafted | ⟨descriptor, hfinished, -⟩
  · exact hdrafted
  · simp [hnone] at hfinished

/-- Without finished messages, all types stand at paths of plain names. -/
theorem plain_of_declares (h : Outcome job s) (hnone : job.config.additionalMessages = [])
    {path : List String} {kind : TypeKind} (hdeclares : s.file.build.Declares path kind) :
    ∀ name ∈ path, Plain name := by
  rw [FileDraft.declares_build] at hdeclares
  -- a declared type is a placed message, an enum in one, or an enum of the file
  cases hdeclares with
  | message hplaced =>
    obtain ⟨draft, hdraft, -⟩ :=
      FileDraft.exists_of_mem_placed_assemble (h.not_finished hnone) hplaced
    exact h.plain_path hdraft
  | nested hplaced henum =>
    obtain ⟨draft, hdraft, rfl⟩ :=
      FileDraft.exists_of_mem_placed_assemble (h.not_finished hnone) hplaced
    rw [MessageDraft.enums_build] at henum
    obtain ⟨enum, hdrafted, rfl⟩ := List.mem_map.mp henum
    intro name hname
    rcases List.mem_append.mp hname with hname | hname
    · exact h.plain_path hdraft name hname
    · cases List.mem_singleton.mp hname
      exact (h.of_mem_placed (wellNamed_stable job s.facts) hdraft).enums enum hdrafted
  | enum henum =>
    obtain ⟨enum, hdrafted, rfl⟩ := List.mem_map.mp henum
    intro name hname
    cases List.mem_singleton.mp hname
    refine h.justified.plain_of_mem_typeNames hnone (List.mem_append_right _ ?_)
    exact List.mem_map_of_mem (FileDraft.mem_sortByName.mp hdrafted)

/-- Without prebuilt messages, no name that a file declares has a dot in it. -/
theorem dotFree (h : Outcome job s) (hnone : job.config.additionalMessages = []) :
    s.file.build.DotFree :=
  fun _ _ hdeclares name hname => (h.plain_of_declares hnone hdeclares name hname).dot_not_mem

/-- Fields of messages and enums name their types. -/
theorem typeName_ne_none (h : Outcome job s) {path : List String} {draft : MessageDraft}
    (hplaced : (path, draft) ∈ s.file.placed) {field : FieldDraft} (hfield : field ∈ draft.fields)
    (hisNamed : field.type.isNamed = true) : field.typeName ≠ none := by
  intro hno
  have htyped := h.of_mem_placed (wellTyped_stable job s.facts) hplaced field hfield
  rw [hno] at htyped
  generalize field.type = type at htyped hisNamed
  cases htyped with
  | scalar hscalar => simp [hscalar] at hisNamed

/-- The references of the compiled file are the drafted ones, looked up from where they stand. -/
theorem refers_iff (h : Outcome job s) (hnone : job.config.additionalMessages = [])
    {kind : TypeKind} {typeName : Option String} :
    s.file.build.Refers kind typeName ↔
      ∃ path name, s.file.Refers path kind name ∧
        typeName = some (s.file.build.lookUp path name) :=
  FileDraft.refers_build_iff (h.not_finished hnone) fun _ _ hplaced _ => h.typeName_ne_none hplaced

/-- The messages around a field have names of letters, digits and underscores. -/
theorem plain_path_of_refers (h : Outcome job s) {path : List String} {kind : TypeKind}
    {name : String} (hrefers : s.file.Refers path kind name) : ∀ part ∈ path, Plain part := by
  cases hrefers with
  | field hplaced _ _ _ => exact h.plain_path hplaced
  | input _ _ => simp
  | output _ _ => simp

/-- A name that is taken in the file is that of a type that is in scope everywhere. -/
theorem inScope_of_hasType (h : Outcome job s) (path : List String) {name : String}
    (hname : s.file.hasType name = true) : s.file.build.InScope path name := by
  obtain ⟨kind, hdeclares⟩ :=
    FileDraft.declares_of_mem_typeNames (h.justified.inStep.hasType_iff.mp hname)
  exact ⟨[], kind, List.nil_prefix, FileDraft.declares_build.mpr hdeclares⟩

/-- What a component became is in scope everywhere. -/
theorem inScope_of_lookup (h : Outcome job s) (path : List String) {key name : String}
    {result : ComponentType}
    (hresult : s.facts.schemas.lookup key = some result ∨ s.facts.bodies.lookup key = some result)
    (hname : result = .message name ∨ result = .enum name) : s.file.build.InScope path name := by
  have hdeclared : Declared s.file result := by
    rcases hresult with hresult | hresult
    · exact h.justified.declared_of_lookup hresult
    · exact h.justified.bodies _ (Table.mem_of_lookup_eq_some hresult)
  refine h.inScope_of_hasType path ?_
  rcases hname with rfl | rfl <;> exact hdeclared

/-- The type of a method is well known or in scope. -/
theorem inScope_of_payloadType (h : Outcome job s) (path : List String) {type : String}
    (htype : PayloadType job s type) : type ∈ wellKnownNames ∨ s.file.build.InScope path type := by
  rcases htype with rfl | ⟨htype, -⟩
  · exact .inl (List.mem_cons_self ..)
  · exact .inr (h.inScope_of_hasType path htype)

/-- A reference is to a well-known message, or to a type in scope, or to a message of the name of a
component. -/
theorem refers_cases (h : Outcome job s) {path : List String} {kind : TypeKind} {name : String}
    (hrefers : s.file.Refers path kind name) :
    (kind = .message ∧ name ∈ wellKnownNames) ∨ s.file.build.InScope path name ∨
      (kind = .message ∧ name ∈ job.componentNames) := by
  cases hrefers with
  | field hplaced hfield htype hname =>
    have htyped := h.of_mem_placed (wellTyped_stable job s.facts) hplaced _ hfield
    rw [hname, htype] at htyped
    -- the way the field came by its type says where the name is declared
    generalize htype : kind.fieldType = type at htyped
    cases htyped with
    | holder hholder _ =>
      exact .inl ⟨TypeKind.fieldType_eq_message.mp htype, holder?_mem_wellKnownNames hholder⟩
    | nested _ hnested =>
      obtain ⟨other, hdeclares⟩ := FileDraft.declares_of_mem_nested hplaced hnested
      exact .inr (.inl ⟨path, other, List.prefix_rfl, FileDraft.declares_build.mpr hdeclares⟩)
    | component hresult hkind =>
      exact .inr (.inl (h.inScope_of_lookup path hresult (hkind.imp And.left And.left)))
    | borrowed hcomponent =>
      exact .inr (.inr ⟨TypeKind.fieldType_eq_message.mp htype, hcomponent⟩)
  | input hservice hmethod =>
    obtain ⟨_, -, htyped⟩ := h.methods hservice hmethod
    rcases h.inScope_of_payloadType [] htyped.input with hname | hname
    · exact .inl ⟨rfl, hname⟩
    · exact .inr (.inl hname)
  | output hservice hmethod =>
    obtain ⟨_, -, htyped⟩ := h.methods hservice hmethod
    rcases h.inScope_of_payloadType [] htyped.output with hname | hname
    · exact .inl ⟨rfl, hname⟩
    · exact .inr (.inl hname)

/-- The names in references are well known or plain. -/
theorem wellKnown_or_plain (h : Outcome job s) (hnone : job.config.additionalMessages = [])
    {path : List String} {kind : TypeKind} {name : String}
    (hrefers : s.file.Refers path kind name) : name ∈ wellKnownNames ∨ Plain name := by
  rcases h.refers_cases hrefers with ⟨-, hname⟩ | ⟨around, other, -, hdeclares⟩ | ⟨-, hcomponent⟩
  · exact .inl hname
  · exact .inr (h.plain_of_declares hnone hdeclares name (by simp))
  · exact .inr (Job.plain_of_mem_componentNames hcomponent)

/-- A plain name in a reference is looked up to the nearest type of that name. -/
theorem lookUp_eq_fullName_iff (h : Outcome job s)
    (hnone : job.config.additionalMessages = []) {path target : List String}
    {kind declared : TypeKind} {name : String} (hrefers : s.file.Refers path kind name)
    (hname : Plain name) (htarget : s.file.build.Declares target declared) :
    s.file.build.lookUp path name = Link.fullName s.file.build.root target ↔
      ∃ around, target = around ++ [name] ∧ s.file.build.Sees path name around declared :=
  FileDescriptor.lookUp_eq_fullName_iff (h.dotFree hnone)
    (fun part hpart => (h.plain_path_of_refers hrefers part hpart).dot_not_mem)
    hname.dot_not_mem htarget

end Outcome

end Protoscribe.Compile
