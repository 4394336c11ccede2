import Protoscribe.Proofs.Compile.Linked

/-!
# `Protoscribe.Proofs.DeclaredTypes`: which types a compiled file misses

Every name of a type in a compiled file should be the full name of a type of the file, or of a
message that comes with an import. One way past that is left open. While a component is being
compiled, an inline schema with the name of the component is not nested: its field refers to the
component, in the belief that the component becomes a message of that name. A title may give the
component another name, and then the field refers to nothing.

* `types_declared_iff`: nothing else can be missing. A file misses a type exactly when a field has
  the name of a component and no type of that name is in scope; the field then carries the bare name
  of the component, without the package.
* `types_declared_of_componentNames`: nothing is missing when each component gives its name to a
  type of the file.
-/

set_option autoImplicit false

namespace Protoscribe

/-- The full name is that of a declared type, or of a well-known one. -/
def FileDescriptor.KnowsType (file : FileDescriptor) (full : String) : Prop :=
  full ∈ file.typeNames ∨ full ∈ Compile.wellKnownNames.map ("." ++ ·)

/-- All fields of a message or enum type and all methods name types that the file knows. -/
def FileDescriptor.TypesDeclared (file : FileDescriptor) : Prop :=
  ∀ kind typeName, file.Refers kind typeName → ∃ full, typeName = some full ∧ file.KnowsType full

namespace Compile

open OpenApi (Document)

variable {job : Job} {s : State}

/-- A name right below the root of all packages is not declared, nor is it well known. -/
theorem Outcome.not_knowsType (h : Outcome job s) (hnone : job.config.additionalMessages = [])
    {name : String} (hname : Plain name) : ¬ s.file.build.KnowsType ("." ++ name) := by
  rintro (hdeclared | hwellKnown)
  · obtain ⟨path, kind, hdeclares, heq⟩ := FileDescriptor.mem_typeNames.mp hdeclared
    obtain ⟨around, part, rfl⟩ := hdeclares.exists_eq_append
    have hpart := (h.plain_of_declares hnone hdeclares part (by simp)).dot_not_mem
    rw [Link.fullName_append, show "." ++ name = Link.qualify "" name by simp [Link.qualify]] at heq
    -- the scope of a declared type is at least as long as the package
    obtain ⟨hscope, -⟩ := Link.qualify_inj hname.dot_not_mem hpart heq
    have hlength := Link.length_le_fullName s.file.build.root around
    rw [← hscope, h.root_eq, String.length_append] at hlength
    simp at hlength
  · obtain ⟨known, hknown, heq⟩ := List.mem_map.mp hwellKnown
    have hsame : known = name := by simpa using heq
    exact not_plain_of_mem_wellKnownNames known hknown (hsame ▸ hname)

/-- A plain name in a reference is looked up to a declared type when it is in scope, and otherwise
it is taken to be absolute. -/
theorem Outcome.lookUp_cases (h : Outcome job s) (hnone : job.config.additionalMessages = [])
    {path : List String} {kind : TypeKind} {name : String}
    (hrefers : s.file.Refers path kind name) (hname : Plain name) :
    (s.file.build.InScope path name ∧
      s.file.build.lookUp path name ∈ s.file.build.typeNames) ∨
    (¬ s.file.build.InScope path name ∧ s.file.build.lookUp path name = "." ++ name) := by
  by_cases hscope : s.file.build.InScope path name
  · exact .inl ⟨hscope, hscope.lookUp_mem
      (fun part hpart => (h.plain_path_of_refers hrefers part hpart).dot_not_mem)
      hname.dot_not_mem⟩
  · refine .inr ⟨hscope, ?_⟩
    rcases s.file.build.lookUp_mem_or path (Link.head?_ne_dot hname.dot_not_mem) with hmem | heq
    · -- what is found would be a type in scope
      obtain ⟨target, declared, hdeclares, heq⟩ := FileDescriptor.mem_typeNames.mp hmem
      obtain ⟨around, -, hsees⟩ :=
        (h.lookUp_eq_fullName_iff hnone hrefers hname hdeclares).mp heq
      exact absurd hsees.inScope hscope
    · exact heq

/-- A drafted reference leads to a type that the file knows exactly when its name is well known or
in scope. -/
theorem Outcome.knowsType_lookUp_iff (h : Outcome job s)
    (hnone : job.config.additionalMessages = []) {path : List String} {kind : TypeKind}
    {name : String} (hrefers : s.file.Refers path kind name) :
    s.file.build.KnowsType (s.file.build.lookUp path name) ↔
      name ∈ wellKnownNames ∨ s.file.build.InScope path name := by
  rcases h.wellKnown_or_plain hnone hrefers with hwellKnown | hname
  · refine iff_of_true ?_ (.inl hwellKnown)
    rcases s.file.build.lookUp_mem_or path (head?_of_mem_wellKnownNames name hwellKnown) with
      hmem | heq
    · exact .inl hmem
    · exact .inr (heq ▸ List.mem_map_of_mem hwellKnown)
  · rcases h.lookUp_cases hnone hrefers hname with ⟨hscope, hmem⟩ | ⟨hscope, heq⟩
    · exact iff_of_true (.inl hmem) (.inr hscope)
    · rw [heq]
      refine iff_of_false (h.not_knowsType hnone hname) (not_or.mpr ⟨?_, hscope⟩)
      exact fun hwellKnown => not_plain_of_mem_wellKnownNames name hwellKnown hname

/-- The file misses no type exactly when every field that has the name of a component is in the
scope of a type of that name. -/
theorem Outcome.typesDeclared_iff (h : Outcome job s)
    (hnone : job.config.additionalMessages = []) :
    s.file.build.TypesDeclared ↔
      ∀ path name, s.file.Refers path .message name → name ∈ job.componentNames →
        s.file.build.InScope path name := by
  constructor
  · intro hdeclared path name hrefers hcomponent
    obtain ⟨full, hfull, hknown⟩ :=
      hdeclared _ _ ((h.refers_iff hnone).mpr ⟨path, name, hrefers, rfl⟩)
    cases hfull
    rcases (h.knowsType_lookUp_iff hnone hrefers).mp hknown with hwellKnown | hscope
    · have hname := Job.plain_of_mem_componentNames hcomponent
      exact absurd hname (not_plain_of_mem_wellKnownNames name hwellKnown)
    · exact hscope
  · intro hborrowed kind typeName hrefers
    obtain ⟨path, name, hdrafted, rfl⟩ := (h.refers_iff hnone).mp hrefers
    refine ⟨_, rfl, (h.knowsType_lookUp_iff hnone hdrafted).mpr ?_⟩
    rcases h.refers_cases hdrafted with ⟨-, hwellKnown⟩ | hscope | ⟨rfl, hcomponent⟩
    · exact .inl hwellKnown
    · exact .inr hscope
    · exact .inr (hborrowed path name hdrafted hcomponent)

/-- A compiled file misses no type exactly when every field that has the name of a component is in
the scope of a type of that name. Where one is not, it carries the bare name of the component. -/
theorem types_declared_iff {document : Document} {config : Config} {out : Output}
    (hnone : config.additionalMessages = []) (h : compile document config = .ok out) :
    ∃ s, compileDocument ⟨document, config⟩ { file := startFile document config } = .ok ⟨⟩ s ∧
      out.file = s.file.build ∧
      (out.file.TypesDeclared ↔
        ∀ path name, s.file.Refers path .message name →
          name ∈ Job.componentNames ⟨document, config⟩ → out.file.InScope path name) ∧
      (out.file.TypesDeclared ↔
        ∀ name ∈ Job.componentNames ⟨document, config⟩,
          ¬ out.file.Refers .message (some ("." ++ name))) := by
  obtain ⟨s, hrun, hs, hfile⟩ := compile_eq_ok h
  refine ⟨s, hrun, hfile, ?_⟩
  rw [hfile]
  refine ⟨hs.typesDeclared_iff hnone, ?_⟩
  -- a dangling name is that of a component with only the leading dot in front
  constructor
  · intro hdeclared name hcomponent hrefers
    obtain ⟨full, hfull, hknown⟩ := hdeclared _ _ hrefers
    cases hfull
    exact hs.not_knowsType hnone (Job.plain_of_mem_componentNames hcomponent) hknown
  · intro hbare
    refine (hs.typesDeclared_iff hnone).mpr fun path name hrefers hcomponent => ?_
    have hname := Job.plain_of_mem_componentNames hcomponent
    rcases hs.lookUp_cases hnone hrefers hname with ⟨hscope, -⟩ | ⟨-, heq⟩
    · exact hscope
    · refine absurd ?_ (hbare name hcomponent)
      exact (hs.refers_iff hnone).mpr ⟨path, name, hrefers, congrArg some heq.symm⟩

/-- A component that is referred to, and nothing else. -/
def shelter : Document :=
  descriptionOf
    [("Dog", objectNode [("name", textNode)]),
     ("Shelter", objectNode [("dog", .ref "#/components/schemas/Dog")])]

/-- In the shelter, a type is missing exactly when a field has the name of a component that is out
of scope. -/
theorem types_declared_iff_shelter :
    ∃ out, compile shelter {} = .ok out ∧
      ∃ s, compileDocument ⟨shelter, {}⟩ { file := startFile shelter {} } = .ok ⟨⟩ s ∧
        out.file = s.file.build ∧
        (out.file.TypesDeclared ↔
          ∀ path name, s.file.Refers path .message name →
            name ∈ Job.componentNames ⟨shelter, {}⟩ → out.file.InScope path name) ∧
        (out.file.TypesDeclared ↔
          ∀ name ∈ Job.componentNames ⟨shelter, {}⟩,
            ¬ out.file.Refers .message (some ("." ++ name))) := by
  have hcompiles : compilesTo shelter {} (fun _ => true) = true := by decide +kernel
  obtain ⟨out, -, hout, -⟩ := exists_of_compilesTo hcompiles
  exact ⟨out, hout, types_declared_iff rfl hout⟩

/-- A component that a title renames, with an inline object of the name of the component. -/
def renamedComponent : Document :=
  descriptionOf
    [("Pet", objectNode [("pet", objectNode [("x", textNode)])] (some "Animal"))]

/-- The field for the inline object refers to a message that the file does not declare. -/
theorem renamedComponent_misses_type :
    ∃ out, compile renamedComponent {} = .ok out ∧ ¬ out.file.TypesDeclared := by
  have hcompiles : compilesTo renamedComponent {} (fun s =>
      s.file.build.placed.any (fun entry => entry.2.fields.any fun field =>
        field.type == some TypeKind.message.fieldType.code && field.typeName == some ".Pet") &&
      !s.file.build.typeNames.contains ".Pet") = true := by
    decide +kernel
  obtain ⟨out, s, hout, hfile, -, hcheck⟩ := exists_of_compilesTo hcompiles
  rw [← hfile] at hcheck
  simp only [Bool.and_eq_true, List.any_eq_true, beq_iff_eq] at hcheck
  obtain ⟨⟨entry, hentry, field, hmem, htype, hname⟩, hmissing⟩ := hcheck
  refine ⟨out, hout, fun hdeclared => ?_⟩
  obtain ⟨full, hfull, hknown⟩ := hdeclared _ _ (.field hentry hmem htype)
  rw [hname] at hfull
  cases hfull
  rcases hknown with hmem | hwellKnown
  · simp [hmem] at hmissing
  · revert hwellKnown
    decide

/-- Nothing is missing when each component gives its name to a type of the file. -/
theorem types_declared_of_componentNames {document : Document} {config : Config} {out : Output}
    (hnone : config.additionalMessages = []) (h : compile document config = .ok out)
    (hnames : ∀ name ∈ Job.componentNames ⟨document, config⟩,
      ∃ kind, out.file.Declares [name] kind) : out.file.TypesDeclared := by
  obtain ⟨s, -, hs, hfile⟩ := compile_eq_ok h
  rw [hfile] at hnames ⊢
  refine (hs.typesDeclared_iff hnone).mpr fun path name _ hcomponent => ?_
  obtain ⟨kind, hdeclares⟩ := hnames name hcomponent
  exact ⟨[], kind, List.nil_prefix, hdeclares⟩

end Compile

end Protoscribe
