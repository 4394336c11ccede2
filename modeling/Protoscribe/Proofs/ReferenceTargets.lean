import Protoscribe.Proofs.Compile.Linked

/-!
# `Protoscribe.Proofs.ReferenceTargets`: which type a reference leads to

A reference to a component becomes a field with the name of the type that the component became. The
name is relative, and it is looked up from the message of the field outward. So the field leads to
the component exactly when no message around it nests a type of the same name (`Hidden`).

Names of inline types and of components are told apart by the keys of the components only. The title
of a component can be the title of an inline schema too, and then the inline type hides the
component from the fields around.
-/

set_option autoImplicit false

namespace Protoscribe

/-- Seen from the message at a path, a nested type of the name hides the one at the root. -/
def FileDescriptor.Hidden (file : FileDescriptor) (path : List String) (name : String) : Prop :=
  ∃ around, around ≠ [] ∧ around <+: path ∧
    Link.qualify (Link.fullName file.root around) name ∈ file.typeNames

/-- A compiled field comes from a drafted one. When that has the name of a type at the root, the
compiled field leads there exactly when the type is not hidden. -/
structure Reaches (package : String) (file : FileDescriptor) (path : List String) (type : String)
    (field : FieldDraft) (linked : FieldDescriptor) : Prop where
  name : linked.name = some field.name
  typeName : field.typeName = some type →
    (linked.typeName = some ("." ++ package ++ "." ++ type) ↔ ¬ file.Hidden path type)

namespace Compile

open OpenApi (Document)

/-- The reference names a component that became a type of the name. -/
def Facts.NamesType (facts : Facts) (job : Job) (reference type : String) : Prop :=
  ∃ result, facts.Names job reference result ∧ (result = .message type ∨ result = .enum type)

variable {job : Job} {s : State}

/-- The field for a reference carries the name of the type that the component became. -/
theorem Facts.NamesType.refer {facts : Facts} {reference type : String}
    (h : facts.NamesType job reference type) {parent filled : MessageDraft} {slot : Slot}
    (hslot : Derives job facts (.slot parent slot (.ref reference)) (some filled)) :
    ∃ field, filled = parent.addField field ∧ field.typeName = some type := by
  obtain ⟨result, ⟨key, _, hkey, -, hresult⟩, htype⟩ := h
  cases hslot with
  | @reference _ _ _ result' hnames =>
    obtain ⟨key', _, hkey', -, hresult'⟩ := hnames
    -- both are what the same component became
    rw [hkey] at hkey'
    cases hkey'
    rw [hresult] at hresult'
    cases hresult'
    rcases htype with rfl | rfl
    · exact ⟨_, rfl, (slot.type_set _ _).2⟩
    · exact ⟨_, rfl, (slot.type_set _ _).2⟩

/-- A name of a component is looked up to the component exactly when it is not hidden. -/
theorem Outcome.lookUp_component_iff (h : Outcome job s) {path : List String} {draft : MessageDraft}
    (hplaced : (path, draft) ∈ s.file.placed) {reference type : String}
    (hnames : s.facts.NamesType job reference type) :
    s.file.build.lookUp path type = Link.qualify s.file.build.root type ↔
      ¬ s.file.build.Hidden path type := by
  obtain ⟨result, ⟨key, _, -, -, hresult⟩, htype⟩ := hnames
  have hpath : ∀ part ∈ path, '.' ∉ part.toList := fun part hpart =>
    (h.plain_path hplaced part hpart).dot_not_mem
  have hplain := (h.justified.plain_of_lookup hresult htype).dot_not_mem
  -- the component is a type at the root
  have hroot : Link.qualify s.file.build.root type ∈ s.file.build.typeNames := by
    have hdeclared := h.justified.declared_of_lookup hresult
    have hhas : s.file.hasType type = true := by
      rcases htype with rfl | rfl <;> exact hdeclared
    obtain ⟨kind, hdeclares⟩ :=
      FileDraft.declares_of_mem_typeNames (h.justified.inStep.hasType_iff.mp hhas)
    exact FileDescriptor.mem_typeNames.mpr
      ⟨[type], kind, FileDraft.declares_build.mpr hdeclares, rfl⟩
  rw [FileDescriptor.lookUp,
    Link.resolve_fullName_eq_iff hpath (Link.head?_ne_dot hplain) hroot, FileDescriptor.Hidden]
  simp only [not_exists, not_and]

/-- A reference to a component becomes a field with the name of the type that the component became.
In the compiled file, a field with that name leads to the component exactly when no message around
it nests a type of the name. -/
theorem references_reach_components_iff {document : Document} {config : Config} {out : Output}
    (h : compile document config = .ok out) :
    ∃ s, compileDocument ⟨document, config⟩ { file := startFile document config } = .ok ⟨⟩ s ∧
      out.file = s.file.build ∧
      (∀ draft, .drafted draft ∈ s.file.messages → Emitted ⟨document, config⟩ s.facts draft) ∧
      ∀ reference type, s.facts.NamesType ⟨document, config⟩ reference type →
        (∀ parent slot filled,
          Derives ⟨document, config⟩ s.facts (.slot parent slot (.ref reference)) (some filled) →
          ∃ field, filled = parent.addField field ∧ field.typeName = some type) ∧
        ∀ path draft, (path, draft) ∈ s.file.placed →
          ∃ message, (path, message) ∈ out.file.placed ∧
            List.Forall₂ (Reaches (packageFor document config) out.file path type)
              draft.fields message.fields := by
  obtain ⟨s, hrun, hs, hfile⟩ := compile_eq_ok h
  refine ⟨s, hrun, hfile, hs.justified.messages, fun reference type hnames => ?_⟩
  refine ⟨fun parent slot filled hslot => hnames.refer hslot, fun path draft hplaced => ?_⟩
  obtain ⟨message, hmessage, hfields⟩ := FileDraft.mem_placed_build hplaced
  rw [hfile]
  refine ⟨message, hmessage, hfields.imp fun field linked hlinked => ⟨hlinked.name, ?_⟩⟩
  intro htype
  rw [hlinked.typeName, htype, Option.map_some, Option.some_inj,
    ← hs.lookUp_component_iff hplaced hnames, hs.root_eq]
  rfl

/-- A component that is referred to from an inline object. -/
def kiosk : Document :=
  descriptionOf
    [("Kiosk", objectNode [("shelf", objectNode [("best", .ref "#/components/schemas/Paper")])]),
     ("Paper", objectNode [("title", textNode)])]

/-- In the kiosk, references lead to components exactly when these are not hidden. -/
theorem references_reach_components_iff_kiosk :
    ∃ out, compile kiosk {} = .ok out ∧
      ∃ s, compileDocument ⟨kiosk, {}⟩ { file := startFile kiosk {} } = .ok ⟨⟩ s ∧
        out.file = s.file.build ∧
        (∀ draft, .drafted draft ∈ s.file.messages → Emitted ⟨kiosk, {}⟩ s.facts draft) ∧
        ∀ reference type, s.facts.NamesType ⟨kiosk, {}⟩ reference type →
          (∀ parent slot filled,
            Derives ⟨kiosk, {}⟩ s.facts (.slot parent slot (.ref reference)) (some filled) →
            ∃ field, filled = parent.addField field ∧ field.typeName = some type) ∧
          ∀ path draft, (path, draft) ∈ s.file.placed →
            ∃ message, (path, message) ∈ out.file.placed ∧
              List.Forall₂ (Reaches (packageFor kiosk {}) out.file path type)
                draft.fields message.fields := by
  have hcompiles : compilesTo kiosk {} (fun _ => true) = true := by decide +kernel
  obtain ⟨out, -, hout, -⟩ := exists_of_compilesTo hcompiles
  exact ⟨out, hout, references_reach_components_iff hout⟩

/-- A component with the title of an inline object, and a reference to it next to the object. -/
def hiddenComponent : Document :=
  descriptionOf
    [("A", objectNode
       [("x", objectNode [("y", textNode)] (some "Inner")), ("z", .ref "#/components/schemas/K")]),
     ("K", objectNode [("w", textNode)] (some "Inner"))]

/-- The field for the reference leads to the inline object and not to the component. -/
theorem hiddenComponent_not_reached :
    ∃ out s, compile hiddenComponent {} = .ok out ∧ out.file = s.file.build ∧
      compileDocument ⟨hiddenComponent, {}⟩ { file := startFile hiddenComponent {} } =
        .ok ⟨⟩ s ∧
      s.facts.NamesType ⟨hiddenComponent, {}⟩ "#/components/schemas/K" "Inner" ∧
      ∃ path message field, (path, message) ∈ out.file.placed ∧ field ∈ message.fields ∧
        field.name = some "z" ∧ field.typeName = some ".openapi.A.Inner" := by
  have hcompiles : compilesTo hiddenComponent {} (fun s =>
      s.schemas.lookup "K" == some (.message "Inner") &&
        s.file.build.placed.any fun entry => entry.2.fields.any fun field =>
          field.name == some "z" && field.typeName == some ".openapi.A.Inner") = true := by
    decide +kernel
  obtain ⟨out, s, hout, hfile, hrun, hcheck⟩ := exists_of_compilesTo hcompiles
  simp only [Bool.and_eq_true, List.any_eq_true, beq_iff_eq] at hcheck
  obtain ⟨hbecame, ⟨path, message⟩, hplaced, field, hmem, hname, htype⟩ := hcheck
  have hkey : OpenApi.Section.schemas.key? "#/components/schemas/K" = some "K" := by decide +kernel
  refine ⟨out, s, hout, hfile, hrun, ?_, path, message, field, hfile ▸ hplaced, hmem, hname, htype⟩
  exact ⟨.message "Inner", ⟨"K", _, hkey, rfl, hbecame⟩, .inl rfl⟩

end Compile

end Protoscribe
