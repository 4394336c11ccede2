import Protoscribe.Proofs.Compile.Linked

/-!
# `Protoscribe.Proofs.TypeKinds`: messages for messages and enums for enums

A field says itself whether its type is a message or an enum, and a method takes and gives messages.
What is said there is decided when the field or the method is made. What the name stands for is
decided by the types that are declared in the end: of two types with one name the first stays,
whatever it is, and nested types hide those further out.

`kinds_agree_iff` says when the two decisions agree: the nearest type of the name has to be of the
kind that is asked for, for every field and method. Names of messages from other files are looked up
as well, so no enum of the file may carry one of those.
-/

set_option autoImplicit false

namespace Protoscribe

/-- Where a field or a method names a declared type, the type is of the kind that is asked for. -/
def FileDescriptor.KindsAgree (file : FileDescriptor) : Prop :=
  ∀ kind typeName, file.Refers kind typeName → ∀ path declared, file.Declares path declared →
    typeName = some (Link.fullName file.root path) → declared = kind

/-- A drafted reference finds in the file what it asks for: the nearest type of its name is of its
kind, and a message of another file is not mistaken for an enum of this one. -/
structure FileDescriptor.Suits (file : FileDescriptor) (path : List String) (kind : TypeKind)
    (name : String) : Prop where
  nearest : Plain name → ∀ around declared, file.Sees path name around declared → declared = kind
  wellKnown : name ∈ Compile.wellKnownNames → ∀ target, file.Declares target .enum →
    file.lookUp path name ≠ Link.fullName file.root target

namespace Compile

open OpenApi (Document)

variable {job : Job} {s : State}

/-- References to well-known names are references to messages. -/
theorem Outcome.eq_message_of_wellKnown (h : Outcome job s)
    (hnone : job.config.additionalMessages = []) {path : List String} {kind : TypeKind}
    {name : String} (hrefers : s.file.Refers path kind name) (hname : name ∈ wellKnownNames) :
    kind = .message := by
  rcases h.refers_cases hrefers with ⟨hkind, -⟩ | ⟨around, other, -, hdeclares⟩ | ⟨hkind, -⟩
  · exact hkind
  · -- a type of the file cannot have such a name
    have hplain := h.plain_of_declares hnone hdeclares name (by simp)
    exact absurd hplain (not_plain_of_mem_wellKnownNames name hname)
  · exact hkind

/-- The kinds agree in a compiled file exactly when every reference finds what it asks for. -/
theorem kinds_agree_iff {document : Document} {config : Config} {out : Output}
    (hnone : config.additionalMessages = []) (h : compile document config = .ok out) :
    ∃ s, compileDocument ⟨document, config⟩ { file := startFile document config } = .ok ⟨⟩ s ∧
      out.file = s.file.build ∧
      (out.file.KindsAgree ↔
        ∀ path kind name, s.file.Refers path kind name → out.file.Suits path kind name) := by
  obtain ⟨s, hrun, hs, hfile⟩ := compile_eq_ok h
  refine ⟨s, hrun, hfile, ?_⟩
  rw [hfile]
  constructor
  · intro hagree path kind name hrefers
    have hlinked := (hs.refers_iff hnone).mpr ⟨path, name, hrefers, rfl⟩
    -- a nearest type is what the linked name stands for
    refine ⟨fun hplain around declared hsees => ?_, fun hname target henum heq => ?_⟩
    · have heq := (hs.lookUp_eq_fullName_iff hnone hrefers hplain hsees.declares).mpr
        ⟨around, rfl, hsees⟩
      exact hagree kind _ hlinked _ declared hsees.declares (congrArg some heq)
    · have hkind := hagree kind _ hlinked target .enum henum (congrArg some heq)
      rw [hs.eq_message_of_wellKnown hnone hrefers hname] at hkind
      cases hkind
  · intro hsuits kind typeName hrefers target declared hdeclares heq
    obtain ⟨path, name, hdrafted, rfl⟩ := (hs.refers_iff hnone).mp hrefers
    have heq := Option.some.inj heq
    rcases hs.wellKnown_or_plain hnone hdrafted with hname | hplain
    · rw [hs.eq_message_of_wellKnown hnone hdrafted hname]
      cases declared with
      | message => rfl
      | enum => exact absurd heq ((hsuits path kind name hdrafted).wellKnown hname target hdeclares)
    · obtain ⟨around, rfl, hsees⟩ :=
        (hs.lookUp_eq_fullName_iff hnone hdrafted hplain hdeclares).mp heq
      exact (hsuits path kind name hdrafted).nearest hplain around declared hsees

/-- An object with an inline enum and an inline object. -/
def lamp : Document :=
  descriptionOf
    [("Lamp", objectNode
       [("state", .inline { shape := .enum [.text "on", .text "off"] }),
        ("bulb", objectNode [("watts", textNode)])])]

/-- In the lamp, the kinds agree exactly when references find what they ask for. -/
theorem kinds_agree_iff_lamp :
    ∃ out, compile lamp {} = .ok out ∧
      ∃ s, compileDocument ⟨lamp, {}⟩ { file := startFile lamp {} } = .ok ⟨⟩ s ∧
        out.file = s.file.build ∧
        (out.file.KindsAgree ↔
          ∀ path kind name, s.file.Refers path kind name → out.file.Suits path kind name) := by
  have hcompiles : compilesTo lamp {} (fun _ => true) = true := by decide +kernel
  obtain ⟨out, -, hout, -⟩ := exists_of_compilesTo hcompiles
  exact ⟨out, hout, kinds_agree_iff rfl hout⟩

/-- An object with an inline enum and an inline object of one title. -/
def sharedTitle : Document :=
  descriptionOf
    [("A", objectNode
       [("x", .inline { title := some "Inner", shape := .enum [.text "a"] }),
        ("y", objectNode [("y", textNode)] (some "Inner"))])]

/-- The field for the inline object is a message field, and its type is the enum. -/
theorem sharedTitle_mixes_kinds :
    ∃ out, compile sharedTitle {} = .ok out ∧ ¬ out.file.KindsAgree := by
  have hcompiles : compilesTo sharedTitle {} (fun s =>
      s.file.build.root == ".openapi" && s.file.build.placed.any fun entry =>
        entry.1 == ["A"] && entry.2.enums.any (fun enum => enum.name == some "Inner") &&
        entry.2.fields.any fun field => field.type == some TypeKind.message.fieldType.code &&
          field.typeName == some ".openapi.A.Inner") = true := by
    decide +kernel
  obtain ⟨out, s, hout, hfile, -, hcheck⟩ := exists_of_compilesTo hcompiles
  rw [← hfile] at hcheck
  simp only [Bool.and_eq_true, List.any_eq_true, beq_iff_eq] at hcheck
  obtain ⟨hroot, ⟨path, message⟩, hplaced, ⟨rfl, enum, henum, hname⟩, field, hmem, htype,
    htypeName⟩ := hcheck
  refine ⟨out, hout, fun hagree => ?_⟩
  have hdeclares : out.file.Declares (["A"] ++ [enum.name.getD ""]) .enum :=
    .nested hplaced henum
  rw [hname] at hdeclares
  have hfull : field.typeName = some (Link.fullName out.file.root ["A", "Inner"]) := by
    rw [htypeName, hroot]
    rfl
  have hkind := hagree _ _ (.field hplaced hmem htype) _ _ hdeclares hfull
  cases hkind

end Compile

end Protoscribe
