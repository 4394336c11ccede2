import Protoscribe.Proofs.Link.Compiled

/-!
# `Protoscribe.Proofs.Link.References`: what refers to types

Fields and methods refer to types by name. In a draft the name is relative to the message of the
field, and a method stands at the root; in a compiled file all names are absolute.

* `refers_build_iff`: the references of a compiled file are those of the draft, looked up.
* `lookUp_eq_fullName_iff`: a name is looked up to a type exactly when the type is the nearest one
  of that name (`Sees`).
* `Outcome.refers_cases`: where the names in references come from.
-/

set_option autoImplicit false

namespace Protoscribe

/-- The type of a field that refers to a type of the kind. -/
def TypeKind.fieldType : TypeKind → FieldType
  | .message => .message
  | .enum => .enum

/-- Only messages have message fields. -/
theorem TypeKind.fieldType_eq_message {kind : TypeKind} :
    kind.fieldType = .message ↔ kind = .message := by
  cases kind <;> simp [fieldType]

/-- A field or a method of the file refers by a name to a type of a kind. -/
inductive FileDescriptor.Refers (file : FileDescriptor) : TypeKind → Option String → Prop
  | field {path : List String} {message : MessageDescriptor} {field : FieldDescriptor}
      {kind : TypeKind} (hplaced : (path, message) ∈ file.placed) (hfield : field ∈ message.fields)
      (htype : field.type = some kind.fieldType.code) : file.Refers kind field.typeName
  | input {method : MethodDescriptor}
      (hmethod : ∃ service ∈ file.services, method ∈ service.methods) :
      file.Refers .message method.inputType
  | output {method : MethodDescriptor}
      (hmethod : ∃ service ∈ file.services, method ∈ service.methods) :
      file.Refers .message method.outputType

/-- Seen from a path, a field or a method of the draft refers by a name to a type of a kind. -/
inductive FileDraft.Refers (file : FileDraft) : List String → TypeKind → String → Prop
  | field {path : List String} {draft : MessageDraft} {field : FieldDraft} {kind : TypeKind}
      {name : String} (hplaced : (path, draft) ∈ file.placed) (hfield : field ∈ draft.fields)
      (htype : field.type = kind.fieldType) (hname : field.typeName = some name) :
      file.Refers path kind name
  | input {service : ServiceDraft} {method : MethodDraft} (hservice : service ∈ file.services)
      (hmethod : method ∈ service.methods) : file.Refers [] .message method.inputType
  | output {service : ServiceDraft} {method : MethodDraft} (hservice : service ∈ file.services)
      (hmethod : method ∈ service.methods) : file.Refers [] .message method.outputType

/-- A field type is known by its code. -/
theorem FieldType.code_injective {type other : FieldType} (h : type.code = other.code) :
    type = other := by
  have hcode : ∀ t : FieldType, all.find? (fun u => u.code == t.code) = some t := by
    intro t
    cases t <;> rfl
  have hfound := hcode type
  rw [h, hcode other] at hfound
  exact (Option.some.inj hfound).symm

/-- The type of a compiled field is what the drafted field refers to, looked up from its message. -/
theorem FileDraft.exists_refers_of_field {file : FileDraft}
    (hnone : ∀ descriptor, .finished descriptor ∉ file.messages)
    (hnamed : ∀ path draft, (path, draft) ∈ file.placed → ∀ field ∈ draft.fields,
      field.type.isNamed = true → field.typeName ≠ none)
    {path : List String} {message : MessageDescriptor} {field : FieldDescriptor} {kind : TypeKind}
    (hplaced : (path, message) ∈ file.build.placed) (hfield : field ∈ message.fields)
    (htype : field.type = some kind.fieldType.code) :
    ∃ name, file.Refers path kind name ∧ field.typeName = some (file.build.lookUp path name) := by
  obtain ⟨draft, hdraft, hfields⟩ := exists_of_mem_placed_build hnone hplaced
  obtain ⟨drafted, hdrafted, hlinked⟩ := (exists_of_forall₂ hfields).2 _ hfield
  have hkind : drafted.type = kind.fieldType := by
    rw [hlinked.type] at htype
    exact FieldType.code_injective (Option.some.inj htype)
  -- a message or an enum has a name, or it would not be found
  have hisNamed : drafted.type.isNamed = true := by
    rw [hkind]
    cases kind <;> rfl
  obtain ⟨name, hname⟩ :=
    Option.ne_none_iff_exists'.mp (hnamed _ draft hdraft drafted hdrafted hisNamed)
  refine ⟨name, .field hdraft hdrafted hkind hname, ?_⟩
  rw [hlinked.typeName, hname]
  rfl

/-- The references of a compiled file are the drafted ones, looked up from where they stand. -/
theorem FileDraft.refers_build_iff {file : FileDraft}
    (hnone : ∀ descriptor, .finished descriptor ∉ file.messages)
    (hnamed : ∀ path draft, (path, draft) ∈ file.placed → ∀ field ∈ draft.fields,
      field.type.isNamed = true → field.typeName ≠ none)
    {kind : TypeKind} {typeName : Option String} :
    file.build.Refers kind typeName ↔
      ∃ path name, file.Refers path kind name ∧
        typeName = some (file.build.lookUp path name) := by
  -- types of fields are looked up from their message, those of methods from the root
  constructor
  · intro h
    cases h with
    | field hplaced hfield htype =>
      obtain ⟨name, hrefers, hname⟩ := exists_refers_of_field hnone hnamed hplaced hfield htype
      exact ⟨_, name, hrefers, hname⟩
    | input hmethod =>
      obtain ⟨service, hservice, drafted, hdrafted, rfl⟩ := mem_methods_build.mp hmethod
      exact ⟨[], _, .input hservice hdrafted, rfl⟩
    | output hmethod =>
      obtain ⟨service, hservice, drafted, hdrafted, rfl⟩ := mem_methods_build.mp hmethod
      exact ⟨[], _, .output hservice hdrafted, rfl⟩
  · rintro ⟨path, name, h, rfl⟩
    cases h with
    | field hplaced hfield htype hname =>
      obtain ⟨message, hmessage, hfields⟩ := mem_placed_build hplaced
      obtain ⟨linked, hmem, hlinked⟩ := (exists_of_forall₂ hfields).1 _ hfield
      have hrefers : file.build.Refers kind linked.typeName :=
        .field hmessage hmem (by rw [hlinked.type, htype])
      rwa [hlinked.typeName, hname] at hrefers
    | input hservice hmethod =>
      have hbuilt := mem_methods_build.mpr ⟨_, hservice, _, hmethod, rfl⟩
      exact .input hbuilt
    | output hservice hmethod =>
      have hbuilt := mem_methods_build.mpr ⟨_, hservice, _, hmethod, rfl⟩
      exact .output hbuilt

/-! ### Looking references up -/

namespace FileDescriptor

variable {file : FileDescriptor} {path around target : List String} {name : String}
  {kind : TypeKind}

/-- The message at a path, or one around it, or the root declares a type of the name. -/
def InScope (file : FileDescriptor) (path : List String) (name : String) : Prop :=
  ∃ around kind, around <+: path ∧ file.Declares (around ++ [name]) kind

/-- Seen from the message at `path`, the nearest type of a name stands in the message at `around`,
or at the root when that is empty. -/
structure Sees (file : FileDescriptor) (path : List String) (name : String)
    (around : List String) (kind : TypeKind) : Prop where
  encloses : around <+: path
  declares : file.Declares (around ++ [name]) kind
  innermost : ∀ inner, around <+: inner → inner <+: path → inner ≠ around →
    ∀ other, ¬ file.Declares (inner ++ [name]) other

/-- What is seen is in scope. -/
theorem Sees.inScope (h : file.Sees path name around kind) : file.InScope path name :=
  ⟨around, kind, h.encloses, h.declares⟩

/-- No declared type has a dot in its name, nor do the messages around it. -/
def DotFree (file : FileDescriptor) : Prop :=
  ∀ path kind, file.Declares path kind → ∀ name ∈ path, '.' ∉ name.toList

/-- The full names are those of the declared types. -/
theorem mem_typeNames : name ∈ file.typeNames ↔
    ∃ path kind, file.Declares path kind ∧ name = Link.fullName file.root path :=
  Link.mem_declaredNames

/-- Where names have no dots, a full name is declared when the type is. -/
theorem qualify_mem_typeNames (hfile : file.DotFree)
    (haround : ∀ part ∈ around, '.' ∉ part.toList) (hname : '.' ∉ name.toList) :
    Link.qualify (Link.fullName file.root around) name ∈ file.typeNames ↔
      ∃ kind, file.Declares (around ++ [name]) kind := by
  rw [← Link.fullName_append, mem_typeNames]
  constructor
  · rintro ⟨path, kind, hdeclares, heq⟩
    have hparts : ∀ part ∈ around ++ [name], '.' ∉ part.toList := by
      intro part hpart
      rcases List.mem_append.mp hpart with hpart | hpart
      · exact haround part hpart
      · exact List.mem_singleton.mp hpart ▸ hname
    rw [Link.fullName_injective hparts (hfile path kind hdeclares) heq]
    exact ⟨kind, hdeclares⟩
  · rintro ⟨kind, hdeclares⟩
    exact ⟨_, kind, hdeclares, rfl⟩

/-- The path of a type ends with its name. -/
theorem Declares.exists_eq_append {path : List String} (h : file.Declares path kind) :
    ∃ around name, path = around ++ [name] := by
  cases h with
  | message hplaced =>
    exact ⟨_, _, MessageDescriptor.path_eq_of_mem_placedAll file.messages hplaced⟩
  | nested _ _ => exact ⟨_, _, rfl⟩
  | @enum enum _ => exact ⟨[], enum.name.getD "", rfl⟩

/-- A name is looked up to a declared type, or it counts as absolute. -/
theorem lookUp_mem_or (file : FileDescriptor) (path : List String)
    (hname : name.toList.head? ≠ some '.') :
    file.lookUp path name ∈ file.typeNames ∨ file.lookUp path name = "." ++ name :=
  Link.resolve_mem_or _ _ hname

/-- A name in scope is looked up to a declared type. -/
theorem InScope.lookUp_mem (h : file.InScope path name)
    (hpath : ∀ part ∈ path, '.' ∉ part.toList) (hname : '.' ∉ name.toList) :
    file.lookUp path name ∈ file.typeNames := by
  obtain ⟨around, kind, hwithin, hdeclares⟩ := h
  refine Link.resolve_mem_of_encloses hpath (Link.head?_ne_dot hname) hwithin ?_
  rw [← Link.fullName_append]
  exact mem_typeNames.mpr ⟨_, kind, hdeclares, rfl⟩

/-- Where names have no dots, a name is looked up to the nearest type of that name. -/
theorem lookUp_eq_fullName_iff (hfile : file.DotFree) (hpath : ∀ part ∈ path, '.' ∉ part.toList)
    (hname : '.' ∉ name.toList) (htarget : file.Declares target kind) :
    file.lookUp path name = Link.fullName file.root target ↔
      ∃ around, target = around ++ [name] ∧ file.Sees path name around kind := by
  have hhead := Link.head?_ne_dot hname
  have hdeclared : ∀ around, around <+: path →
      (Link.qualify (Link.fullName file.root around) name ∈ file.typeNames ↔
        ∃ kind, file.Declares (around ++ [name]) kind) := fun around hwithin =>
    qualify_mem_typeNames hfile (fun part hpart => hpath part (hwithin.subset hpart)) hname
  constructor
  · intro heq
    -- a full name that the lookup gives is the one of the target
    have htarget_eq : ∀ around, around <+: path →
        file.lookUp path name = Link.qualify (Link.fullName file.root around) name →
        target = around ++ [name] := by
      intro around hwithin hresolve
      rw [heq, ← Link.fullName_append] at hresolve
      refine Link.fullName_injective (hfile target kind htarget) (fun part hpart => ?_) hresolve
      rcases List.mem_append.mp hpart with hpart | hpart
      · exact hpath part (hwithin.subset hpart)
      · exact List.mem_singleton.mp hpart ▸ hname
    rcases Link.resolve_fullName file.typeNames file.root hpath hhead with
      ⟨around, haround, hresolve⟩ | ⟨hnone, hresolve⟩
    · have hsame := htarget_eq around haround.encloses hresolve
      refine ⟨around, hsame, haround.encloses, hsame ▸ htarget, ?_⟩
      intro inner hinner hwithin hne other hother
      exact haround.innermost inner hinner hwithin hne
        ((hdeclared inner hwithin).mpr ⟨other, hother⟩)
    · by_cases hroot : Link.qualify file.root name ∈ file.typeNames
      · have hsame := htarget_eq [] List.nil_prefix
          (hresolve.trans (Link.resolve_of_mem hhead hroot))
        refine ⟨[], hsame, List.nil_prefix, hsame ▸ htarget, ?_⟩
        intro inner _ hwithin hne other hother
        exact hnone inner hne hwithin ((hdeclared inner hwithin).mpr ⟨other, hother⟩)
      · -- then nothing declared is found
        have hmem : Link.fullName file.root target ∈ file.typeNames :=
          mem_typeNames.mpr ⟨target, kind, htarget, rfl⟩
        rw [← heq, lookUp, hresolve] at hmem
        refine absurd hmem (Link.resolve_root_not_mem hname (fun full hfull => ?_) hroot)
        obtain ⟨path, kind, hdeclares, rfl⟩ := mem_typeNames.mp hfull
        obtain ⟨around, part, rfl⟩ := hdeclares.exists_eq_append
        exact ⟨around, part, hfile _ kind hdeclares part (by simp), rfl⟩
  · rintro ⟨around, rfl, hsees⟩
    have hmem := (hdeclared around hsees.encloses).mpr ⟨kind, hsees.declares⟩
    rw [Link.fullName_append]
    rcases Link.resolve_fullName file.typeNames file.root hpath hhead with
      ⟨nearest, hnearest, hresolve⟩ | ⟨hnone, hresolve⟩
    · rw [lookUp, hresolve]
      -- two nearest messages would enclose one another, and the inner one would hide the outer one
      suffices hsame : nearest = around by rw [hsame]
      by_contra hne
      rcases List.prefix_or_prefix_of_prefix hnearest.encloses hsees.encloses with hout | hin
      · exact hnearest.innermost around hout hsees.encloses (Ne.symm hne) hmem
      · obtain ⟨other, hother⟩ := (hdeclared nearest hnearest.encloses).mp hnearest.declares
        exact hsees.innermost nearest hin hnearest.encloses hne other hother
    · have hroot : around = [] := by
        by_contra hne
        exact hnone around hne hsees.encloses hmem
      subst hroot
      rw [lookUp, hresolve]
      exact Link.resolve_of_mem hhead hmem

end FileDescriptor

end Protoscribe
