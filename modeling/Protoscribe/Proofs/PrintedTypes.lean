import Protoscribe.Printer
import Protoscribe.Proofs.Compile.Linked

/-!
# `Protoscribe.Proofs.PrintedTypes`: what a printed type name stands for

A compiled file has full names, and the printed source has names relative to the package. Read in
the source, such a name is looked up again from the message of its field outward. So it stands for
the type of the field exactly when no message around declares a type of the same relative path
(`Clear`), and a type of another file is printed as it is called there unless its name starts with
the package.
-/

set_option autoImplicit false

namespace Protoscribe

/-! ### Relative names -/

namespace Link

/-- The names of a path with dots between them. -/
def dotted : List String → String
  | [] => ""
  | first :: rest => fullName first rest

variable {root scope first : String} {rest target : List String}

/-- A name may be qualified from the inside or from the outside. -/
theorem qualify_qualify (scope inner name : String) :
    qualify (qualify scope inner) name = qualify scope (qualify inner name) := by
  simp only [qualify, String.append_assoc]

/-- A path may begin in the scope or one name further in. -/
theorem fullName_qualify (scope first : String) (rest : List String) :
    fullName (qualify scope first) rest = qualify scope (fullName first rest) := by
  induction rest using List.reverseRecOn with
  | nil => rfl
  | append_singleton rest name ih => rw [fullName_append, fullName_append, ih, qualify_qualify]

/-- Below a root, a full name is the root and the relative name. -/
theorem fullName_eq_qualify (root : String) (h : target ≠ []) :
    fullName root target = qualify root (dotted target) := by
  cases target with
  | nil => exact absurd rfl h
  | cons first rest => exact fullName_qualify root first rest

/-- A relative name has a dot in front when its path starts with a message without a name. -/
theorem head?_dotted (hpath : ∀ name ∈ target, '.' ∉ name.toList) :
    (dotted target).toList.head? = some '.' ↔ target.head? = some "" ∧ target.length ≠ 1 := by
  cases target with
  | nil => simp [dotted]
  | cons first rest =>
    have hfirst : '.' ∉ first.toList := hpath first (List.mem_cons_self ..)
    cases rest with
    | nil => simpa [dotted, fullName] using head?_ne_dot hfirst
    | cons second rest =>
      have hlist : (dotted (first :: second :: rest)).toList =
          first.toList ++ '.' :: (fullName second rest).toList := by
        rw [show dotted (first :: second :: rest) = fullName (qualify first second) rest from rfl,
          fullName_qualify, toList_qualify]
      rw [hlist]
      cases hchars : first.toList with
      | nil => simp [String.toList_eq_nil_iff.mp hchars]
      | cons c chars =>
        have hc : c ≠ '.' := fun heq => hfirst (by simp [hchars, heq])
        have hne : first ≠ "" := fun heq => by simp [heq] at hchars
        simp [hc, hne]

end Link

namespace Printer

open Link (fullName qualify dotted)

variable {package text : String}

/-- In a package, names start with a dot, the package and a dot. -/
theorem toList_packageStart (h : package ≠ "") :
    (packageStart package).toList = '.' :: package.toList ++ ['.'] := by
  rw [packageStart, if_neg (by simpa [String.isEmpty_iff] using h)]
  simp

/-- A type of the package is printed relative to the package. -/
theorem relative_qualify (h : package ≠ "") (text : String) :
    relative package (qualify ("." ++ package) text) = text := by
  have hprefix : List.isPrefixOf? (packageStart package).toList
      (qualify ("." ++ package) text).toList = some text.toList := by
    rw [List.isPrefixOf?_eq_some_iff_append_eq, toList_packageStart h, Link.toList_qualify]
    simp
  rw [relative, hprefix]
  exact String.ofList_toList

/-- A type whose name does not start with the package loses only the dot in front. -/
theorem relative_of_not_prefix
    (h : ¬ (packageStart package).toList <+: ("." ++ text).toList) :
    relative package ("." ++ text) = text := by
  have hnone : List.isPrefixOf? (packageStart package).toList ("." ++ text).toList = none := by
    cases hrest : List.isPrefixOf? (packageStart package).toList ("." ++ text).toList with
    | none => rfl
    | some rest => exact absurd ⟨rest, List.isPrefixOf?_eq_some_iff_append_eq.mp hrest⟩ h
  rw [relative, hnone, show ("." ++ text).toList = '.' :: text.toList by simp]
  exact String.ofList_toList

/-- A type whose name starts with the package loses more than the dot. -/
theorem length_relative_lt (hpackage : package ≠ "")
    (h : (packageStart package).toList <+: text.toList) :
    1 + (relative package text).length < text.length := by
  obtain ⟨rest, hrest⟩ := h
  have hlength : 0 < package.length := by
    rw [Nat.pos_iff_ne_zero, Ne, ← String.length_toList, List.length_eq_zero_iff,
      String.toList_eq_nil_iff]
    exact hpackage
  rw [relative, List.isPrefixOf?_eq_some_iff_append_eq.mpr hrest]
  show 1 + (String.ofList rest).length < text.length
  rw [String.length_ofList, ← @String.length_toList text, ← hrest, toList_packageStart hpackage]
  simp only [List.length_append, List.length_cons, List.length_nil, String.length_toList]
  omega

end Printer

/-! ### Reading printed names -/

namespace FileDescriptor

variable {file : FileDescriptor} {package : String} {path target : List String} {kind : TypeKind}

/-- Seen from a path, nothing comes in front of a type in the lookup of its relative name: no
message around declares another type there, and the name does not start with a dot. -/
structure Clear (file : FileDescriptor) (path target : List String) : Prop where
  named : target.head? = some "" → target.length = 1
  unrepeated : ∀ inner, inner ≠ [] → inner <+: path → ∀ kind, ¬ file.Declares (inner ++ target) kind

/-- A name with a dot in front is absolute already. -/
theorem lookUp_of_head? {name : String} (h : name.toList.head? = some '.') :
    file.lookUp path name = name := by
  rw [lookUp, Link.resolve, if_pos h]

/-- The relative name of a declared type is looked up to the type exactly when the way to it is
clear. -/
theorem lookUp_dotted_iff (hfile : file.DotFree) (hpath : ∀ part ∈ path, '.' ∉ part.toList)
    (htarget : file.Declares target kind) :
    file.lookUp path (Link.dotted target) = Link.fullName file.root target ↔
      file.Clear path target := by
  have hparts := hfile target kind htarget
  have hne : target ≠ [] := by
    obtain ⟨around, name, rfl⟩ := htarget.exists_eq_append
    simp
  have hfull : Link.fullName file.root target = Link.qualify file.root (Link.dotted target) :=
    Link.fullName_eq_qualify _ hne
  by_cases hdot : (Link.dotted target).toList.head? = some '.'
  · -- the name counts as absolute, and it is shorter than the full name
    rw [lookUp_of_head? hdot]
    constructor
    · intro hsame
      have hlength := congrArg String.length (hsame.trans hfull)
      rw [Link.length_qualify] at hlength
      omega
    · intro hclear
      obtain ⟨hempty, hlong⟩ := (Link.head?_dotted hparts).mp hdot
      exact absurd (hclear.named hempty) hlong
  · -- the candidates of the lookup are the paths with a prefix of the scope in front
    have hknown : ∀ inner, inner <+: path →
        (Link.qualify (Link.fullName file.root inner) (Link.dotted target) ∈ file.typeNames ↔
          ∃ kind, file.Declares (inner ++ target) kind) := by
      intro inner hwithin
      have hall : ∀ part ∈ inner ++ target, '.' ∉ part.toList := by
        intro part hpart
        rcases List.mem_append.mp hpart with hpart | hpart
        · exact hpath part (hwithin.subset hpart)
        · exact hparts part hpart
      rw [← Link.fullName_eq_qualify _ hne, Link.fullName, Link.fullName, ← List.foldl_append,
        mem_typeNames]
      constructor
      · rintro ⟨other, kind, hdeclares, heq⟩
        have hsame := Link.fullName_injective hall (hfile other kind hdeclares) heq
        exact ⟨kind, hsame ▸ hdeclares⟩
      · rintro ⟨kind, hdeclares⟩
        exact ⟨_, kind, hdeclares, rfl⟩
    have hroot : Link.qualify file.root (Link.dotted target) ∈ file.typeNames :=
      (hknown [] List.nil_prefix).mpr ⟨kind, htarget⟩
    rw [lookUp, hfull, Link.resolve_fullName_eq_iff hpath hdot hroot]
    constructor
    · intro hfree
      refine ⟨fun hempty => ?_, fun inner hinner hwithin kind hdeclares => ?_⟩
      · by_contra hlong
        exact hdot ((Link.head?_dotted hparts).mpr ⟨hempty, hlong⟩)
      · exact hfree inner hinner hwithin ((hknown inner hwithin).mpr ⟨kind, hdeclares⟩)
    · intro hclear inner hinner hwithin hmem
      obtain ⟨kind, hdeclares⟩ := (hknown inner hwithin).mp hmem
      exact hclear.unrepeated inner hinner hwithin kind hdeclares

/-- A name that stands for no type of the file is printed such that it stands for the same again,
unless it starts with the package. -/
theorem lookUp_relative_iff_of_not_mem {name : String} (hpackage : package ≠ "")
    (hname : name.toList.head? ≠ some '.') (hforeign : file.lookUp path name ∉ file.typeNames) :
    file.lookUp path (Printer.relative package (file.lookUp path name)) = file.lookUp path name ↔
      ¬ (Printer.packageStart package).toList <+: (file.lookUp path name).toList := by
  have habsolute : file.lookUp path name = "." ++ name :=
    (file.lookUp_mem_or path hname).resolve_left hforeign
  constructor
  · intro hsame hprefix
    -- then the printed name is too short to be looked up to the name again
    have hshorter := Printer.length_relative_lt hpackage hprefix
    generalize Printer.relative package (file.lookUp path name) = text at hsame hshorter
    by_cases hdot : text.toList.head? = some '.'
    · rw [lookUp_of_head? hdot] at hsame
      rw [hsame] at hshorter
      omega
    · rcases file.lookUp_mem_or path hdot with hmem | hmem
      · exact hforeign (hsame ▸ hmem)
      · rw [← hsame, hmem, String.length_append, show ".".length = 1 from rfl] at hshorter
        omega
  · intro hprefix
    rw [habsolute] at hprefix
    rw [habsolute, Printer.relative_of_not_prefix hprefix, habsolute]

/-- The type of a field or a method as the source has it: `type` is its full name, `text` is what is
printed for it, and `path` leads to the message that the text is read from. -/
inductive Prints (file : FileDescriptor) : List String → Option String → String → Prop
  | field {path : List String} {message : MessageDescriptor} {field : FieldDescriptor}
      {kind : TypeKind} (hplaced : (path, message) ∈ file.placed) (hfield : field ∈ message.fields)
      (htype : field.type = some kind.fieldType.code) :
      file.Prints path field.typeName (Printer.typeText (file.package.getD "") field)
  | input {method : MethodDescriptor}
      (hmethod : ∃ service ∈ file.services, method ∈ service.methods) :
      file.Prints [] method.inputType
        (Printer.relative (file.package.getD "") (method.inputType.getD ""))
  | output {method : MethodDescriptor}
      (hmethod : ∃ service ∈ file.services, method ∈ service.methods) :
      file.Prints [] method.outputType
        (Printer.relative (file.package.getD "") (method.outputType.getD ""))

/-- Seen from a path, the full name of a type is not lost in print: the way to a type of the file is
clear, and a type of another file does not start with the package. -/
structure Recovers (file : FileDescriptor) (path : List String) (type : String) : Prop where
  own : ∀ target kind, file.Declares target kind → type = Link.fullName file.root target →
    file.Clear path target
  foreign : type ∉ file.typeNames →
    ¬ (Printer.packageStart (file.package.getD "")).toList <+: type.toList

end FileDescriptor

/-- Fields of messages and enums are printed with the relative names of their types. -/
theorem Printer.typeText_eq_relative {field : FieldDescriptor} {kind : TypeKind}
    (htype : field.type = some kind.fieldType.code) (package : String) :
    typeText package field = relative package (field.typeName.getD "") := by
  have hnamed : field.effectiveType.isNamed = true := by
    rw [FieldDescriptor.effectiveType, htype]
    cases kind <;> rfl
  rw [typeText, if_pos hnamed]

namespace Compile

open OpenApi (Document)

variable {job : Job} {s : State} {path : List String} {kind : TypeKind} {name text : String}

namespace Outcome

/-- The file has the package that the description and the configuration give. -/
theorem package_build (h : Outcome job s) :
    s.file.build.package.getD "" = packageFor job.document job.config := by
  have hpackage : s.file.package.isEmpty = false := by
    simpa [h.package, String.isEmpty_iff] using packageFor_ne_empty job.document job.config
  show (if s.file.package.isEmpty then none else some s.file.package).getD "" = _
  rw [hpackage]
  exact h.package

/-- What is printed belongs to a reference of the draft. -/
theorem exists_refers_of_prints (h : Outcome job s) (hnone : job.config.additionalMessages = [])
    {type : Option String} (hprints : s.file.build.Prints path type text) :
    ∃ kind name, s.file.Refers path kind name ∧ type = some (s.file.build.lookUp path name) ∧
      text = Printer.relative (packageFor job.document job.config)
        (s.file.build.lookUp path name) := by
  cases hprints with
  | @field _ _ field kind hplaced hfield htype =>
    obtain ⟨name, hrefers, hname⟩ := FileDraft.exists_refers_of_field (h.not_finished hnone)
      (fun _ _ hplaced _ => h.typeName_ne_none hplaced) hplaced hfield htype
    refine ⟨kind, name, hrefers, hname, ?_⟩
    rw [Printer.typeText_eq_relative htype, hname, h.package_build]
    rfl
  | input hmethod =>
    obtain ⟨service, hservice, drafted, hdrafted, rfl⟩ := FileDraft.mem_methods_build.mp hmethod
    refine ⟨.message, _, .input hservice hdrafted, rfl, ?_⟩
    rw [h.package_build]
    rfl
  | output hmethod =>
    obtain ⟨service, hservice, drafted, hdrafted, rfl⟩ := FileDraft.mem_methods_build.mp hmethod
    refine ⟨.message, _, .output hservice hdrafted, rfl, ?_⟩
    rw [h.package_build]
    rfl

/-- No name in a reference is absolute. -/
theorem head?_ne_dot_of_refers (h : Outcome job s) (hnone : job.config.additionalMessages = [])
    (hrefers : s.file.Refers path kind name) : name.toList.head? ≠ some '.' := by
  rcases h.wellKnown_or_plain hnone hrefers with hknown | hplain
  · exact head?_of_mem_wellKnownNames name hknown
  · exact Link.head?_ne_dot hplain.dot_not_mem

/-- A printed reference stands for the same type exactly when the type is not lost in print. -/
theorem lookUp_relative_iff (h : Outcome job s) (hnone : job.config.additionalMessages = [])
    (hrefers : s.file.Refers path kind name) :
    s.file.build.lookUp path (Printer.relative (packageFor job.document job.config)
        (s.file.build.lookUp path name)) = s.file.build.lookUp path name ↔
      s.file.build.Recovers path (s.file.build.lookUp path name) := by
  have hpackage := packageFor_ne_empty job.document job.config
  -- a type of the file loses the package in front, any other name only if it begins alike
  by_cases hmem : s.file.build.lookUp path name ∈ s.file.build.typeNames
  · obtain ⟨target, declared, hdeclares, heq⟩ := FileDescriptor.mem_typeNames.mp hmem
    have hpath : ∀ part ∈ path, '.' ∉ part.toList := fun part hpart =>
      (h.plain_path_of_refers hrefers part hpart).dot_not_mem
    have hne : target ≠ [] := by
      obtain ⟨around, part, rfl⟩ := hdeclares.exists_eq_append
      simp
    have htext : Printer.relative (packageFor job.document job.config)
        (Link.fullName s.file.build.root target) = Link.dotted target := by
      rw [Link.fullName_eq_qualify _ hne, h.root_eq, Printer.relative_qualify hpackage]
    rw [heq, htext, FileDescriptor.lookUp_dotted_iff (h.dotFree hnone) hpath hdeclares]
    constructor
    · intro hclear
      refine ⟨fun other kind hother hsame => ?_, fun hforeign => absurd (heq ▸ hmem) hforeign⟩
      rwa [← Link.fullName_injective (h.dotFree hnone _ _ hdeclares)
        (h.dotFree hnone _ _ hother) hsame]
    · exact fun hrecovers => hrecovers.own target declared hdeclares rfl
  · rw [FileDescriptor.lookUp_relative_iff_of_not_mem hpackage
      (h.head?_ne_dot_of_refers hnone hrefers) hmem, ← h.package_build]
    constructor
    · intro hprefix
      refine ⟨fun target kind hdeclares hsame => ?_, fun _ => hprefix⟩
      exact absurd (FileDescriptor.mem_typeNames.mpr ⟨target, kind, hdeclares, hsame⟩) hmem
    · exact fun hrecovers => hrecovers.foreign hmem

end Outcome

/-- The printed names of types stand for the types of the compiled file exactly when none of them is
lost in print. -/
theorem printed_types_iff {document : Document} {config : Config} {out : Output}
    (hnone : config.additionalMessages = []) (h : compile document config = .ok out) :
    (∀ path type text, out.file.Prints path type text →
      some (out.file.lookUp path text) = type) ↔
    ∀ path type text, out.file.Prints path (some type) text → out.file.Recovers path type := by
  obtain ⟨s, -, hs, hfile⟩ := compile_eq_ok h
  rw [hfile]
  constructor
  · intro hread path type text hprints
    obtain ⟨kind, name, hrefers, htype, htext⟩ := hs.exists_refers_of_prints hnone hprints
    have hsame := Option.some_inj.mp (hread path _ text hprints)
    rw [Option.some_inj.mp htype, htext] at hsame
    rw [Option.some_inj.mp htype]
    exact (hs.lookUp_relative_iff hnone hrefers).mp hsame
  · intro hrecovers path type text hprints
    obtain ⟨kind, name, hrefers, rfl, rfl⟩ := hs.exists_refers_of_prints hnone hprints
    exact congrArg some
      ((hs.lookUp_relative_iff hnone hrefers).mpr (hrecovers path _ _ hprints))

/-- An address with a street in it, and a component that is referred to. -/
def letterbox : Document :=
  descriptionOf
    [("Letterbox",
        objectNode [("street", objectNode [("name", textNode)]),
          ("town", .ref "#/components/schemas/Town")]),
     ("Town", objectNode [("name", textNode)])]

/-- The printed names of the letterbox stand for its types exactly when none is lost in print. -/
theorem printed_types_iff_letterbox :
    ∃ out, compile letterbox {} = .ok out ∧
      ((∀ path type text, out.file.Prints path type text →
        some (out.file.lookUp path text) = type) ↔
      ∀ path type text, out.file.Prints path (some type) text → out.file.Recovers path type) := by
  have hcompiles : compilesTo letterbox {} (fun _ => true) = true := by decide +kernel
  obtain ⟨out, -, hout, -⟩ := exists_of_compilesTo hcompiles
  exact ⟨out, hout, printed_types_iff rfl hout⟩

/-- An object in an object of the same title, and under both an object of one other title. -/
def repeatedTitles : Document :=
  descriptionOf
    [("K", objectNode
       [("a", objectNode [("b", objectNode [("x", textNode)] (some "B"))] (some "A")),
        ("b", objectNode [("y", textNode)] (some "B"))] (some "A"))]

/-- The type of the outer field is printed like a type that the inner object declares, and it stands
for that one. -/
theorem repeatedTitles_lost_in_print :
    ∃ out, compile repeatedTitles {} = .ok out ∧
      out.file.Prints ["A"] (some ".openapi.A.B") "A.B" ∧
      out.file.lookUp ["A"] "A.B" = ".openapi.A.A.B" := by
  have hcompiles : compilesTo repeatedTitles {} (fun s =>
      s.file.build.package.getD "" == "openapi" &&
        s.file.build.lookUp ["A"] "A.B" == ".openapi.A.A.B" &&
        s.file.build.placed.any fun entry => entry.1 == ["A"] && entry.2.fields.any fun field =>
          field.type == some FieldType.message.code && field.typeName == some ".openapi.A.B" &&
            Printer.typeText "openapi" field == "A.B") = true := by
    decide +kernel
  obtain ⟨out, s, hout, hfile, -, hcheck⟩ := exists_of_compilesTo hcompiles
  simp only [Bool.and_eq_true, List.any_eq_true, beq_iff_eq] at hcheck
  obtain ⟨⟨hpackage, hlookUp⟩, ⟨_, message⟩, hplaced, rfl, field, hfield, ⟨htype, hname⟩, htext⟩ :=
    hcheck
  rw [← hfile] at hpackage hlookUp hplaced
  have hkind : field.type = some TypeKind.message.fieldType.code := htype
  have hprints : out.file.Prints ["A"] field.typeName
      (Printer.typeText (out.file.package.getD "") field) := .field hplaced hfield hkind
  rw [hpackage, hname, htext] at hprints
  exact ⟨out, hout, hprints, hlookUp⟩

end Compile

end Protoscribe
