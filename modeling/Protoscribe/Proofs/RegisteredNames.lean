import Mathlib.Logic.Function.Iterate
import Protoscribe.Proofs.Compile.Faithful
import Protoscribe.Proofs.Compile.Filled

/-!
# `Protoscribe.Proofs.RegisteredNames`: the names that components are registered under

Before anything is compiled, the name of every component is registered: its key, normalized once.
An inline type with a registered name is told apart from the component. On the way to the type that
a component becomes, its name is normalized again, by every schema that it is handed to: by a map,
which hands it on to its values, and in the end by the schema that the type is made of. A reference
hands it on as it is. `Rounds` counts these schemas, and in a description without titles nothing
else goes into the name (`Derives.handsDown`).

So the components keep their registered names exactly when the rounds change nothing
(`registered_names_kept_iff`). They do change something when normalizing a name twice is not the
same as normalizing it once, and then two components may meet in one type
(`television_shares_type`).
-/

set_option autoImplicit false

namespace Protoscribe

namespace Compile

open OpenApi (Document Schema SchemaNode Section)

/-- No schema of the description has a title. -/
def Untitled (document : Document) : Prop :=
  ∀ schema, Stands document (.inline schema) → schema.title = none

/-! ### Rounds -/

/-- How many schemas a name is handed to, from a node to the schema that a type is made of. -/
inductive Rounds (document : Document) : SchemaNode → Nat → Prop
  | last {schema : Schema} (hshape : ∀ value, schema.shape ≠ .map value) :
      Rounds document (.inline schema) 1
  | map {schema : Schema} {value : SchemaNode} {rounds : Nat} (hshape : schema.shape = .map value)
      (h : Rounds document value rounds) : Rounds document (.inline schema) (rounds + 1)
  | reference {reference key : String} {target : SchemaNode} {rounds : Nat}
      (hkey : Section.schemas.key? reference = some key)
      (htarget : document.components.schemas.find? key = some target)
      (h : Rounds document target rounds) : Rounds document (.ref reference) rounds

/-- The rounds of a node are determined. -/
theorem Rounds.unique {document : Document} {node : SchemaNode} {rounds other : Nat}
    (h : Rounds document node rounds) (hother : Rounds document node other) : rounds = other := by
  induction h generalizing other with
  | last hshape =>
    cases hother with
    | last => rfl
    | map hmap => exact absurd hmap (hshape _)
  | map hshape _ ih =>
    cases hother with
    | last hnone => exact absurd hshape (hnone _)
    | map hmap h =>
      cases hshape.symm.trans hmap
      rw [ih h]
  | reference hkey htarget _ ih =>
    cases hother with
    | reference hkey' htarget' h =>
      cases hkey.symm.trans hkey'
      cases htarget.symm.trans htarget'
      exact ih h

/-! ### Names of messages -/

/-- The message has the name, and so has the enum when it carries one. -/
structure Bears (draft : MessageDraft) (name : String) : Prop where
  message : draft.name = name
  enum : ∀ enum, draft.carriedEnum? = some enum → enum.name = name

namespace Bears

variable {draft : MessageDraft} {name : String}

/-- A filled message bears its own name. -/
theorem of_filled (hname : draft.name = name) (h : Filled draft) : Bears draft name :=
  ⟨hname, by simp [h.carriedEnum?_eq_none]⟩

/-- Another order of its fields leaves a message its name. -/
theorem moveToFront (h : Bears draft name) (order : List String) :
    Bears (draft.moveToFront order) name where
  message := h.message
  enum enum hcarried := by
    obtain ⟨hfields, hnested⟩ := MessageDraft.carriedEnum?_eq_some_iff.mp hcarried
    rw [MessageDraft.fields_moveToFront_eq_nil_iff] at hfields
    exact h.enum enum (MessageDraft.carriedEnum?_eq_some_iff.mpr ⟨hfields, hnested⟩)

end Bears

section

variable {job : Job} {facts : Facts}

/-- What is put together from a message without nested types bears the name of that message. -/
theorem Derives.bears_start {task : Task} {start draft : MessageDraft}
    (h : Derives job facts task (some draft)) (hstart : task.start? = some start)
    (hstep : start.InStep) (hmessages : start.messages = []) (henums : start.enums = []) :
    Bears draft start.name := by
  refine .of_filled (h.name_eq start hstart draft rfl) ?_
  refine (h.filled (fun other hother => ?_) draft rfl).filled ?_
  · cases hstart.symm.trans hother
    exact ⟨hstep, .of_nil hmessages henums⟩
  · cases task <;> simp_all [Task.start?, Task.Builds]

/-- The node that is named when a task compiles one. -/
def Task.node? : Task → Option SchemaNode
  | .node _ compiled => some compiled
  | .schema _ content => some (.inline content)
  | .shape _ content => some (.inline content)
  | _ => none

/-- A message bears the name that a task compiles it under, after the rounds that are left. The name
of a shape has been through the round of its schema. -/
def Task.HandsDown (job : Job) (draft : MessageDraft) : Task → Prop
  | .node hint compiled =>
    ∃ rounds, Rounds job.document compiled rounds ∧ Bears draft (job.messageName^[rounds] hint)
  | .schema hint content =>
    ∃ rounds, Rounds job.document (.inline content) rounds ∧
      Bears draft (job.messageName^[rounds] hint)
  | .shape name content =>
    ∃ rounds, Rounds job.document (.inline content) (rounds + 1) ∧
      Bears draft (job.messageName^[rounds] name)
  | _ => True

/-- The schema of a shape that is no map is the last one. -/
theorem Task.handsDown_last {draft : MessageDraft} {name : String} {schema : Schema}
    (hshape : ∀ value, schema.shape ≠ .map value) (h : Bears draft name) :
    (Task.shape name schema).HandsDown job draft :=
  ⟨0, .last hshape, h⟩

/-- A schema without a title puts its name through one round. -/
theorem Task.HandsDown.of_shape {draft : MessageDraft} {hint : String} {schema : Schema}
    (htitle : schema.title = none)
    (h : (Task.shape (job.messageName (schema.title.getD hint)) schema).HandsDown job draft) :
    (Task.schema hint schema).HandsDown job draft := by
  obtain ⟨rounds, hrounds, hbears⟩ := h
  rw [htitle, Option.getD_none, ← Function.iterate_succ_apply] at hbears
  exact ⟨rounds + 1, hrounds, hbears⟩

/-- In a description without titles, a message bears the name that it is compiled under, after the
rounds that are left. -/
theorem Derives.handsDown {task : Task} {compiled : Option MessageDraft}
    (h : Derives job facts task compiled) (huntitled : Untitled job.document)
    (hstands : ∀ node ∈ task.node?, Stands job.document node) :
    ∀ draft ∈ compiled, task.HandsDown job draft := by
  -- by the rules for nodes, schemas and shapes; the other tasks only build on a given message
  induction h with
  | inline _ ih => exact ih hstands
  | expanded hkey htarget _ ih =>
    intro draft hdraft
    obtain ⟨rounds, hrounds, hbears⟩ :=
      ih (fun node hnode => by cases hnode; exact .component htarget) draft hdraft
    exact ⟨rounds, .reference hkey htarget hrounds, hbears⟩
  | unordered _ _ ih =>
    intro draft hdraft
    exact .of_shape (huntitled _ (hstands _ rfl)) (ih hstands draft hdraft)
  | ordered _ ih =>
    rintro _ ⟨⟩
    obtain ⟨rounds, hrounds, hbears⟩ :=
      Task.HandsDown.of_shape (huntitled _ (hstands _ rfl)) (ih hstands _ rfl)
    exact ⟨rounds, hrounds, hbears.moveToFront _⟩
  | @map _ schema value _ hshape _ ih =>
    intro draft hdraft
    have hpart : (Place.inPlace, value) ∈ parts schema.shape := by simp [parts, hshape]
    have hvalue : Stands job.document value := .part (hstands _ rfl) hpart
    obtain ⟨rounds, hrounds, hbears⟩ :=
      ih (fun node hnode => by cases hnode; exact hvalue) draft hdraft
    exact ⟨rounds, .map hshape hrounds, hbears⟩
  | enum hshape hrun =>
    rintro _ ⟨⟩
    obtain ⟨⟨enum, hname, rfl⟩, -⟩ := enumCarrier_eq_ok hrun
    refine Task.handsDown_last (by simp [hshape]) ⟨rfl, fun other hcarried => ?_⟩
    cases hcarried
    exact hname
  | union hshape h _ =>
    rintro draft ⟨⟩
    refine Task.handsDown_last (fun value => ?_)
      (h.bears_start rfl (unionStart_inStep _ _) rfl rfl)
    rcases hshape with hshape | hshape <;> simp [hshape]
  | combined hshape hmerged h _ _ =>
    rintro draft ⟨⟩
    refine Task.handsDown_last (by simp [hshape]) (.of_filled ?_ ?_)
    · exact (h.name_eq _ rfl _ rfl).trans (hmerged.name_eq _ rfl _ rfl)
    · refine (h.filled ?_ _ rfl).filled trivial
      rintro _ ⟨⟩
      refine ⟨hmerged.inStep (.of_some rfl (inStep_fresh _ _ _)) _ rfl, ?_⟩
      refine (hmerged.filled ?_ _ rfl).filled trivial
      rintro _ ⟨⟩
      exact ⟨inStep_fresh _ _ _, .of_nil rfl rfl⟩
  | scalar hshape =>
    rintro _ ⟨⟩
    refine Task.handsDown_last (fun value hmap => by simp [scalarType?, hmap] at hshape)
      (.of_filled ?_ (.addField (inStep_fresh _ _ _) _ (by simp)))
    simp [scalarWrapper]
  | list hshape h _
  | object hshape h _ =>
    rintro draft ⟨⟩
    exact Task.handsDown_last (by simp [hshape])
      (h.bears_start rfl (inStep_fresh _ _ _) rfl rfl)
  | bareList _ => simp
  | any _ => simp
  | _ => exact fun _ _ => trivial

end

/-! ### Components -/

/-- The name of the type that a component became. -/
def ComponentType.typeName? : ComponentType → Option String
  | .message name => some name
  | .enum name => some name
  | .nothing => none

/-- The name of the type that a schema component has become. -/
def State.typeName? (s : State) (key : String) : Option String :=
  (s.schemas.lookup key).bind ComponentType.typeName?

/-- A schema component is settled: it holds nothing, or it became a type. That type stands in the
file, under the registered name after the rounds of its node. -/
inductive Concluded (job : Job) (s : State) (key : String) (node : SchemaNode) : Prop
  | nothing {facts : Facts} {compiled : Option MessageDraft}
      (hderives : Derives job facts (.node (job.messageName key) node) compiled)
      (hempty : compiled.filter (!·.isEmpty) = none)
      (hresult : s.schemas.lookup key = some .nothing)
  | type {facts : Facts} {draft : MessageDraft} {name : String} {rounds : Nat}
      (hderives : Derives job facts (.node (job.messageName key) node) (some draft))
      (hempty : draft.isEmpty = false) (hrounds : Rounds job.document node rounds)
      (hname : name = job.messageName^[rounds] (job.messageName key))
      (hresult : s.typeName? key = some name) (htype : s.file.hasType name = true)

/-- The components keep their registered names. -/
structure KeepsNames (job : Job) (s : State) : Prop where
  /-- The names are registered. -/
  registered : ∀ key ∈ job.document.components.schemas.keys, job.messageName key ∈ s.file.reserved
  /-- A component that holds something is a type of the file under its registered name. -/
  emitted : ∀ key ∈ job.document.components.schemas.keys, s.schemas.lookup key = some .nothing ∨
    s.typeName? key = some (job.messageName key) ∧ s.file.hasType (job.messageName key) = true
  /-- Components with different registered names are different types. -/
  apart : ∀ key ∈ job.document.components.schemas.keys,
    ∀ other ∈ job.document.components.schemas.keys,
      job.messageName key ≠ job.messageName other →
        ∀ name, s.typeName? key = some name → s.typeName? other ≠ some name

section

variable {job : Job} {s : State} {key name : String} {node : SchemaNode}

/-- What a component became is what its node was compiled to. -/
theorem Justified.concluded (hs : Justified job s) (huntitled : Untitled job.document)
    (hnode : job.document.components.schemas.find? key = some node) {result : ComponentType}
    (hresult : s.schemas.lookup key = some result) : Concluded job s key node := by
  obtain ⟨before, after, hsplit⟩ := List.append_of_mem (Table.mem_of_lookup_eq_some hresult)
  obtain ⟨_, compiled, facts, hfound, -, -, hderives, hbecame⟩ :=
    hs.schemas before key result after hsplit
  cases hnode.symm.trans hfound
  have hstands : ∀ other ∈ (Task.node (job.messageName key) node).node?,
      Stands job.document other := by
    rintro _ ⟨⟩
    exact .component hnode
  -- the name is handed down to what is declared, and each round normalizes it
  have hname := hderives.handsDown huntitled hstands
  cases hbecame with
  | nothing hempty => exact .nothing hderives hempty hresult
  | @enum draft enum hempty hcarried htype =>
    obtain ⟨rounds, hrounds, hbears⟩ := hname draft rfl
    refine .type hderives hempty hrounds (hbears.enum enum hcarried) ?_ htype
    simp [State.typeName?, hresult, ComponentType.typeName?]
  | @message draft hempty _ htype =>
    obtain ⟨rounds, hrounds, hbears⟩ := hname draft rfl
    refine .type hderives hempty hrounds hbears.message ?_ htype
    simp [State.typeName?, hresult, ComponentType.typeName?]

/-- The name of the type that a component became, when it became one. -/
theorem Concluded.typeName?_eq (h : Concluded job s key node)
    (hsome : s.schemas.lookup key ≠ some .nothing) {rounds : Nat}
    (hrounds : Rounds job.document node rounds) :
    s.typeName? key = some (job.messageName^[rounds] (job.messageName key)) ∧
      s.file.hasType (job.messageName^[rounds] (job.messageName key)) = true := by
  cases h with
  | nothing _ _ hresult => exact absurd hresult hsome
  | type _ _ hrounds' hname hresult htype =>
    cases hrounds.unique hrounds'
    exact ⟨hname ▸ hresult, hname ▸ htype⟩

/-- A component that holds nothing has no type. -/
theorem State.typeName?_of_nothing (h : s.schemas.lookup key = some .nothing) :
    s.typeName? key = none := by
  simp [State.typeName?, h, ComponentType.typeName?]

/-- Where each component is a type under its registered name, different names mean different
types. -/
theorem KeepsNames.of_emitted
    (hregistered : ∀ key ∈ job.document.components.schemas.keys,
      job.messageName key ∈ s.file.reserved)
    (hemitted : ∀ key ∈ job.document.components.schemas.keys,
      s.schemas.lookup key = some .nothing ∨
        s.typeName? key = some (job.messageName key) ∧
          s.file.hasType (job.messageName key) = true) : KeepsNames job s where
  registered := hregistered
  emitted := hemitted
  apart key hkey other hother hdifferent name hname hsame := by
    have hown : ∀ key ∈ job.document.components.schemas.keys, s.typeName? key = some name →
        job.messageName key = name := by
      intro key hkey hname
      rcases hemitted key hkey with hnothing | ⟨hregistered, -⟩
      · rw [State.typeName?_of_nothing hnothing] at hname
        cases hname
      · exact Option.some.inj (hregistered.symm.trans hname)
    exact hdifferent ((hown key hkey hname).trans (hown other hother hsame).symm)

/-- Components keep their names when the rounds that are left do not change them. -/
theorem keepsNames_iff
    (hregistered : ∀ name ∈ job.componentNames, name ∈ s.file.reserved)
    (hconcluded : ∀ key node, job.document.components.schemas.find? key = some node →
      Concluded job s key node) :
    KeepsNames job s ↔
      ∀ key node rounds, job.document.components.schemas.find? key = some node →
        s.schemas.lookup key ≠ some .nothing → Rounds job.document node rounds →
          job.messageName^[rounds] (job.messageName key) = job.messageName key := by
  constructor
  · intro hkeeps key node rounds hnode hsome hrounds
    obtain ⟨hname, -⟩ :=
      (hkeeps.emitted key (Table.mem_keys_of_find?_eq_some hnode)).resolve_left hsome
    obtain ⟨hrounded, -⟩ := (hconcluded key node hnode).typeName?_eq hsome hrounds
    exact Option.some.inj (hrounded.symm.trans hname)
  · intro hstable
    refine .of_emitted (fun key hkey => ?_) fun key hkey => ?_
    · exact hregistered _ (List.mem_map_of_mem (List.mem_append_left _ hkey))
    · obtain ⟨⟨_, node⟩, hentry, rfl⟩ := List.mem_map.mp hkey
      have hnode := Table.find?_eq_some_iff.mpr hentry
      refine or_iff_not_imp_left.mpr fun hsome => ?_
      cases hconcluded _ node hnode with
      | nothing _ _ hresult => exact absurd hresult hsome
      | type _ _ hrounds hname hresult htype =>
        rw [hstable _ node _ hnode hsome hrounds] at hname
        exact hname ▸ ⟨hresult, htype⟩

end

/-- In a description without titles, every component that holds something becomes a type of the file
under its registered name after the rounds of its node. So the components keep their registered
names exactly when these rounds leave the names as they are, and in particular when normalizing a
registered name once more does. -/
theorem registered_names_kept_iff {document : Document} {config : Config} {s : State}
    (huntitled : Untitled document)
    (h : declareComponents ⟨document, config⟩ { file := startFile document config } = .ok ⟨⟩ s) :
    let job : Job := ⟨document, config⟩
    (∀ key node, document.components.schemas.find? key = some node → Concluded job s key node) ∧
      (KeepsNames job s ↔
        ∀ key node rounds, document.components.schemas.find? key = some node →
          s.schemas.lookup key ≠ some .nothing → Rounds document node rounds →
            job.messageName^[rounds] (job.messageName key) = job.messageName key) ∧
      ((∀ key ∈ document.components.schemas.keys,
        job.messageName (job.messageName key) = job.messageName key) → KeepsNames job s) := by
  intro job
  obtain ⟨_, hgrown, hschemas, -⟩ := declareComponents_sound h (justified_start job)
  have hconcluded : ∀ key node, document.components.schemas.find? key = some node →
      Concluded job s key node := by
    intro key node hnode
    obtain ⟨result, hresult⟩ := hschemas key (Table.mem_keys_of_find?_eq_some hnode)
    exact hgrown.justified.concluded huntitled hnode hresult
  have hiff := keepsNames_iff (declareComponents_reserved h (justified_start job)) hconcluded
  refine ⟨hconcluded, hiff, fun hstable => hiff.mpr ?_⟩
  intro key node rounds hnode _ _
  exact Function.iterate_fixed (hstable key (Table.mem_keys_of_find?_eq_some hnode)) rounds

/-! ### Kept and lost names -/

/-- No schema in the node has a title. -/
inductive UntitledNode : SchemaNode → Prop
  | ref {reference : String} : UntitledNode (.ref reference)
  | inline {schema : Schema} (htitle : schema.title = none)
      (hparts : ∀ part ∈ parts schema.shape, UntitledNode part.2) : UntitledNode (.inline schema)

/-- A text has no title. -/
theorem UntitledNode.text : UntitledNode textNode :=
  .inline rfl (by simp [parts])

/-- An object has no title if its properties have none. -/
theorem UntitledNode.object {properties : List (String × SchemaNode)}
    (h : ∀ property ∈ properties, UntitledNode property.2) :
    UntitledNode (objectNode properties) := by
  refine .inline rfl fun part hpart => ?_
  obtain ⟨property, hproperty, rfl⟩ := List.mem_map.mp hpart
  exact h property hproperty

/-- In a description of schema components only, all schemas stand in the components. -/
theorem untitled_descriptionOf {schemas : List (String × SchemaNode)}
    (h : ∀ entry ∈ schemas, UntitledNode entry.2) : Untitled (descriptionOf schemas) := by
  have hnodes : ∀ node, Stands (descriptionOf schemas) node → UntitledNode node := by
    intro node hstands
    induction hstands with
    | component hfound =>
      exact h _ (Table.mem_of_mem_ofList (Table.find?_eq_some_iff.mp hfound))
    | parameter hparameter => cases hparameter
    | body hbody => cases hbody
    | response hresponse => cases hresponse
    | part _ hpart ih =>
      cases ih with
      | inline _ hparts => exact hparts _ hpart
  intro schema hstands
  cases hnodes _ hstands with
  | inline htitle _ => exact htitle

/-- A shelf that maps places to books. -/
def bookcase : Document :=
  descriptionOf
    [("Book", objectNode [("author", textNode)]),
      ("Shelf", .inline { shape := .map (.ref "#/components/schemas/Book") })]

/-- The shelf keeps its name, although it takes two rounds to the message. -/
theorem registered_names_kept_iff_bookcase :
    let job : Job := ⟨bookcase, {}⟩
    ∃ s, Untitled bookcase ∧
      declareComponents job { file := startFile bookcase {} } = .ok ⟨⟩ s ∧
      Rounds bookcase (.inline { shape := .map (.ref "#/components/schemas/Book") }) 2 ∧
      s.typeName? "Shelf" = some "Shelf" ∧ KeepsNames job s := by
  intro job
  have huntitled : Untitled bookcase := by
    refine untitled_descriptionOf fun entry hentry => ?_
    simp only [List.mem_cons, List.not_mem_nil, or_false] at hentry
    rcases hentry with rfl | rfl
    · exact .object (by simp [UntitledNode.text])
    · exact .inline rfl (by simp [parts, UntitledNode.ref])
  have hruns : succeedsWith (declareComponents job) { file := startFile bookcase {} }
      (fun _ s => s.typeName? "Shelf" == some "Shelf") = true := by
    decide +kernel
  obtain ⟨_, s, hrun, hname⟩ := exists_of_succeedsWith hruns
  have hstable : ∀ key ∈ bookcase.components.schemas.keys,
      job.messageName (job.messageName key) = job.messageName key := by
    decide +kernel
  have hkey : Section.schemas.key? "#/components/schemas/Book" = some "Book" := by
    decide +kernel
  have hbook : bookcase.components.schemas.find? "Book" =
      some (objectNode [("author", textNode)]) := rfl
  have hrounds : Rounds bookcase (.inline { shape := .map (.ref "#/components/schemas/Book") }) 2 :=
    .map rfl (.reference hkey hbook (.last (by simp)))
  exact ⟨s, huntitled, hrun, hrounds, eq_of_beq hname,
    (registered_names_kept_iff huntitled hrun).2.2 hstable⟩

/-- A component whose words are single letters, and one that it is taken for. -/
def television : Document :=
  descriptionOf
    [("t_v", objectNode [("channel", textNode)]), ("tv", objectNode [("brand", textNode)])]

/-- `TV` is registered, and `Tv` is emitted. That is the name of the other component, whose fields
never come into the file. -/
theorem television_shares_type :
    let job : Job := ⟨television, {}⟩
    ∃ s, Untitled television ∧
      declareComponents job { file := startFile television {} } = .ok ⟨⟩ s ∧
      job.messageName "t_v" = "TV" ∧ job.messageName "tv" = "Tv" ∧
      s.typeName? "t_v" = some "Tv" ∧ s.typeName? "tv" = some "Tv" ∧
      s.file.typeNames = ["Tv"] ∧ ¬ KeepsNames job s := by
  intro job
  have huntitled : Untitled television := by
    refine untitled_descriptionOf fun entry hentry => ?_
    simp only [List.mem_cons, List.not_mem_nil, or_false] at hentry
    rcases hentry with rfl | rfl <;> exact .object (by simp [UntitledNode.text])
  have hruns : succeedsWith (declareComponents job) { file := startFile television {} }
      (fun _ s => job.messageName "t_v" == "TV" && job.messageName "tv" == "Tv" &&
        s.typeName? "t_v" == some "Tv" && s.typeName? "tv" == some "Tv" &&
        s.file.typeNames == ["Tv"]) = true := by
    decide +kernel
  obtain ⟨_, s, hrun, hcheck⟩ := exists_of_succeedsWith hruns
  simp only [Bool.and_eq_true, beq_iff_eq] at hcheck
  obtain ⟨⟨⟨⟨hfirst, hsecond⟩, hname⟩, hother⟩, htypes⟩ := hcheck
  refine ⟨s, huntitled, hrun, hfirst, hsecond, hname, hother, htypes, fun hkeeps => ?_⟩
  refine hkeeps.apart "t_v" (by decide +kernel) "tv" (by decide +kernel) ?_ "Tv" hname hother
  rw [hfirst, hsecond]
  decide

end Compile

end Protoscribe
