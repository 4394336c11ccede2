import Protoscribe.Proofs.Compile.FreeName
import Protoscribe.Proofs.InlineTypes

/-!
# `Protoscribe.Proofs.RenamedTypes`: inline types under free names

An inline type that has the name of a component of the other kind is nested under another name. The
name is free in the message that takes the type in. But that message need not be the one that holds
the field in the end: the items of a list are taken into a wrapper, which then gives its types to
another message, and the variants of `allOf` give theirs to the message that absorbs them. There the
name is not looked at again.

A `Nesting` says which message took in the type of a field, and which types the message that holds
the field had been offered before the types of that message came. Every field for an inline schema
has one (`HasHistory.exists_nesting`). `renamed_types_kept_iff` says of a type under a free name
that it is kept exactly when none of the types that came before has its name and other content. So a
type is kept that the message of its field took in itself. One that moved may be lost to another one
under the same free name, as in the query whose two lists want an enum of one title
(`listedOrders_share_enum`).
-/

set_option autoImplicit false

namespace Protoscribe

namespace NestedType

/-- The type under another name. -/
def rename (type : NestedType) (name : String) : NestedType :=
  match type with
  | .message draft => .message { draft with name }
  | .enum draft => .enum { draft with name }

def isEnum : NestedType → Bool
  | .message _ => false
  | .enum _ => true

/-- A type that is renamed has its new name. -/
@[simp] theorem name_rename (type : NestedType) (name : String) :
    (type.rename name).name = name := by
  cases type <;> rfl

end NestedType

/-- What a compiled message becomes in another one, under its own name. -/
def MessageDraft.asNested (child : MessageDraft) : NestedType :=
  match child.carriedEnum? with
  | some enum => .enum enum
  | none => .message child

namespace Compile

open OpenApi (Document Schema)

/-! ### Free names -/

/-- The candidates from the first one on are all different. -/
theorem candidates_injective (text : String) :
    Function.Injective fun n : Nat => text ++ if n + 1 < 2 then "" else toString (n + 1) := by
  have hnonempty : ∀ n : Nat, toString n ≠ "" := by
    intro n h
    rw [Nat.toString_eq_ofList_toDigits, String.ofList_eq_empty_iff] at h
    exact Nat.toDigits_ne_nil h
  intro m n h
  have h := String.append_right_inj text |>.mp h
  split at h <;> split at h
  · omega
  · exact absurd h.symm (hnonempty _)
  · exact absurd h (hnonempty _)
  · have heq := toString_injective h
    omega

/-- A free name is found: no component, type of the file or type nested in the parent has it. -/
theorem freeTypeName_free (file : FileDraft) (parent : MessageDraft) (name suffix : String) :
    file.isReserved (freeTypeName file parent name suffix) = false ∧
      file.hasType (freeTypeName file parent name suffix) = false ∧
      parent.hasNestedType (freeTypeName file parent name suffix) = false := by
  let taken (candidate : String) : Bool :=
    file.isReserved candidate || file.hasType candidate || parent.hasNestedType candidate
  let candidate (n : Nat) : String := name ++ suffix ++ if n < 2 then "" else toString n
  let names : List String := file.reserved ++ file.takenTypes.keys ++ parent.takenTypes.keys
  have htaken : ∀ text, taken text = true ↔ text ∈ names := by
    intro text
    simp only [taken, names, Bool.or_eq_true, FileDraft.hasType, MessageDraft.hasNestedType,
      Registry.contains_iff_mem_keys, List.mem_append, FileDraft.isReserved,
      List.contains_iff_mem]
  have hlength : names.length =
      file.reserved.length + file.takenTypes.size + parent.takenTypes.size := by
    simp only [names, List.length_append, Registry.length_keys]
  -- there are more candidates than names that are taken
  obtain ⟨m, -, hlast, hnew⟩ :=
    exists_not_mem_numbered (candidates_injective (name ++ suffix)) names 0
  have hfree : taken (candidate (m + 1)) = false := by
    rw [Bool.eq_false_iff, ne_eq, htaken]
    exact hnew
  obtain ⟨found, -, heq, hfound, -⟩ : ∃ found, 1 ≤ found ∧
      freeTypeName file parent name suffix = candidate found ∧ taken (candidate found) = false ∧
      ∀ k, 1 ≤ k → k < found → taken (candidate k) = true :=
    firstFree_eq_of_free ⟨m + 1, by omega, by omega, hfree⟩
  rw [heq]
  simpa only [taken, Bool.or_eq_false_iff, and_assoc] using hfound

/-! ### Where the type of a field was nested -/

section

variable {job : Job} {facts : Facts}

/-- How the type of an inline field came to be offered to the message with the history: its schema
was compiled to `child`, which `parent` took in. Then the types of `parent` came to the message,
which had been offered `before`, if `parent` is not the message itself. -/
structure Nesting (job : Job) (facts : Facts) (history : History) (field : InlineField) where
  before : List NestedType
  parent : MessageDraft
  parentHistory : History
  hint : String
  child : MessageDraft
  later : List NestedType
  hasHistory : HasHistory job facts parent parentHistory
  compiled : Derives job facts (.schema hint field.schema) (some child)
  nested : NestedAs job facts parent child.asNested.name child.asNested.isEnum
    (some field.type.name)
  type : field.type = child.asNested.rename field.type.name
  offered : history.offered = before ++ parentHistory.offered ++ field.type :: later

namespace Nesting

variable {history outer : History} {field other : InlineField}

/-- The nesting in a message that is offered the same types and others around them. -/
def within (nesting : Nesting job facts history field) (earlier rest : List NestedType)
    (hoffered : outer.offered = earlier ++ history.offered ++ rest)
    (hschema : other.schema = field.schema) (htype : other.type = field.type) :
    Nesting job facts outer other where
  before := earlier ++ nesting.before
  parent := nesting.parent
  parentHistory := nesting.parentHistory
  hint := nesting.hint
  child := nesting.child
  later := nesting.later ++ rest
  hasHistory := nesting.hasHistory
  compiled := hschema ▸ nesting.compiled
  nested := htype ▸ nesting.nested
  type := htype ▸ nesting.type
  offered := by simp [hoffered, nesting.offered, htype]

end Nesting

/-- What a child brings along: nothing, what a wrapper holds, or its own type. -/
theorem Brings.cases {parent child : MessageDraft} {history brought : History} {schema : Schema}
    {fieldName : String} {result : MessageDraft × FieldDraft}
    (h : Brings job facts parent child history schema fieldName result brought) :
    brought = {} ∨ brought = history.rename fieldName ∨
      ∃ name, NestedAs job facts parent child.asNested.name child.asNested.isEnum (some name) ∧
        brought = .ofField fieldName schema (child.asNested.rename name) := by
  cases h with
  | @enum enum name hcarried hnested =>
    have hown : child.asNested = .enum enum := by rw [MessageDraft.asNested, hcarried]
    rw [hown]
    exact .inr (.inr ⟨name, hnested, rfl⟩)
  | enumComponent _ _ => exact .inl rfl
  | unwrapped _ => exact .inr (.inl rfl)
  | @message name hcarried hnested =>
    have hown : child.asNested = .message child := by rw [MessageDraft.asNested, hcarried]
    rw [hown]
    exact .inr (.inr ⟨name, hnested, rfl⟩)
  | component _ _ => exact .inl rfl

/-- The types of all fields for inline schemas were nested somewhere. -/
theorem HasHistory.exists_nesting {draft : MessageDraft} {history : History}
    (h : HasHistory job facts draft history) :
    ∀ field ∈ history.fields, Nonempty (Nesting job facts history field) := by
  induction h with
  | start _ _ _ => exact fun _ hfield => absurd hfield List.not_mem_nil
  | scalar _ _ => exact fun _ hfield => absurd hfield List.not_mem_nil
  | carrier _ => exact fun _ hfield => absurd hfield List.not_mem_nil
  | refer _ _ ih => exact ih
  | @taken parent child grown history childHistory brought slot schema _ _ hderives hbrings _
      hhistory _ ih ihchild =>
    intro field hfield
    rcases List.mem_append.mp hfield with hfield | hfield
    · -- what is offered now comes behind
      obtain ⟨nesting⟩ := ih field hfield
      exact ⟨nesting.within [] brought.offered rfl rfl rfl⟩
    · have hfield := (List.mem_filter.mp hfield).1
      rcases hbrings.cases with rfl | rfl | ⟨name, hnested, rfl⟩
      · cases hfield
      · -- the types of the wrapper move, behind those that the parent was offered
        obtain ⟨original, horiginal, rfl⟩ := List.mem_map.mp hfield
        obtain ⟨nesting⟩ := ihchild original horiginal
        exact ⟨nesting.within history.offered [] (List.append_nil _).symm rfl rfl⟩
      · cases List.mem_singleton.mp hfield
        exact ⟨{
          before := [], parent, parentHistory := history, hint := slot.hint job schema, child
          later := [], hasHistory := hhistory, compiled := hderives
          nested := by simpa using hnested
          type := by simp
          offered := rfl }⟩
  | @merge draft other history otherHistory _ _ ih ihother =>
    intro field hfield
    rcases List.mem_append.mp hfield with hfield | hfield
    · obtain ⟨nesting⟩ := ih field hfield
      exact ⟨nesting.within [] otherHistory.offered rfl rfl rfl⟩
    · obtain ⟨nesting⟩ := ihother field (List.mem_filter.mp hfield).1
      exact ⟨nesting.within history.offered [] (List.append_nil _).symm rfl rfl⟩
  | moveToFront _ _ ih => exact ih
  | renamed _ _ ih => exact ih
  | described _ _ ih => exact ih

/-! ### What becomes of types under free names -/

namespace Nesting

variable {history : History} {field : InlineField}

/-- The type got another name than its own. -/
def Renames (nesting : Nesting job facts history field) : Prop :=
  field.type.name ≠ nesting.child.asNested.name

/-- A component of the other kind stands for the type's own name. The free name is that one with the
kind and, if need be, a number behind it, and the message that takes the type in nests no other type
of the free name. -/
structure FreelyNamed (nesting : Nesting job facts history field) : Prop where
  component : ∃ result, StandsIn job facts nesting.child.asNested.name result ∧
    result.isEnum ≠ nesting.child.asNested.isEnum
  name : ∃ n : Nat, field.type.name = nesting.child.asNested.name ++
    (if nesting.child.asNested.isEnum then "Enum" else "Message") ++
      if n < 2 then "" else toString n
  free : nesting.parent.hasNestedType field.type.name = false

/-- Types are renamed for components of the other kind only. -/
theorem Renames.freelyNamed {nesting : Nesting job facts history field} (h : nesting.Renames) :
    nesting.FreelyNamed := by
  obtain ⟨name, hname⟩ : ∃ name, field.type.name = name := ⟨_, rfl⟩
  have hnested := nesting.nested
  rw [Renames, hname] at h
  rw [hname] at hnested
  cases hnested with
  | own => exact absurd rfl h
  | renamed file hstand hkind =>
    obtain ⟨n, hn⟩ := freeTypeName_eq file nesting.parent nesting.child.asNested.name
      (if nesting.child.asNested.isEnum then "Enum" else "Message")
    exact ⟨⟨_, hstand, hkind⟩, ⟨n, hname.trans hn⟩, hname ▸ (freeTypeName_free file _ _ _).2.2⟩

/-- A free name stands for a type that came before, or else for the type that got the name. -/
theorem Renames.firstNamed_offered {nesting : Nesting job facts history field}
    (h : nesting.Renames) :
    firstNamed history.offered field.type.name =
      (firstNamed nesting.before field.type.name).or (some field.type) := by
  -- the message that took the type in had not been offered one of the name
  have hparent : firstNamed nesting.parentHistory.offered field.type.name = none := by
    rw [← nesting.hasHistory.explains.first, nesting.hasHistory.inStep.firstNamed_eq_none_iff]
    exact h.freelyNamed.free
  have htype : firstNamed (field.type :: nesting.later) field.type.name = some field.type := by
    simp [firstNamed]
  rw [nesting.offered, firstNamed_append, firstNamed_append, hparent, htype, Option.or_none]

/-- What is said about a field with a type under a free name: why the type has that name, that the
compiled field names the type that its message nests under it, and that this is the type of its
schema unless a type of other content came before. -/
structure Served (nesting : Nesting job facts history field) (file : FileDescriptor)
    (path : List String) (draft : MessageDraft) : Prop extends nesting.FreelyNamed where
  leads : ∃ linked ∈ (file.linked path draft).fields, field.LeadsTo file path linked
  keeps_iff : file.Keeps path draft field.type ↔
    ∀ first, firstNamed nesting.before field.type.name = some first →
      first.content file path = field.type.content file path

end Nesting

end

variable {job : Job} {s : State}

/-- A field with a type under a free name is served in the compiled file, wherever its message
stands. -/
theorem Outcome.served (h : Outcome job s) {path : List String} {draft : MessageDraft}
    (hplaced : (path, draft) ∈ s.file.placed) {history : History}
    (hhistory : HasHistory job s.facts draft history) {field : InlineField}
    (hfield : field ∈ history.fields) {nesting : Nesting job s.facts history field}
    (hrenames : nesting.Renames) : nesting.Served s.file.build path draft := by
  have hserved := h.servedFrom hplaced hhistory hfield
  refine ⟨hrenames.freelyNamed, hserved.leads, ?_⟩
  rw [hserved.keeps_iff, hrenames.firstNamed_offered]
  cases firstNamed nesting.before field.type.name with
  | none => simp
  | some first => simp

/-- Each drafted message stands in the compiled file and has a history, and the type of each field
of the history was nested somewhere. If it got a free name there, then because of a component of the
other kind; the field names the type under the free name, and that is the type of its schema exactly
when no type of the name and of other content was offered to the message before the types of the
message that took it in. -/
theorem renamed_types_kept_iff {document : Document} {config : Config} {out : Output}
    (h : compile document config = .ok out) :
    ∃ s, compileDocument ⟨document, config⟩ { file := startFile document config } = .ok ⟨⟩ s ∧
      out.file = s.file.build ∧
      ∀ path draft, (path, draft) ∈ s.file.placed →
        (path, out.file.linked path draft) ∈ out.file.placed ∧
        (∃ history, HasHistory ⟨document, config⟩ s.facts draft history) ∧
        ∀ history, HasHistory ⟨document, config⟩ s.facts draft history →
          ∀ field ∈ history.fields,
            Nonempty (Nesting ⟨document, config⟩ s.facts history field) ∧
            ∀ nesting : Nesting ⟨document, config⟩ s.facts history field, nesting.Renames →
              nesting.Served out.file path draft := by
  obtain ⟨s, hrun, hs, hfile⟩ := compile_eq_ok h
  refine ⟨s, hrun, hfile, fun path draft hplaced => ?_⟩
  rw [hfile]
  refine ⟨FileDraft.linked_mem_placed hplaced,
    hs.of_mem_placed (hasHistory_stable _ s.facts) hplaced, fun history hhistory field hfield => ?_⟩
  exact ⟨hhistory.exists_nesting field hfield,
    fun nesting hrenames => hs.served hplaced hhistory hfield hrenames⟩

/-- An order and a message with an inline enum of that name. -/
def sortedOrders : Document :=
  descriptionOf
    [("Order", objectNode [("id", textNode)]),
     ("Query", objectNode
       [("sort", .inline { title := some "Order", shape := .enum [.text "asc"] })])]

/-- The query nests the enum under a free name, and what is nested in its place is said. -/
theorem renamed_types_kept_iff_sortedOrders :
    ∃ out, compile sortedOrders {} = .ok out ∧
      ∃ s, compileDocument ⟨sortedOrders, {}⟩ { file := startFile sortedOrders {} } = .ok ⟨⟩ s ∧
        out.file = s.file.build ∧
        (∃ draft, (["Query"], draft) ∈ s.file.placed ∧
          ∃ enum ∈ draft.enums, enum.name = "OrderEnum") ∧
        ∀ path draft, (path, draft) ∈ s.file.placed →
          (path, out.file.linked path draft) ∈ out.file.placed ∧
          (∃ history, HasHistory ⟨sortedOrders, {}⟩ s.facts draft history) ∧
          ∀ history, HasHistory ⟨sortedOrders, {}⟩ s.facts draft history →
            ∀ field ∈ history.fields,
              Nonempty (Nesting ⟨sortedOrders, {}⟩ s.facts history field) ∧
              ∀ nesting : Nesting ⟨sortedOrders, {}⟩ s.facts history field, nesting.Renames →
                nesting.Served out.file path draft := by
  have hcompiles : compilesTo sortedOrders {} (fun s =>
      s.file.placed.any fun entry => entry.1 == ["Query"] &&
        entry.2.enums.any fun enum => enum.name == "OrderEnum") = true := by
    decide +kernel
  obtain ⟨out, s, hout, -, hrun, hcheck⟩ := exists_of_compilesTo hcompiles
  simp only [List.any_eq_true, Bool.and_eq_true, beq_iff_eq] at hcheck
  obtain ⟨⟨_, draft⟩, hplaced, rfl, enum, henum, hname⟩ := hcheck
  obtain ⟨s', hrun', hfile, hserved⟩ := renamed_types_kept_iff hout
  obtain rfl : s' = s := by
    rw [hrun] at hrun'
    cases hrun'
    rfl
  exact ⟨out, hout, s', hrun, hfile, ⟨draft, hplaced, enum, henum, hname⟩, hserved⟩

/-- The items of the second list. -/
def descending : Schema :=
  { title := some "Order", shape := .enum [.text "desc"] }

/-- An order and a message with two lists of inline enums of that name. -/
def listedOrders : Document :=
  descriptionOf
    [("Order", objectNode [("id", textNode)]),
     ("Query", objectNode
       [("first", .inline { shape := .array (some (.inline
          { title := some "Order", shape := .enum [.text "asc"] })) }),
        ("second", .inline { shape := .array (some (.inline descending)) })])]

/-- Both lists of the query get the enum of the first one, although the warnings say that the enums
of both were renamed because of the message `Order`. -/
theorem listedOrders_share_enum :
    ∃ out s child enum t, compile listedOrders {} = .ok out ∧
      compileDocument ⟨listedOrders, {}⟩ { file := startFile listedOrders {} } = .ok ⟨⟩ s ∧
      out.file = s.file.build ∧
      s.schemas.lookup "Order" = some (.message "Order") ∧
      s.warnings =
        [.renamedType "components.schemas.Query.properties.first.items" "Order" "OrderEnum",
         .renamedType "components.schemas.Query.properties.second.items" "Order" "OrderEnum"] ∧
      (Job.engine ⟨listedOrders, {}⟩).schema "Order" descending
        { file := startFile listedOrders {} } = .ok (some child) t ∧
      child.carriedEnum? = some enum ∧ enum.name = "Order" ∧
      ∃ draft, (["Query"], draft) ∈ s.file.placed ∧
        (["Query"], out.file.linked ["Query"] draft) ∈ out.file.placed ∧
        (∃ linked ∈ (out.file.linked ["Query"] draft).fields,
          InlineField.LeadsTo ⟨"second", descending, .enum { enum with name := "OrderEnum" }⟩
            out.file ["Query"] linked) ∧
        ¬ out.file.Keeps ["Query"] draft (.enum { enum with name := "OrderEnum" }) := by
  have hcompiles : compilesTo listedOrders {} (fun s =>
      s.schemas.lookup "Order" == some (.message "Order") &&
      s.warnings ==
        [.renamedType "components.schemas.Query.properties.first.items" "Order" "OrderEnum",
         .renamedType "components.schemas.Query.properties.second.items" "Order" "OrderEnum"] &&
      schemaCompilesTo ⟨listedOrders, {}⟩ "Order" descending fun child =>
        child.carriedEnum?.any fun enum => enum.name == "Order" &&
          s.file.placed.any fun entry => entry.1 == ["Query"] &&
            (s.file.build.linked ["Query"] entry.2).fields.any (fun linked =>
              linked.name == some "second" && linked.type == some FieldType.enum.code &&
                linked.typeName ==
                  some (Link.fullName s.file.build.root ["Query", "OrderEnum"])) &&
            (s.file.build.linked ["Query"] entry.2).nestedContent? "OrderEnum" !=
              some (NestedType.content s.file.build ["Query"]
                (.enum { enum with name := "OrderEnum" }))) = true := by
    decide +kernel
  obtain ⟨out, s, hout, hfile, hrun, hcheck⟩ := exists_of_compilesTo hcompiles
  simp only [Bool.and_eq_true, beq_iff_eq] at hcheck
  obtain ⟨⟨hcomponent, hwarnings⟩, hcheck⟩ := hcheck
  unfold schemaCompilesTo at hcheck
  split at hcheck
  · next child t hschema =>
    simp only [Option.any_eq_true, Bool.and_eq_true, List.any_eq_true, beq_iff_eq,
      bne_iff_ne] at hcheck
    obtain ⟨enum, hcarried, hname, ⟨_, draft⟩, hplaced, ⟨rfl, linked, hlinked, ⟨hfield, htype⟩,
      htypeName⟩, hcontent⟩ := hcheck
    rw [← hfile] at hlinked htypeName hcontent
    have hmessage : (["Query"], out.file.linked ["Query"] draft) ∈ out.file.placed :=
      hfile ▸ FileDraft.linked_mem_placed hplaced
    exact ⟨out, s, child, enum, t, hout, hrun, hfile, hcomponent, hwarnings, hschema, hcarried,
      hname, draft, hplaced, hmessage, ⟨linked, hlinked, hfield, htype, htypeName⟩, hcontent⟩
  · cases hcheck

end Compile

end Protoscribe
