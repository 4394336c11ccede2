import Mathlib
import Protoscribe.Compile.Compilation
import Protoscribe.OpenApi.Loading
import Protoscribe.Proofs.OpenApi.Moved
import Protoscribe.Proofs.OpenApi.Reached

/-!
# `Protoscribe.Proofs.MemberOrder`: which members of a JSON text may change their places

Most objects of a description may list their members in any order: those that are read as records or
as maps sorted by key. `Document.ofJson_of_moved` says that a text with moved members is read as the
same description. The properties of a schema and the responses of an operation are different. They
come in the order of the text, and members of the same name count one by one.
-/

set_option autoImplicit false

namespace Protoscribe.OpenApi

open Json (Written Cursor Result readText)
open Json.Result (bind_eq_ok map_eq_ok pure_eq_ok)

variable {role : Role} {text : String} {document : Document}

/-- A text with moved members is again the text of its parts. -/
theorem Moved.wellFormed {written moved : Written} (h : Moved role written moved)
    (hwritten : written.WellFormed) : moved.WellFormed := by
  -- well-formedness asks the members one by one, so their order does not matter
  induction h with
  | members _ _ hperm =>
    cases hwritten with
    | object hbefore hbehind hnil hnames hmembers =>
      refine .object hbefore hbehind ?_ ?_ ?_
      · intro hempty
        rw [hempty] at hperm
        exact hnil hperm.eq_nil
      · exact fun member hmember => hnames member (hperm.mem_iff.mpr hmember)
      · exact fun member hmember => hmembers member (hperm.mem_iff.mpr hmember)
  | member _ ih =>
    cases hwritten with
    | object hbefore hbehind _ hnames hmembers =>
      refine .object hbefore hbehind (by simp) ?_ ?_
      all_goals
        simp only [List.forall_mem_append, List.forall_mem_cons] at hnames hmembers ⊢
      · exact hnames
      · exact ⟨hmembers.1, ih hmembers.2.1, hmembers.2.2⟩
  | element _ ih =>
    cases hwritten with
    | list hbefore hbehind _ helements =>
      refine .list hbefore hbehind (by simp) ?_
      simp only [List.forall_mem_append, List.forall_mem_cons] at helements ⊢
      exact ⟨helements.1, ih helements.2.1, helements.2.2⟩

/-- A description is read of the whole tree of a text. -/
theorem Document.ofJson_eq_ok : Document.ofJson text = .ok document ↔
    ∃ tree, Json.ofText text = (tree, true) ∧
      Document.read (⟨128, tree⟩ : Cursor) = (.ok document : Result Document) := by
  -- errors are only told in other words
  have herror : Document.ofJson text = .ok document ↔
      readText Document.read text = .ok document := by
    rw [Document.ofJson]
    cases readText Document.read text with
    | error cause =>
      constructor <;> intro h <;> cases h
    | ok own =>
      constructor <;> intro h <;> cases h <;> rfl
  rw [herror, readText]
  cases Json.ofText text with
  | mk tree complete =>
    simp only [bind_eq_ok]
    constructor
    · rintro ⟨own, hread, hcomplete⟩
      split at hcomplete
      · next hall =>
        cases hcomplete
        exact ⟨tree, by rw [hall], hread⟩
      · cases hcomplete
    · rintro ⟨_, heq, hread⟩
      cases heq
      exact ⟨document, hread, rfl⟩

/-- A record that is read to its end does not break off. -/
theorem breaksOff_of_record {α : Type} {title : String} {known : List (Member Cursor Result α)}
    {cursor : Cursor} {changes : List (α → α)}
    (h : Cursor.record title known cursor = .ok changes) : cursor.tree.breaksOff = false := by
  -- the brackets have to be closed for a record to be read
  have hclosed {ending : Option Json.Break} {made : List (α → α)}
      (h : (do Cursor.close ending; pure made) = (.ok changes : Result (List (α → α)))) :
      ending = none := by
    cases ending with
    | none => rfl
    | some place => cases h
  obtain ⟨room, tree⟩ := cursor
  cases tree with
  | object members ending =>
    obtain ⟨_, -, h⟩ := bind_eq_ok.mp h
    obtain ⟨_, -, h⟩ := bind_eq_ok.mp h
    rw [hclosed h]
    rfl
  | list elements ending =>
    obtain ⟨_, -, h⟩ := bind_eq_ok.mp h
    obtain ⟨_, -, h⟩ := bind_eq_ok.mp h
    rw [hclosed h]
    rfl
  | broken place => cases h
  | _ => rfl

/-- A text that is read as a description is the text of some parts. -/
theorem Document.exists_written (h : Document.ofJson text = .ok document) :
    ∃ written : Written, written.text = text ∧ written.WellFormed := by
  obtain ⟨tree, htree, hread⟩ := Document.ofJson_eq_ok.mp h
  obtain ⟨changes, hrecord, -⟩ := map_eq_ok.mp hread
  obtain ⟨written, htext, hwellFormed, -⟩ :=
    Written.exists_wellFormed htree (breaksOff_of_record hrecord)
  exact ⟨written, htext, hwellFormed⟩

/-- The text of some parts is read as their tree is. -/
theorem Document.ofJson_text_eq_ok {written : Written} (hwritten : written.WellFormed) :
    Document.ofJson written.text = .ok document ↔
      Document.read (⟨128, written.tree⟩ : Cursor) = (.ok document : Result Document) := by
  rw [Document.ofJson_eq_ok, hwritten.ofText_text]
  constructor
  · rintro ⟨_, heq, hread⟩
    cases heq
    exact hread
  · exact fun hread => ⟨_, rfl, hread⟩

/-- A text in which the members of one object are moved is read as the same description. -/
theorem Document.ofJson_of_moved {written moved : Written} (hwritten : written.WellFormed)
    (hmoved : Moved .document written moved) (h : Document.ofJson written.text = .ok document) :
    Document.ofJson moved.text = .ok document := by
  rw [Document.ofJson_text_eq_ok hwritten] at h
  rw [Document.ofJson_text_eq_ok (hmoved.wellFormed hwritten)]
  exact Document.keeps_read _ _ hmoved _ _ h

/-! ### What may move, and what may not -/

/-- Moving members does not change a description, and where order counts it is that of the text. For
every text that is read as a description, and the parts that the text consists of:

* the members of records and sorted maps, at any depth, may stand in any order: the text is read as
  the same description, which compiles to the same file or fails alike;
* every operation that counts in the text is read as an operation of the description, and the
  responses of this operation are read from the members of the object under `responses`, one from
  each and in the order of the text;
* every object that counts in the text is read as a schema of the description, and the properties of
  this schema are read in the same way from the object under `properties`;
* the description has no other responses, and no other properties at any depth. -/
theorem only_properties_and_responses_ordered (h : Document.ofJson text = .ok document) :
    (∃ written : Written, written.text = text ∧ written.WellFormed) ∧
    ∀ written : Written, written.WellFormed → written.text = text →
      (∀ moved, Relation.ReflTransGen (Moved .document) written moved →
        Document.ofJson moved.text = .ok document ∧
          ∀ config, (Document.ofJson moved.text).toOption.map (compile · config) =
            some (compile document config)) ∧
      (∀ part, Counts written .operation part → ∃ room, ∃ operation ∈ document.operations,
        Operation.read (⟨room, part.tree⟩ : Cursor) = (.ok operation : Result Operation) ∧
        Lists (node (m := Result) Response.ofValue?) (membersUnder .operation "responses" part)
          operation.responses) ∧
      (∀ part, Counts written .schema part → ¬ IsReference part → IsObject part →
        ∃ room schema properties, document.Holds (.inline schema) ∧
          Source.interpreted SchemaNode.ofValue? (⟨room, part.tree⟩ : Cursor) =
            (.ok (.inline schema) : Result SchemaNode) ∧
          schema.shape.properties? = some properties ∧
          Lists (Source.interpreted SchemaNode.ofValue? : Cursor → Result SchemaNode)
            (membersUnder .schema "properties" part) properties) ∧
      (∀ operation ∈ document.operations, ∃ part room, Inside written .operation part ∧
        Operation.read (⟨room, part.tree⟩ : Cursor) = (.ok operation : Result Operation) ∧
        Lists (node (m := Result) Response.ofValue?) (membersUnder .operation "responses" part)
          operation.responses) ∧
      (∀ schema properties, document.Holds (.inline schema) →
        schema.shape.properties? = some properties → ∃ part room, Inside written .schema part ∧
          Source.interpreted SchemaNode.ofValue? (⟨room, part.tree⟩ : Cursor) =
            (.ok (.inline schema) : Result SchemaNode) ∧
          Lists (Source.interpreted SchemaNode.ofValue? : Cursor → Result SchemaNode)
            (membersUnder .schema "properties" part) properties) := by
  refine ⟨Document.exists_written h, ?_⟩
  rintro written hwritten rfl
  have hread := (Document.ofJson_text_eq_ok hwritten).mp h
  have hstands : StandsDocument written document := ⟨written, 128, .whole, hread⟩
  refine ⟨?_, ?_, ?_, ?_, ?_⟩
  -- one object after the other
  · intro moved hmoved
    have hsame : moved.WellFormed ∧ Document.ofJson moved.text = .ok document := by
      induction hmoved with
      | refl => exact ⟨hwritten, h⟩
      | tail _ hstep ih =>
        exact ⟨hstep.wellFormed ih.1, Document.ofJson_of_moved ih.1 hstep ih.2⟩
    exact ⟨hsame.2, fun config => by rw [hsame.2]; rfl⟩
  -- from the text into the description
  · intro part hcounts
    obtain ⟨operation, hoperation, room, hpart⟩ := hcounts.reached hwritten ⟨128, hread⟩
    exact ⟨room, operation, hoperation, hpart,
      Operation.lists_responses (hcounts.inside.wellFormed hwritten) hpart⟩
  · intro part hcounts hnode hobject
    obtain ⟨_, hholds, room, hpart⟩ := hcounts.reached hwritten ⟨128, hread⟩
    obtain ⟨fields, keywords, hkeywords, rfl⟩ :=
      keywords_of_read (hcounts.inside.wellFormed hwritten) hpart hnode
    exact ⟨room, keywords.schema, keywords.properties, hholds, hpart,
      hkeywords.properties?_of_isObject hobject, hkeywords.lists⟩
  -- from the description back into the text
  · intro operation hoperation
    obtain ⟨part, room, hinside, hpart⟩ := hstands.operation hwritten hoperation
    exact ⟨part, room, hinside, hpart,
      Operation.lists_responses (hinside.wellFormed hwritten) hpart⟩
  · intro schema properties hholds hproperties
    exact (hstands.schema hwritten hholds).exists_part hwritten hproperties

/-! A text with an operation that has a repeated status, and a component that has a repeated
property. -/

/-- Responses of which two have the same status. -/
def repeatedResponses : List (List Char × Written) :=
  [("\"404\"".toList, .leaf "\x7b\x7d".toList), ("\"200\"".toList, .leaf "\x7b\x7d".toList),
   ("\"404\"".toList, .leaf "\x7b\x7d".toList)]

/-- Properties of which two have the same name. -/
def repeatedProperties : List (List Char × Written) :=
  [("\"b\"".toList, .leaf "\x7b\x7d".toList), ("\"a\"".toList, .leaf "\x7b\x7d".toList),
   ("\"b\"".toList, .leaf "\x7b\x7d".toList)]

/-- The version that a description is written for. -/
def versionMember : List Char × Written :=
  ("\"openapi\"".toList, .leaf "\"3.1.0\"".toList)

/-- An operation with these responses. -/
def operationPart : Written :=
  .object [] [("\"responses\"".toList, .object [] repeatedResponses [])] []

/-- A path with this operation. -/
def pathsMember : List Char × Written :=
  ("\"paths\"".toList,
    .object [] [("\"/a\"".toList, .object [] [("\"get\"".toList, operationPart)] [])] [])

/-- An object with these properties. -/
def objectPart : Written :=
  .object [] [("\"properties\"".toList, .object [] repeatedProperties [])] []

/-- A component that is this object. -/
def componentsMember : List Char × Written :=
  ("\"components\"".toList, .object [] [("\"schemas\"".toList,
    .object [] [("\"A\"".toList, objectPart)] [])] [])

/-- A response without content. -/
def bareResponse : Referable Response :=
  .inline { content := Table.ofList [] }

/-- The operation with these responses. -/
def repeatedOperation : Operation :=
  { responses := [("404", bareResponse), ("200", bareResponse), ("404", bareResponse)] }

/-- A schema that says nothing. -/
def bareSchema : SchemaNode :=
  .inline { shape := .any }

/-- The object with these properties. -/
def repeatedSchema : Schema :=
  { shape := .object [("b", bareSchema), ("a", bareSchema), ("b", bareSchema)] [] }

/-- The description with this operation and this component. -/
def repeatedDocument : Document where
  openapi := "3.1.0"
  paths := Table.ofList [("/a", { get := some repeatedOperation })]
  components :=
    ⟨Table.ofList [("A", .inline repeatedSchema)], Table.ofList [], Table.ofList [],
      Table.ofList []⟩

/-- The whole text. -/
def repeatedPart : Written :=
  .object [] [versionMember, pathsMember, componentsMember] []

/-- An object is well formed if its members are. -/
theorem wellFormed_object {members : List (List Char × Written)} (hnil : members ≠ [])
    (h : ∀ member ∈ members, Written.IsName member.1 ∧ member.2.WellFormed) :
    (Written.object [] members []).WellFormed :=
  .object nofun nofun hnil (fun member hmember => (h member hmember).1)
    (fun member hmember => (h member hmember).2)

/-- The text is well formed. -/
theorem wellFormed_repeatedPart : repeatedPart.WellFormed := by
  have hempty : (Written.leaf "\x7b\x7d".toList).WellFormed := .leaf ⟨rfl, rfl⟩
  have hresponses : (Written.object [] repeatedResponses []).WellFormed := by
    refine wellFormed_object nofun ?_
    simp only [repeatedResponses, List.forall_mem_cons, List.not_mem_nil, false_implies,
      implies_true, and_true]
    exact ⟨⟨⟨rfl, rfl⟩, hempty⟩, ⟨⟨rfl, rfl⟩, hempty⟩, ⟨⟨rfl, rfl⟩, hempty⟩⟩
  have hproperties : (Written.object [] repeatedProperties []).WellFormed := by
    refine wellFormed_object nofun ?_
    simp only [repeatedProperties, List.forall_mem_cons, List.not_mem_nil, false_implies,
      implies_true, and_true]
    exact ⟨⟨⟨rfl, rfl⟩, hempty⟩, ⟨⟨rfl, rfl⟩, hempty⟩, ⟨⟨rfl, rfl⟩, hempty⟩⟩
  have hone {name : List Char} {own : Written} (hname : Written.IsName name)
      (hown : own.WellFormed) : (Written.object [] [(name, own)] []).WellFormed :=
    wellFormed_object nofun (List.forall_mem_singleton.mpr ⟨hname, hown⟩)
  refine wellFormed_object nofun ?_
  simp only [List.forall_mem_cons, List.not_mem_nil, false_implies, implies_true, and_true]
  refine ⟨⟨⟨rfl, rfl⟩, .leaf ⟨rfl, rfl⟩⟩, ⟨⟨rfl, rfl⟩, ?_⟩, ⟨rfl, rfl⟩, ?_⟩
  · exact hone ⟨rfl, rfl⟩ (hone ⟨rfl, rfl⟩ (hone ⟨rfl, rfl⟩ hresponses))
  · exact hone ⟨rfl, rfl⟩ (hone ⟨rfl, rfl⟩ (hone ⟨rfl, rfl⟩ hproperties))

/-- The operation counts. -/
theorem counts_operationPart : Counts repeatedPart .operation operationPart := by
  have hpaths : repeatedPart.member? Role.document.names "paths" = some pathsMember.2 := rfl
  have hpath := (Counts.whole.member (by decide) hpaths nofun nofun nofun).of_only
  have hget : (Written.object [] [("\"get\"".toList, operationPart)] []).member?
      Role.pathItem.names "get" = some operationPart := rfl
  exact hpath.member (by decide) hget nofun nofun nofun

/-- The component counts. -/
theorem counts_objectPart : Counts repeatedPart .schema objectPart := by
  have hcomponents : repeatedPart.member? Role.document.names "components" =
    some componentsMember.2 := rfl
  have hschemas : componentsMember.2.member? Role.components.names "schemas" =
    some (.object [] [("\"A\"".toList, objectPart)] []) := rfl
  have hcounts := Counts.whole.member (by decide) hcomponents nofun nofun nofun
  exact (hcounts.member (by decide) hschemas nofun nofun nofun).of_only

/-- The component is no reference. -/
theorem not_isReference_objectPart : ¬ IsReference objectPart := by
  intro h
  obtain ⟨own, text, hmembers, -⟩ := h
  cases hmembers

/-- The component has properties and no other keyword. -/
theorem isObject_objectPart : IsObject objectPart := by
  have hlacks {name : String} (h : objectPart.member? Keywords.names name = none) :
      Lacks objectPart name := by
    simp [Lacks, h]
  have hothers : LeavesOthers objectPart := by
    intro own hown
    cases hown
  have hproperties : membersUnder .schema "properties" objectPart ≠ [] := List.cons_ne_nil _ _
  exact ⟨hothers, hlacks rfl, hlacks rfl, hlacks rfl, .inr (.inr ⟨rfl, hproperties⟩)⟩

/-- The members of the text may be swapped. Its operation and its component come into the
description, with all their responses and properties in the order of the text. -/
theorem only_properties_and_responses_ordered_swap :
    Document.ofJson repeatedPart.text = .ok repeatedDocument ∧
      Document.ofJson (Written.object [] [pathsMember, versionMember, componentsMember] []).text =
        .ok repeatedDocument ∧
      (∃ operation ∈ repeatedDocument.operations,
        Lists (node (m := Result) Response.ofValue?) repeatedResponses operation.responses) ∧
      (∃ schema properties, repeatedDocument.Holds (.inline schema) ∧
        schema.shape.properties? = some properties ∧
        Lists (Source.interpreted SchemaNode.ofValue? : Cursor → Result SchemaNode)
          repeatedProperties properties) ∧
      ∃ part, Inside repeatedPart .operation part ∧
        Lists (node (m := Result) Response.ofValue?) (membersUnder .operation "responses" part)
          repeatedOperation.responses := by
  have h : Document.ofJson repeatedPart.text = .ok repeatedDocument := by
    cbv
  obtain ⟨hmoved, hoperations, hobjects, hresponses, -⟩ :=
    (only_properties_and_responses_ordered h).2 _ wellFormed_repeatedPart rfl
  have hswap : Moved .document repeatedPart
      (.object [] [pathsMember, versionMember, componentsMember] []) :=
    .members rfl (by decide) (.swap ..)
  obtain ⟨_, own, hown, -, hlists⟩ := hoperations _ counts_operationPart
  obtain ⟨_, schema, properties, hholds, -, hproperties, hproperty⟩ :=
    hobjects _ counts_objectPart not_isReference_objectPart isObject_objectPart
  have hmem : repeatedOperation ∈ repeatedDocument.operations := List.mem_singleton.mpr rfl
  obtain ⟨part, _, hinside, -, hresponse⟩ := hresponses _ hmem
  exact ⟨h, (hmoved _ (.single hswap)).1, ⟨own, hown, hlists⟩,
    ⟨schema, properties, hholds, hproperties, hproperty⟩, part, hinside, hresponse⟩

end Protoscribe.OpenApi
