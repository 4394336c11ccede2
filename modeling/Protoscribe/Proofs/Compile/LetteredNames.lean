import Mathlib.Data.List.Induction
import Protoscribe.Proofs.Compile.WellNamed
import Protoscribe.Proofs.Lettered
import Protoscribe.Proofs.OpenApi.Texts

/-!
# `Protoscribe.Proofs.Compile.LetteredNames`: names that are not empty

When every text of a description has a letter or a digit, so have all names that are made from them.
`Task.texts` are the texts that a task has its names from; a task hands them down to the tasks below
it, together with titles, property names and names that have been made already (`Derives.lettered`).
A variant that is a reference gets its name from a component, so the components that came before
count too; `Justified.letteredTypes` takes them in their order. `Offers.lettered` is about the texts
that a description offers schemas under.
-/

set_option autoImplicit false

namespace Protoscribe.Compile

open OpenApi (Content Document Operation Parameter PathItem Referable RequestBody Schema SchemaNode
  Section Verb nodeTexts nodesTexts propertiesTexts shapeTexts)

/-! ### Messages -/

/-- A nested type that is renamed keeps its letters. -/
theorem keptByRenaming_lettered : KeptByRenaming Lettered := by
  intro name suffix n _ hname
  exact (hname.append suffix).append _

/-- The components that became types have names with a letter or a digit. -/
def LetteredTypes (schemas : List (String × ComponentType)) : Prop :=
  ∀ entry ∈ schemas, ∀ name, entry.2 = .message name ∨ entry.2 = .enum name → Lettered name

section

variable {job : Job} {facts : Facts} {slot : Slot}

/-- The text that a slot names its field after, or the message that has the slot. -/
def Slot.text : Slot → String
  | .property name _ _ => name
  | .item list => list
  | .variant union _ _ => union

/-- A slot names its field with a letter if its text has one. -/
theorem Slot.lettered_fieldName (hslot : Lettered slot.text) {type : String}
    (htype : Lettered type) : Lettered (slot.fieldName type) := by
  cases slot with
  | property name required comment => exact Lettered.fieldName hslot
  | item list => exact Lettered.fieldName hslot
  | variant union index group => exact htype.fieldName

/-- A schema is called something with a letter if its texts have one. -/
theorem lettered_title {schema : Schema} {hint : String}
    (htexts : ∀ text ∈ schema.texts, Lettered text) (hhint : Lettered hint) :
    Lettered (schema.title.getD hint) := by
  rw [schema.texts_eq] at htexts
  cases htitle : schema.title with
  | none => exact hhint
  | some title => exact htexts title (by simp [htitle])

/-- A message name has a letter if the text has one. -/
theorem Job.messageName_lettered (job : Job) {text : String} (h : Lettered text) :
    Lettered (job.messageName text) :=
  h.messageName _

/-- The name that a slot suggests has a letter if its text has one. -/
theorem Slot.lettered_hint (hslot : Lettered slot.text) {schema : Schema}
    (htexts : ∀ text ∈ schema.texts, Lettered text) : Lettered (slot.hint job schema) := by
  cases slot with
  | property name required comment => exact job.messageName_lettered hslot
  | item list => exact lettered_title htexts (Lettered.append hslot _)
  | variant union index group =>
    have hnumbered : Lettered (union ++ "_" ++ toString (index + 1)) :=
      (Lettered.append hslot _).append _
    exact lettered_title htexts hnumbered

/-! ### Tasks -/

/-- The texts that a task has its names from, apart from the message that it starts with. -/
def Task.texts : Task → List String
  | .node hint content => hint :: nodeTexts content
  | .schema hint content => hint :: content.texts
  | .shape name content => name :: shapeTexts content.shape
  | .slot _ target content => target.text :: nodeTexts content
  | .slots _ targets => targets.flatMap fun entry => entry.1.text :: nodeTexts entry.2
  | .absorb _ content => nodeTexts content
  | .absorbAll _ contents => nodesTexts contents

/-- A schema is compiled by its shape under its title or the hint. -/
theorem lettered_shape {hint : String} {schema : Schema}
    (htask : ∀ text ∈ (Task.schema hint schema).texts, Lettered text) :
    ∀ text ∈ (Task.shape (job.messageName (schema.title.getD hint)) schema).texts,
      Lettered text := by
  obtain ⟨hhint, htexts⟩ := List.forall_mem_cons.mp htask
  have hname := job.messageName_lettered (lettered_title htexts hhint)
  rw [schema.texts_eq] at htexts
  exact List.forall_mem_cons.mpr ⟨hname, (List.forall_mem_append.mp htexts).2⟩

/-- The texts of the slots of properties are those of the properties. -/
theorem texts_propertySlots (parent : MessageDraft) (properties : List (String × SchemaNode))
    (required : List String) :
    (Task.slots parent (propertySlots properties required)).texts = propertiesTexts properties := by
  rw [Task.texts, propertySlots, OpenApi.propertiesTexts_eq_flatMap, List.flatMap_map]
  rfl

/-- The texts of the slots of variants are those of the variants and the name of the union. -/
theorem mem_texts_variantSlots {parent : MessageDraft} {name text : String}
    {variants : List SchemaNode}
    (h : text ∈ (Task.slots parent (variantSlots name variants)).texts) :
    text ∈ name :: nodesTexts variants := by
  obtain ⟨entry, hentry, htext⟩ := List.mem_flatMap.mp h
  obtain ⟨⟨node, index⟩, hnode, rfl⟩ := List.mem_map.mp hentry
  rcases List.mem_cons.mp htext with rfl | htext
  · exact List.mem_cons_self ..
  · have hvariant : node ∈ variants := (List.mem_zipIdx' hnode).2 ▸ List.getElem_mem _
    rw [OpenApi.nodesTexts_eq_flatMap]
    exact List.mem_cons_of_mem _ (List.mem_flatMap_of_mem hvariant htext)

/-- From texts with letters or digits, messages get such names everywhere. -/
theorem Derives.lettered (hdocument : ∀ text ∈ job.document.texts, Lettered text)
    (htypes : LetteredTypes facts.schemas) {task : Task} {compiled : Option MessageDraft}
    (h : Derives job facts task compiled) (htask : ∀ text ∈ task.texts, Lettered text)
    (hstart : ∀ draft ∈ task.start?, Everywhere (AllNamed Lettered) draft) :
    ∀ draft ∈ compiled, Everywhere (AllNamed Lettered) draft := by
  have htarget : ∀ {key : String} {node : SchemaNode},
      job.document.components.schemas.find? key = some node →
      ∀ text ∈ nodeTexts node, Lettered text :=
    fun hnode text htext =>
      hdocument text (Document.schemaTexts_subset hnode (List.mem_cons_of_mem _ htext))
  -- by the rules of the derivation; each rule takes its texts from those of its task
  induction h with
  | inline _ ih =>
    refine ih ?_ hstart
    simpa [Task.texts, nodeTexts] using htask
  | expanded _ hnode _ ih =>
    obtain ⟨hhint, -⟩ := List.forall_mem_cons.mp htask
    exact ih (List.forall_mem_cons.mpr ⟨hhint, htarget hnode⟩) hstart
  | unordered _ _ ih => exact ih (lettered_shape htask) (by simp [Task.start?])
  | ordered _ ih =>
    rintro _ ⟨⟩
    have hdraft := ih (lettered_shape htask) (by simp [Task.start?]) _ rfl
    exact hdraft.moveToFront (hdraft.here.moveToFront _)
  | map hshape _ ih =>
    refine ih ?_ (by simp [Task.start?])
    simpa [Task.texts, hshape, shapeTexts] using htask
  | enum _ hrun =>
    obtain ⟨hname, -⟩ := List.forall_mem_cons.mp htask
    rintro _ ⟨⟩
    have hdraft : AllNamed Lettered _ := .of_enumCarrier hname hrun
    obtain ⟨⟨enum, -, rfl⟩, -⟩ := enumCarrier_eq_ok hrun
    exact .of_messages_eq_nil hdraft rfl
  | @union name schema variants _ hshape _ ih =>
    have hname : Lettered name := htask _ (List.mem_cons_self ..)
    refine ih ?_ ?_
    · intro text htext
      have hmem := mem_texts_variantSlots htext
      rcases hshape with hshape | hshape
      · exact htask text (by simpa [Task.texts, hshape, shapeTexts] using hmem)
      · exact htask text (by simpa [Task.texts, hshape, shapeTexts] using hmem)
    · rintro _ ⟨⟩
      exact .of_messages_eq_nil (.of_unionStart hname hname.fieldName schema) rfl
  | @combined name schema variants properties required merged _ hshape _ _ ihmerged ih =>
    obtain ⟨hname, htexts⟩ := List.forall_mem_cons.mp htask
    rw [hshape, shapeTexts] at htexts
    obtain ⟨hvariants, hproperties⟩ := List.forall_mem_append.mp htexts
    refine ih (by rwa [texts_propertySlots]) ?_
    rintro _ ⟨⟩
    refine ihmerged hvariants ?_ _ rfl
    rintro _ ⟨⟩
    exact .of_messages_eq_nil (.of_name hname _ _) rfl
  | scalar _ =>
    obtain ⟨hname, -⟩ := List.forall_mem_cons.mp htask
    rintro _ ⟨⟩
    exact .of_messages_eq_nil ((AllNamed.of_name hname _ _).addField hname.fieldName) rfl
  | bareList _ => simp
  | @list name schema items _ hshape _ ih =>
    have hname : Lettered name := htask _ (List.mem_cons_self ..)
    refine ih ?_ ?_
    · simpa [Task.texts, hshape, shapeTexts, Slot.text] using htask
    · rintro _ ⟨⟩
      exact .of_messages_eq_nil (.of_name hname _ _) rfl
  | @object name schema properties required _ hshape _ ih =>
    obtain ⟨hname, hproperties⟩ := List.forall_mem_cons.mp htask
    rw [hshape, shapeTexts] at hproperties
    refine ih (by rwa [texts_propertySlots]) ?_
    rintro _ ⟨⟩
    exact .of_messages_eq_nil (.of_name hname _ _) rfl
  | any _ => simp
  | slotsCons _ _ ihfirst ih =>
    rw [Task.texts, List.flatMap_cons] at htask
    obtain ⟨hfirst, hrest⟩ := List.forall_mem_append.mp htask
    refine ih hrest ?_
    rintro _ ⟨⟩
    exact ihfirst hfirst hstart _ rfl
  | reference hnames =>
    obtain ⟨hslot, -⟩ := List.forall_mem_cons.mp htask
    obtain ⟨key, node, -, -, hresult⟩ := hnames
    rintro _ ⟨⟩
    have hparent := hstart _ rfl
    refine hparent.refer (hparent.here.refer fun type htype => ?_)
    -- a variant has its name from the component, which is settled already
    have hlettered := htypes _ (Table.mem_of_lookup_eq_some hresult) type htype
    exact Slot.lettered_fieldName hslot hlettered
  | taken _ htaken hmarks _ ih =>
    obtain ⟨hslot, htexts⟩ := List.forall_mem_cons.mp htask
    rw [nodeTexts] at htexts
    rintro _ ⟨⟩
    have hparent := hstart _ rfl
    have hchild := ih (List.forall_mem_cons.mpr ⟨Slot.lettered_hint hslot htexts, htexts⟩)
      (by simp [Task.start?]) _ rfl
    -- the child has such names, and so has the field for it
    have hkept := keptByRenaming_lettered
    have hfield := Slot.lettered_fieldName hslot hchild.here.name
    have here := hparent.here.taken hkept htaken hmarks hfield hchild.here.toNamed
    exact hparent.taken here (fun _ hname => hchild.here.renamed hkept hname) htaken hchild
  | absorbCons _ _ ihfirst ih =>
    rw [Task.texts, nodesTexts] at htask
    obtain ⟨hfirst, hrest⟩ := List.forall_mem_append.mp htask
    refine ih hrest ?_
    rintro _ ⟨⟩
    exact ihfirst hfirst hstart _ rfl
  | absorbReference _ hnode _ ih => exact ih (htarget hnode) hstart
  | slotsNil
  | skipped
  | absorbNil
  | ignored
  | absorbNothing =>
    -- the message is the one that the task starts from
    rintro _ ⟨⟩
    exact hstart _ rfl
  | merged _ _ ih =>
    rintro _ ⟨⟩
    have hdraft := hstart _ rfl
    have htexts : ∀ text ∈ nodeTexts (.inline _), Lettered text := htask
    rw [nodeTexts] at htexts
    -- the child is compiled under the name of the message that takes it
    have hchild := ih (List.forall_mem_cons.mpr ⟨hdraft.here.name, htexts⟩)
      (by simp [Task.start?]) _ rfl
    exact hdraft.merge (hdraft.here.merge hchild.here) hchild

/-! ### Files -/

/-- The types that a file has when a component is settled are those of the components before it. -/
theorem Justified.letteredTypes (hdocument : ∀ text ∈ job.document.texts, Lettered text)
    {s : State} (h : Justified job s) : LetteredTypes s.schemas := by
  have hbefore : ∀ before, before <+: s.schemas → LetteredTypes before := by
    intro before hprefix
    -- from one component to the next, in the order in which they were settled
    induction before using List.reverseRecOn with
    | nil => simp [LetteredTypes]
    | append_singleton before entry ih =>
      obtain ⟨key, result⟩ := entry
      obtain ⟨after, hsplit⟩ := hprefix
      rw [List.append_assoc, List.singleton_append] at hsplit
      have htypes : LetteredTypes before := ih ⟨_, hsplit⟩
      obtain ⟨node, compiled, facts, hnode, -, rfl, hderives, hbecame⟩ :=
        h.schemas before key result after hsplit.symm
      obtain ⟨hkey, htexts⟩ := List.forall_mem_cons.mp
        fun text htext => hdocument text (Document.schemaTexts_subset hnode htext)
      have hmessage := hderives.lettered hdocument htypes
        (List.forall_mem_cons.mpr ⟨job.messageName_lettered hkey, htexts⟩) (by simp [Task.start?])
      intro other hother name hname
      rcases List.mem_append.mp hother with hother | hother
      · exact htypes other hother name hname
      · cases List.mem_singleton.mp hother
        exact hbecame.ofKind (fun draft hdraft => (hmessage draft hdraft).here.toNamed) hname
  exact hbefore _ List.prefix_rfl

/-- The payload of a content has the texts of its schema. -/
theorem lettered_of_jsonSchema {document : Document} {content : Content} {node : SchemaNode}
    (hdocument : ∀ text ∈ document.texts, Lettered text) (hcontent : content.texts ⊆ document.texts)
    (hschema : content.jsonSchema? = some node) : ∀ text ∈ nodeTexts node, Lettered text :=
  fun _ htext => hdocument _ (hcontent (Content.nodeTexts_subset hschema htext))

/-- What a reference to a request body leads to has texts of the description. -/
theorem LeadsTo.bodyTexts_subset {document : Document} {definition : Referable RequestBody}
    {body : RequestBody}
    (hleads : LeadsTo .requestBodies document.components.requestBodies definition body)
    (hdefinition : definition ∈ document.requestBodies) : body.content.texts ⊆ document.texts :=
  Document.requestBodyTexts_subset
    (hleads.keeps (P := (· ∈ document.requestBodies)) hdefinition
      Document.mem_requestBodies_of_find?)

/-- The slots for the parameters of an operation have texts of the description. -/
theorem ParameterSlots.lettered {document : Document} {path : String} {item : PathItem}
    {verb : Verb} {operation : Operation} {entries : List (Slot × SchemaNode)}
    (hdocument : ∀ text ∈ document.texts, Lettered text)
    (hitem : (path, item) ∈ document.paths.entries) (hverb : (verb, operation) ∈ item.operations)
    (h : ParameterSlots document item operation entries) (start : MessageDraft) :
    ∀ text ∈ (Task.slots start entries).texts, Lettered text := by
  have hoperation := Document.mem_operations hitem hverb
  -- a parameter that references lead to is one of the description
  have hslots : ∀ {definition : Referable Parameter} {parameter : Parameter},
      definition ∈ item.parameters ∨ definition ∈ operation.parameters →
      LeadsTo .parameters document.components.parameters definition parameter →
      ∀ entry ∈ parameterSlots parameter, ∀ text ∈ entry.1.text :: nodeTexts entry.2,
        Lettered text := by
    intro definition parameter hdefinition hleads entry hentry
    obtain ⟨required, hproperty, hschema⟩ := exists_of_mem_parameterSlots hentry
    have hplace := hleads.keeps (P := (· ∈ document.parameters))
      (Document.mem_parameters_of_operation hitem hoperation hdefinition)
      Document.mem_parameters_of_find?
    have htexts := fun text htext => hdocument text (Document.parameterTexts_subset hplace htext)
    rw [hproperty]
    refine List.forall_mem_cons.mpr ⟨htexts _ (List.mem_cons_self ..), fun text htext => ?_⟩
    exact htexts text (Parameter.nodeTexts_subset hschema htext)
  obtain ⟨hshared, hown⟩ := h
  intro text htext
  obtain ⟨entry, hentry, htext⟩ := List.mem_flatMap.mp htext
  rcases List.mem_append.mp hentry with hentry | hentry
  · obtain ⟨parameter, hparameter, hentry⟩ := List.mem_flatMap.mp hentry
    obtain ⟨definition, hdefinition, hleads⟩ := (exists_of_forall₂ hshared).2 _ hparameter
    split at hentry
    · cases hentry
    · exact hslots (.inl hdefinition) hleads entry hentry text htext
  · obtain ⟨parameter, hparameter, hentry⟩ := List.mem_flatMap.mp hentry
    obtain ⟨definition, hdefinition, hleads⟩ := (exists_of_forall₂ hown).2 _ hparameter
    exact hslots (.inr hdefinition) hleads entry hentry text htext

/-- Verbs are words, so a method has a name whatever its path is. -/
theorem Job.methodName_lettered (job : Job) (path : String) (verb : OpenApi.Verb) :
    Lettered (job.methodName path verb) := by
  have hverb : Lettered verb.name := by cases verb <;> decide
  exact (job.messageName_lettered hverb).append _

/-- What a payload is lent has names with letters. -/
theorem Lends.lettered (hdocument : ∀ text ∈ job.document.texts, Lettered text)
    (htypes : LetteredTypes facts.schemas) {message draft : MessageDraft} {field : String}
    {required : Bool} {node : SchemaNode} (hfield : Lettered field)
    (htexts : ∀ text ∈ nodeTexts node, Lettered text)
    (hmessage : Everywhere (AllNamed Lettered) message)
    (h : Lends job facts message field required node draft) :
    Everywhere (AllNamed Lettered) draft := by
  cases h with
  | member _ hslot =>
    refine hslot.lettered hdocument htypes (List.forall_mem_cons.mpr ⟨hfield, htexts⟩) ?_ _ rfl
    rintro _ ⟨⟩
    exact hmessage
  | nothing => exact hmessage
  | merged _ hschema =>
    rw [nodeTexts] at htexts
    have hother := hschema.lettered hdocument htypes
      (List.forall_mem_cons.mpr ⟨hmessage.here.name, htexts⟩) (by simp [Task.start?]) _ rfl
    have hdescribed := fun comment => hmessage.comment (hmessage.here.comment comment)
    exact (hdescribed _).merge ((hdescribed _).here.merge hother.here) hother

/-- A payload without members has no name but its own. -/
theorem lettered_payload (path : String) (verb : Verb) (suffix : String)
    (comment : Option String) :
    Everywhere (AllNamed Lettered) { name := job.methodName path verb ++ suffix, comment } :=
  .of_messages_eq_nil (.of_name ((job.methodName_lettered path verb).append suffix) comment false)
    rfl

section payload

variable {path : String} {item : PathItem} {verb : Verb} {operation : Operation}
  {draft : MessageDraft}

/-- The request of an operation goes by the method name and texts of the description. -/
theorem RequestFrom.lettered (hdocument : ∀ text ∈ job.document.texts, Lettered text)
    (htypes : LetteredTypes facts.schemas) (hitem : (path, item) ∈ job.document.paths.entries)
    (hverb : (verb, operation) ∈ item.operations)
    (h : RequestFrom job facts (job.methodName path verb ++ "Request") item operation draft) :
    Everywhere (AllNamed Lettered) draft := by
  -- the name of a request begins with that of the method, and the parameters fill it
  have hslots : ∀ {entries : List (Slot × SchemaNode)} {filled : MessageDraft},
      ParameterSlots job.document item operation entries →
      Derives job facts (.slots { name := job.methodName path verb ++ "Request" } entries)
        (some filled) → Everywhere (AllNamed Lettered) filled := by
    intro entries filled hentries hslots
    refine hslots.lettered hdocument htypes (hentries.lettered hdocument hitem hverb _) ?_ _ rfl
    rintro _ ⟨⟩
    exact lettered_payload path verb _ none
  cases h with
  | bodiless hentries hderives _ => exact hslots hentries hderives
  | body hentries hderives hbody hschema hlends =>
    obtain ⟨definition, hdefinition, hleads⟩ := hbody
    have hplace := Document.mem_requestBodies_of_operation
      (Document.mem_operations hitem hverb) hdefinition
    exact hlends.lettered hdocument htypes (by decide)
      (lettered_of_jsonSchema hdocument (hleads.bodyTexts_subset hplace) hschema)
      (hslots hentries hderives)

/-- The response of an operation goes by the method name and texts of the description. -/
theorem ResponseFrom.lettered (hdocument : ∀ text ∈ job.document.texts, Lettered text)
    (htypes : LetteredTypes facts.schemas) (hitem : (path, item) ∈ job.document.paths.entries)
    (hverb : (verb, operation) ∈ item.operations)
    (h : ResponseFrom job facts (job.methodName path verb ++ "Response") operation draft) :
    Everywhere (AllNamed Lettered) draft := by
  cases h with
  | bodiless comment _ => exact lettered_payload path verb _ comment
  | body hresponse hschema hlends =>
    obtain ⟨definition, hdefinition, hleads⟩ := hresponse
    have hplace := hleads.keeps (P := (· ∈ job.document.responses))
      (Document.mem_responses_of_operation (Document.mem_operations hitem hverb) hdefinition)
      Document.mem_responses_of_find?
    exact hlends.lettered hdocument htypes (by decide)
      (lettered_of_jsonSchema hdocument (Document.responseTexts_subset hplace) hschema)
      (lettered_payload path verb _ _)

end payload

/-- A message that comes from the description has names with letters everywhere. -/
theorem Sourced.lettered (hdocument : ∀ text ∈ job.document.texts, Lettered text)
    (htypes : LetteredTypes facts.schemas) {among : OpenApi.Endpoint → Prop} {draft : MessageDraft}
    (h : Sourced job facts among draft) : Everywhere (AllNamed Lettered) draft := by
  -- the texts of a component or an operation are among those of the description
  cases h with
  | schema hnode h =>
    obtain ⟨hkey, htexts⟩ := List.forall_mem_cons.mp fun text htext =>
      hdocument text (Document.schemaTexts_subset hnode htext)
    exact h.lettered hdocument htypes
      (List.forall_mem_cons.mpr ⟨job.messageName_lettered hkey, htexts⟩)
      (by simp [Task.start?]) _ rfl
  | body comment hdefinition hleads hschema h =>
    have hkey := hdocument _ (Document.requestBodyKey_mem_texts hdefinition)
    have htexts := lettered_of_jsonSchema hdocument
      (hleads.bodyTexts_subset (Document.mem_requestBodies_of_find? hdefinition)) hschema
    rw [nodeTexts] at htexts
    have hcompiled := h.lettered hdocument htypes
      (List.forall_mem_cons.mpr ⟨job.messageName_lettered hkey, htexts⟩)
      (by simp [Task.start?]) _ rfl
    exact hcompiled.comment (hcompiled.here.comment comment)
  | payload _ h =>
    cases h with
    | request hitem hverb h => exact h.lettered hdocument htypes hitem hverb
    | response hitem hverb h => exact h.lettered hdocument htypes hitem hverb

end

end Protoscribe.Compile
