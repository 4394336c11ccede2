import Mathlib.Data.List.Basic
import Mathlib.Logic.Relation
import Protoscribe.Proofs.Compile.Roots
import Protoscribe.Proofs.ReferenceGraph

/-!
# `Protoscribe.Proofs.Compile.Needs`: why one component is compiled inside another one

A component is compiled inside another one for one of two reasons. A reference asks for it
(`RefersTo`), or an inline type of the other one has its name (`NamesakeOf`). Both together are
`Demands`.

`Inside` says which calls are about a schema that stands in a component. `Tracked` is what holds of
every call that comes from a component: the components in its chain lead, by what they demand, to
the one that the call is inside of, and a component that is called for although it is in the chain
is called for by a reference (`Calls.tracked`).
-/

set_option autoImplicit false

namespace Protoscribe.Compile

open OpenApi (Document Parameter Referable RequestBody Response Schema SchemaNode Section Shape)
open Relation (ReflTransGen)

/-! ### References between components -/

/-- A component of a document: its section and its key. -/
abbrev Component := Section × String

/-- A reference stands somewhere in a node. -/
inductive OccursIn : SchemaNode → String → Prop
  | here {reference : String} : OccursIn (.ref reference) reference
  | inside {schema : Schema} {part : Place × SchemaNode} {reference : String}
      (hpart : part ∈ parts schema.shape) (h : OccursIn part.2 reference) :
      OccursIn (.inline schema) reference

/-- In a reference occurs the reference itself. -/
theorem occursIn_ref {reference other : String} :
    OccursIn (.ref reference) other ↔ other = reference := by
  constructor
  · intro h
    cases h
    rfl
  · rintro rfl
    exact .here

/-- In a schema occurs what occurs in its parts. -/
theorem occursIn_inline {schema : Schema} {reference : String} :
    OccursIn (.inline schema) reference ↔
      ∃ part ∈ parts schema.shape, OccursIn part.2 reference := by
  constructor
  · intro h
    cases h with
    | inside hpart h => exact ⟨_, hpart, h⟩
  · rintro ⟨part, hpart, h⟩
    exact .inside hpart h

/-- A reference stands somewhere in a component. -/
inductive Occurs (document : Document) : Component → String → Prop
  | schema {key reference : String} {node : SchemaNode}
      (hentry : document.components.schemas.find? key = some node) (h : OccursIn node reference) :
      Occurs document (.schemas, key) reference
  | parameter {key reference : String}
      (hentry : document.components.parameters.find? key = some (.ref reference)) :
      Occurs document (.parameters, key) reference
  | parameterSchema {key reference : String} {parameter : Parameter} {node : SchemaNode}
      (hentry : document.components.parameters.find? key = some (.inline parameter))
      (hschema : parameter.schema = some node) (h : OccursIn node reference) :
      Occurs document (.parameters, key) reference
  | body {key reference : String}
      (hentry : document.components.requestBodies.find? key = some (.ref reference)) :
      Occurs document (.requestBodies, key) reference
  | bodySchema {key type reference : String} {body : RequestBody} {node : SchemaNode}
      (hentry : document.components.requestBodies.find? key = some (.inline body))
      (hschema : (type, ⟨some node⟩) ∈ body.content.entries) (h : OccursIn node reference) :
      Occurs document (.requestBodies, key) reference
  | response {key reference : String}
      (hentry : document.components.responses.find? key = some (.ref reference)) :
      Occurs document (.responses, key) reference
  | responseSchema {key type reference : String} {response : Response} {node : SchemaNode}
      (hentry : document.components.responses.find? key = some (.inline response))
      (hschema : (type, ⟨some node⟩) ∈ response.content.entries) (h : OccursIn node reference) :
      Occurs document (.responses, key) reference

/-- A reference in the component `source` names the component `target`. -/
def RefersTo (document : Document) (source target : Component) : Prop :=
  ∃ reference, Occurs document source reference ∧ target.1.key? reference = some target.2

/-- A component refers to what its references lead to. -/
theorem Occurs.refersTo {document : Document} {source : Component} {part : Section}
    {reference key : String} (h : Occurs document source reference)
    (hkey : part.key? reference = some key) : RefersTo document source (part, key) :=
  ⟨reference, h, hkey⟩

/-- A reference into a section starts with its pointer. -/
theorem Section.pointer_isPrefix {part : Section} {reference key : String}
    (h : part.key? reference = some key) : part.pointer.toList <+: reference.toList := by
  unfold Section.key? OpenApi.Reference.key? OpenApi.Reference.segment? at h
  split at h
  · rename_i segment hsegment
    exact ⟨segment, List.isPrefixOf?_eq_some_iff_append_eq.mp hsegment⟩
  · cases h

/-- No pointer of a section is the start of another one. -/
theorem Section.eq_of_pointer_isPrefix {part other : Section}
    (h : part.pointer.toList <+: other.pointer.toList) : part = other := by
  revert h
  cases part <;> cases other <;> decide

/-- A reference leads into one section. -/
theorem component_eq_of_key? {part : Section} {reference key : String} {target : Component}
    (h : part.key? reference = some key) (htarget : target.1.key? reference = some target.2) :
    target = (part, key) := by
  obtain ⟨other, name⟩ := target
  have hpart : other = part := by
    rcases List.prefix_or_prefix_of_prefix (Section.pointer_isPrefix htarget)
      (Section.pointer_isPrefix h) with hstart | hstart
    · exact Section.eq_of_pointer_isPrefix hstart
    · exact (Section.eq_of_pointer_isPrefix hstart).symm
  subst hpart
  cases htarget.symm.trans h
  rfl

/-! ### Calls inside a component -/

/-- The component that a call is for; nothing when the call is about a schema. -/
def Call.component? : Call → Option Component
  | .component key _ => some (.schemas, key)
  | .requestBody key _ => some (.requestBodies, key)
  | _ => none

/-- A reference stands in the schema that a call is about. -/
def Call.Mentions : Call → String → Prop
  | .node _ whole, reference => OccursIn whole reference
  | .schema _ whole, reference => OccursIn (.inline whole) reference
  | .absorb _ variant, reference => OccursIn variant reference
  | .component _ _, _ => False
  | .requestBody _ _, _ => False

/-- A call is about a schema in a component. A schema that is expanded in place stands in its own
component, and not where it is expanded. -/
inductive Inside (job : Job) : Component → Call → Prop
  | schema {key : String} {node : SchemaNode}
      (hentry : job.document.components.schemas.find? key = some node) :
      Inside job (.schemas, key) (.node (job.messageName key) node)
  | body {key : String} {body : Referable RequestBody} {content : RequestBody} {schema : Schema}
      (hentry : job.document.components.requestBodies.find? key = some body)
      (hleads : LeadsTo .requestBodies job.document.components.requestBodies body content)
      (hschema : content.content.jsonSchema? = some (.inline schema)) :
      Inside job (.requestBodies, key) (.schema (job.messageName key) schema)
  | inner {component : Component} {call callee : Call} {chain : List String}
      (h : Inside job component call) (hcalls : Calls job ⟨call, chain⟩ ⟨callee, chain⟩)
      (hcallee : callee.component? = none) : Inside job component callee
  | expanded {component : Component} {hint reference key : String} {target : SchemaNode}
      (h : Inside job component (.node hint (.ref reference)))
      (hkey : Section.schemas.key? reference = some key)
      (htarget : job.document.components.schemas.find? key = some target) :
      Inside job (.schemas, key) (.node hint target)
  | absorbed {component : Component} {draft : MessageDraft} {reference key : String}
      {target : SchemaNode} (h : Inside job component (.absorb draft (.ref reference)))
      (hkey : Section.schemas.key? reference = some key)
      (htarget : job.document.components.schemas.find? key = some target) :
      Inside job (.schemas, key) (.absorb draft target)

/-- An inline type in the component `source` has the name of the component `target`: filling the
slot of its schema calls for that component. -/
def NamesakeOf (job : Job) (source target : Component) : Prop :=
  ∃ hint schema slot inner chain callee, Inside job source (.schema hint schema) ∧
    (slot, .inline inner) ∈ memberSlots (job.messageName (schema.title.getD hint)) schema.shape ∧
    SlotCalls job slot chain (.inline inner) callee ∧ callee.component? = some target

/-- A component refers to another one, or an inline type in it has the name of the other one. -/
def Demands (job : Job) (source target : Component) : Prop :=
  RefersTo job.document source target ∨ NamesakeOf job source target

variable {job : Job}

/-- A call inside a component is not the call of one. -/
theorem Inside.component?_eq_none {component : Component} {call : Call}
    (h : Inside job component call) : call.component? = none := by
  cases h with
  | inner _ _ hcallee => exact hcallee
  | _ => rfl

/-! ### References of a call -/

/-- What fills a slot of a message stands right below the schema. -/
theorem mem_parts_of_mem_memberSlots {name : String} {shape : Shape SchemaNode} {slot : Slot}
    {node : SchemaNode} (h : (slot, node) ∈ memberSlots name shape) :
    ∃ place, (place, node) ∈ parts shape := by
  cases shape with
  | oneOf variants => exact ⟨_, List.mem_map_of_mem (mem_of_mem_variantSlots h)⟩
  | anyOf variants => exact ⟨_, List.mem_map_of_mem (mem_of_mem_variantSlots h)⟩
  | allOf variants properties required =>
    obtain ⟨key, hproperty⟩ := exists_mem_of_mem_propertySlots h
    exact ⟨.member, List.mem_append_right _ (List.mem_map.mpr ⟨_, hproperty, rfl⟩)⟩
  | object properties required =>
    obtain ⟨key, hproperty⟩ := exists_mem_of_mem_propertySlots h
    exact ⟨.member, List.mem_map.mpr ⟨_, hproperty, rfl⟩⟩
  | array items =>
    cases items with
    | none => simp [memberSlots] at h
    | some items =>
      cases List.mem_singleton.mp h
      exact ⟨.member, List.mem_singleton.mpr rfl⟩
  | _ => simp [memberSlots] at h

/-- The calls for a slot mention what occurs in its schema. -/
theorem SlotCalls.mentions {slot : Slot} {chain : List String} {node : SchemaNode} {callee : Call}
    {reference : String} (h : SlotCalls job slot chain node callee)
    (hmentions : callee.Mentions reference) : OccursIn node reference := by
  cases h with
  | compile => exact hmentions
  | reference _ _ => exact hmentions.elim
  | namesake _ _ _ _ hcall => cases hcall <;> exact hmentions.elim

/-- A call inside the same components mentions no new reference. -/
theorem Calls.mentions {caller callee : Frame} {reference : String} (h : Calls job caller callee)
    (hsame : callee.chain = caller.chain) (hmentions : callee.call.Mentions reference) :
    caller.call.Mentions reference := by
  -- the chain is the same in calls in place only, and these are for parts of the node
  cases h with
  | inline => exact hmentions
  | absorbInline _ => exact hmentions
  | @value _ schema value _ hshape =>
    have hpart : (.inPlace, value) ∈ parts schema.shape := by
      rw [hshape]
      exact List.mem_singleton_self _
    exact .inside hpart hmentions
  | @variant _ schema _ variant _ _ _ _ hshape hvariant _ =>
    have hpart : (.variant, variant) ∈ parts schema.shape := by
      rw [hshape]
      exact List.mem_append_left _ (List.mem_map_of_mem hvariant)
    exact .inside hpart hmentions
  | slot hslot hcall =>
    obtain ⟨place, hpart⟩ := mem_parts_of_mem_memberSlots hslot
    exact .inside hpart (hcall.mentions hmentions)
  | expand _ _ _ => simp at hsame
  | absorbExpand _ _ _ => simp at hsame
  | component _ => simp at hsame
  | bodyReference _ _ _ _ _ => simp at hsame
  | bodySchema _ _ _ => simp at hsame

/-- The content of a request body component stands in a component that it refers to, over any number
of references. -/
theorem LeadsTo.content {document : Document} {key : String} {body : Referable RequestBody}
    {content : RequestBody}
    (h : LeadsTo .requestBodies document.components.requestBodies body content)
    (hentry : document.components.requestBodies.find? key = some body) :
    ∃ last, ReflTransGen (RefersTo document) (.requestBodies, key) (.requestBodies, last) ∧
      document.components.requestBodies.find? last = some (.inline content) := by
  induction h generalizing key with
  | inline => exact ⟨key, .refl, hentry⟩
  | ref hkey hnode _ ih =>
    obtain ⟨last, hpath, hlast⟩ := ih hnode
    exact ⟨last, .head (Occurs.refersTo (.body hentry) hkey) hpath, hlast⟩

/-- In a request body occurs what occurs in its JSON payload. -/
theorem Occurs.of_jsonSchema {document : Document} {key reference : String} {body : RequestBody}
    {node : SchemaNode} (hentry : document.components.requestBodies.find? key = some (.inline body))
    (hschema : body.content.jsonSchema? = some node) (h : OccursIn node reference) :
    Occurs document (.requestBodies, key) reference := by
  obtain ⟨⟨_⟩, hmedia, rfl⟩ := Option.bind_eq_some_iff.mp hschema
  exact .bodySchema hentry (Table.find?_eq_some_iff.mp hmedia) h

/-- A reference that is mentioned inside a component stands in that component, or in one that it
refers to. -/
theorem Inside.occurs {component : Component} {call : Call} {reference : String}
    (h : Inside job component call) (hmentions : call.Mentions reference) :
    ∃ source, ReflTransGen (RefersTo job.document) component source ∧
      Occurs job.document source reference := by
  induction h with
  | schema hentry => exact ⟨_, .refl, .schema hentry hmentions⟩
  | body hentry hleads hschema =>
    obtain ⟨last, hpath, hlast⟩ := hleads.content hentry
    exact ⟨_, hpath, .of_jsonSchema hlast hschema hmentions⟩
  | inner _ hcalls _ ih => exact ih (hcalls.mentions rfl hmentions)
  | expanded _ _ htarget _ => exact ⟨_, .refl, .schema htarget hmentions⟩
  | absorbed _ _ htarget _ => exact ⟨_, .refl, .schema htarget hmentions⟩

/-! ### The components in the chain -/

/-- The name of a component in the chain. -/
inductive Labels (job : Job) : String → Component → Prop
  | schema {key : String} (h : key ∈ job.document.components.schemas.keys) :
      Labels job key (.schemas, key)
  | body {key : String} (h : key ∈ job.document.components.requestBodies.keys) :
      Labels job (bodyMarker key) (.requestBodies, key)

/-- Every component in the chain demands a component, directly or through what it demands. -/
def EachDemands (job : Job) (chain : List String) (target : Component) : Prop :=
  ∀ label ∈ chain, ∃ source, Labels job label source ∧ ReflTransGen (Demands job) source target

/-- What all components of a chain demand may demand more. -/
theorem EachDemands.trans {chain : List String} {middle target : Component}
    (h : EachDemands job chain middle) (hpath : ReflTransGen (Demands job) middle target) :
    EachDemands job chain target := by
  intro label hlabel
  obtain ⟨source, hsource, hreaches⟩ := h label hlabel
  exact ⟨source, hsource, hreaches.trans hpath⟩

/-- A component that is entered demands itself, as all the others do. -/
theorem EachDemands.enter {chain : List String} {label : String} {target : Component}
    (h : EachDemands job chain target) (hlabel : Labels job label target) :
    EachDemands job (chain ++ [label]) target := by
  intro other hother
  rcases List.mem_append.mp hother with hold | hnew
  · exact h other hold
  · cases List.mem_singleton.mp hnew
    exact ⟨target, hlabel, .refl⟩

/-- Along references, a component leads on. -/
theorem demands_of_refersTo {source target : Component}
    (h : ReflTransGen (RefersTo job.document) source target) :
    ReflTransGen (Demands job) source target :=
  h.lift id fun _ _ hrefers => .inl hrefers

/-- What holds of every call that comes from a component. A component that is called for by its name
only is not in the chain. -/
inductive Tracked (job : Job) : Frame → Prop
  | inside {component : Component} {call : Call} {chain : List String}
      (hinside : Inside job component call) (hchain : EachDemands job chain component) :
      Tracked job ⟨call, chain⟩
  | declared {component : Component} {call : Call} {chain : List String}
      (hcall : call.component? = some component) (hentry : job.Covers call)
      (hchain : EachDemands job chain component)
      (hclosed : ∀ label ∈ chain, Labels job label component →
        ∃ source, RefersTo job.document source component ∧ EachDemands job chain source) :
      Tracked job ⟨call, chain⟩

/-- A call for a component that a reference asks for. -/
theorem Tracked.of_reference {source : Component} {chain : List String} {reference key : String}
    {node : SchemaNode} (hchain : EachDemands job chain source)
    (hoccurs : Occurs job.document source reference)
    (hkey : Section.schemas.key? reference = some key)
    (hnode : job.document.components.schemas.find? key = some node) :
    Tracked job ⟨.component key node, chain⟩ := by
  have hrefers : RefersTo job.document source (.schemas, key) := hoccurs.refersTo hkey
  exact .declared rfl hnode (hchain.trans (.single (.inl hrefers)))
    fun _ _ _ => ⟨source, hrefers, hchain⟩

/-- A call for a component whose name an inline type has. The component is not in the chain. -/
theorem Tracked.of_namesake {source component : Component} {chain : List String} {name : String}
    {callee : Call} (hcall : Namesake job chain name callee)
    (hcomponent : callee.component? = some component) (hchain : EachDemands job chain source)
    (hdemands : Demands job source component) : Tracked job ⟨callee, chain⟩ := by
  refine .declared hcomponent hcall.covered (hchain.trans (.single hdemands))
    fun label hlabel hlabels => ?_
  cases hcall with
  | schema _ hfree =>
    cases hcomponent
    cases hlabels with
    | schema _ => exact absurd hlabel hfree
  | body _ _ hfree =>
    cases hcomponent
    cases hlabels with
    | body _ => exact absurd hlabel hfree

/-- The calls for a slot stay inside the component. -/
theorem Tracked.slot {source : Component} {hint : String} {schema : Schema} {slot : Slot}
    {node : SchemaNode} {callee : Call} {chain : List String}
    (hinside : Inside job source (.schema hint schema)) (hchain : EachDemands job chain source)
    (hslot : (slot, node) ∈ memberSlots (job.messageName (schema.title.getD hint)) schema.shape)
    (hcall : SlotCalls job slot chain node callee) : Tracked job ⟨callee, chain⟩ := by
  cases hcall with
  | compile =>
    have hcalls : Calls job ⟨.schema hint schema, chain⟩ ⟨_, chain⟩ := .slot hslot .compile
    exact .inside (.inner hinside hcalls rfl) hchain
  | reference hkey htarget =>
    obtain ⟨place, hpart⟩ := mem_parts_of_mem_memberSlots hslot
    obtain ⟨origin, hpath, hoccurs⟩ := hinside.occurs (OccursIn.inside hpart .here)
    exact .of_reference (hchain.trans (demands_of_refersTo hpath)) hoccurs hkey htarget
  | namesake ht hderives hempty hname hcall =>
    have hcomponent : ∃ component, callee.component? = some component := by
      cases hcall <;> exact ⟨_, rfl⟩
    obtain ⟨component, hcomponent⟩ := hcomponent
    exact .of_namesake hcall hcomponent hchain (.inr ⟨_, _, _, _, _, _, hinside, hslot,
      .namesake ht hderives hempty hname hcall, hcomponent⟩)

/-- Every step from a tracked call leads to a tracked one. -/
theorem Calls.tracked {caller callee : Frame} (h : Calls job caller callee)
    (hcaller : Tracked job caller) : Tracked job callee := by
  have hcalls := h
  -- inside a component a call stays there or enters another one along a reference
  cases hcaller with
  | inside hinside hchain =>
    cases h with
    | inline => exact .inside (.inner hinside hcalls rfl) hchain
    | absorbInline _ => exact .inside (.inner hinside hcalls rfl) hchain
    | value _ => exact .inside (.inner hinside hcalls rfl) hchain
    | variant _ _ _ => exact .inside (.inner hinside hcalls rfl) hchain
    | slot hslot hcall => exact .slot hinside hchain hslot hcall
    | expand hkey htarget _ =>
      obtain ⟨origin, hpath, hoccurs⟩ := hinside.occurs OccursIn.here
      have hrefers : Demands job origin _ := .inl (hoccurs.refersTo hkey)
      refine .inside (.expanded hinside hkey htarget) (EachDemands.enter ?_ (.schema ?_))
      · exact hchain.trans ((demands_of_refersTo hpath).tail hrefers)
      · exact Table.mem_keys_of_find?_eq_some htarget
    | absorbExpand hkey htarget _ =>
      obtain ⟨origin, hpath, hoccurs⟩ := hinside.occurs OccursIn.here
      have hrefers : Demands job origin _ := .inl (hoccurs.refersTo hkey)
      refine .inside (.absorbed hinside hkey htarget) (EachDemands.enter ?_ (.schema ?_))
      · exact hchain.trans ((demands_of_refersTo hpath).tail hrefers)
      · exact Table.mem_keys_of_find?_eq_some htarget
    | component _ => cases hinside.component?_eq_none
    | bodyReference _ _ _ _ _ => cases hinside.component?_eq_none
    | bodySchema _ _ _ => cases hinside.component?_eq_none
  | declared hcall hentry hchain _ =>
    cases h with
    | component _ =>
      cases hcall
      exact .inside (.schema hentry)
        (hchain.enter (.schema (Table.mem_keys_of_find?_eq_some hentry)))
    | bodyReference _ hleads hschema hkey htarget =>
      cases hcall
      obtain ⟨last, hpath, hlast⟩ := hleads.content hentry
      have hentered := hchain.enter (.body (Table.mem_keys_of_find?_eq_some hentry))
      exact .of_reference (hentered.trans (demands_of_refersTo hpath))
        (.of_jsonSchema hlast hschema .here) hkey htarget
    | bodySchema _ hleads hschema =>
      cases hcall
      exact .inside (.body hentry hleads hschema)
        (hchain.enter (.body (Table.mem_keys_of_find?_eq_some hentry)))
    | _ => cases hcall

end Protoscribe.Compile
