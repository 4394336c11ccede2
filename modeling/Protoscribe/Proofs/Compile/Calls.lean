import Protoscribe.Proofs.Compile.Failure
import Protoscribe.Proofs.Compile.Soundness

/-!
# `Protoscribe.Proofs.Compile.Calls`: which call leads to which

Five functions call each other while schemas are compiled. A call is made inside some components,
the chain; both together are a `Frame`. `Calls` lists all steps from one frame to the next: into the
schemas that stand inside the current one, into a component that a reference asks for, in place or
as a type of its own, and into a component whose name an inline type has (`Namesake`). `FailsItself`
lists the frames that fail without a further call.
-/

set_option autoImplicit false

namespace Protoscribe.Compile

open OpenApi (Referable RequestBody Schema SchemaNode Section Shape)

/-- A call from one schema to another one. -/
inductive Call where
  /-- To compile a node under a name. -/
  | node (hint : String) (node : SchemaNode)
  /-- To compile a schema under a name, unless it has a title. -/
  | schema (hint : String) (schema : Schema)
  /-- To add a variant of `allOf` to a message. -/
  | absorb (draft : MessageDraft) (node : SchemaNode)
  /-- To compile a schema component, unless that has been done. -/
  | component (key : String) (node : SchemaNode)
  /-- To compile a request body component, unless that has been done. -/
  | requestBody (key : String) (body : Referable RequestBody)

/-- A call and the components that are being compiled when it is made. -/
structure Frame where
  call : Call
  chain : List String

/-- The name of a request body component in the chain. -/
def bodyMarker (key : String) : String :=
  "requestBodies." ++ key

/-- A call of an engine fails with an error of a kind. -/
def Engine.Fails (engine : Engine) (bad : CompileError → Prop) (call : Call) (s : State) : Prop :=
  match call with
  | .node hint node => Compile.Fails bad (engine.node hint node) s
  | .schema hint schema => Compile.Fails bad (engine.schema hint schema) s
  | .absorb draft node => Compile.Fails bad (engine.absorb draft node) s
  | .component key node => Compile.Fails bad (engine.component key node) s
  | .requestBody key body => Compile.Fails bad (engine.requestBody key body) s

/-! ### Steps from call to call -/

/-- The slots of a message of the given name for what stands in a schema. -/
def memberSlots (name : String) : Shape SchemaNode → List (Slot × SchemaNode)
  | .oneOf variants => variantSlots name variants
  | .anyOf variants => variantSlots name variants
  | .allOf _ properties required => propertySlots properties required
  | .object properties required => propertySlots properties required
  | .array (some items) => [(.item name, items)]
  | _ => []

/-- The slots of variants are for the variants. -/
theorem mem_of_mem_variantSlots {name : String} {variants : List SchemaNode} {slot : Slot}
    {node : SchemaNode} (h : (slot, node) ∈ variantSlots name variants) : node ∈ variants := by
  obtain ⟨⟨variant, index⟩, hvariant, heq⟩ := List.mem_map.mp h
  cases heq
  have hfirst := List.mem_map_of_mem (f := Prod.fst) hvariant
  rwa [List.zipIdx_map_fst] at hfirst

/-- The slots of properties are for the properties. -/
theorem exists_mem_of_mem_propertySlots {properties : List (String × SchemaNode)}
    {required : List String} {slot : Slot} {node : SchemaNode}
    (h : (slot, node) ∈ propertySlots properties required) : ∃ name, (name, node) ∈ properties := by
  obtain ⟨property, hproperty, heq⟩ := List.mem_map.mp h
  cases heq
  exact ⟨property.1, hproperty⟩

/-- The name under which a compiled schema is nested, unless it is a wrapper that gives up its
field. -/
inductive Nests (child : MessageDraft) (allowRepeated : Bool) : String → Prop
  | enum {enum : EnumDraft} (hcarried : child.carriedEnum? = some enum) :
      Nests child allowRepeated enum.name
  | message (hcarried : child.carriedEnum? = none)
      (hwrapper : (if allowRepeated || !child.fields.any (·.repeated) then child.unwrap?
        else none) = none) : Nests child allowRepeated child.name

/-- The call for the component whose name an inline type has: a schema goes before a request body,
and there is no call while the component is being compiled. -/
inductive Namesake (job : Job) (chain : List String) (name : String) : Call → Prop
  | schema {key : String} {node : SchemaNode}
      (hfound : (job.document.components.schemas.entries.find? fun entry =>
        job.messageName entry.1 == name) = some (key, node))
      (hfree : key ∉ chain) : Namesake job chain name (.component key node)
  | body {key : String} {body : Referable RequestBody}
      (hnone : (job.document.components.schemas.entries.find? fun entry =>
        job.messageName entry.1 == name) = none)
      (hfound : (job.document.components.requestBodies.entries.find? fun entry =>
        job.messageName entry.1 == name) = some (key, body))
      (hfree : bodyMarker key ∉ chain) : Namesake job chain name (.requestBody key body)

/-- The calls for a node in a slot. -/
inductive SlotCalls (job : Job) (slot : Slot) (chain : List String) : SchemaNode → Call → Prop
  | compile {schema : Schema} :
      SlotCalls job slot chain (.inline schema) (.schema (slot.hint job schema) schema)
  | reference {reference key : String} {target : SchemaNode}
      (hkey : Section.schemas.key? reference = some key)
      (htarget : job.document.components.schemas.find? key = some target) :
      SlotCalls job slot chain (.ref reference) (.component key target)
  | namesake {schema : Schema} {child : MessageDraft} {name : String} {call : Call} {t : State}
      (ht : Justified job t)
      (hderives : Derives job t.facts (.schema (slot.hint job schema) schema) (some child))
      (hempty : child.isEmpty = false) (hname : Nests child slot.allowsRepeated name)
      (hcall : Namesake job chain name call) : SlotCalls job slot chain (.inline schema) call

/-- One step from a call to a call. A step that enters a component adds it to the chain. -/
inductive Calls (job : Job) : Frame → Frame → Prop
  | inline {hint : String} {schema : Schema} {chain : List String} :
      Calls job ⟨.node hint (.inline schema), chain⟩ ⟨.schema hint schema, chain⟩
  | expand {hint reference key : String} {target : SchemaNode} {chain : List String}
      (hkey : Section.schemas.key? reference = some key)
      (htarget : job.document.components.schemas.find? key = some target) (hfree : key ∉ chain) :
      Calls job ⟨.node hint (.ref reference), chain⟩ ⟨.node hint target, chain ++ [key]⟩
  | absorbInline {draft : MessageDraft} {schema : Schema} {chain : List String}
      (hobject : schema.isObject = true) :
      Calls job ⟨.absorb draft (.inline schema), chain⟩ ⟨.schema draft.name schema, chain⟩
  | absorbExpand {draft : MessageDraft} {reference key : String} {target : SchemaNode}
      {chain : List String} (hkey : Section.schemas.key? reference = some key)
      (htarget : job.document.components.schemas.find? key = some target) (hfree : key ∉ chain) :
      Calls job ⟨.absorb draft (.ref reference), chain⟩ ⟨.absorb draft target, chain ++ [key]⟩
  | value {hint : String} {schema : Schema} {value : SchemaNode} {chain : List String}
      (hshape : schema.shape = .map value) :
      Calls job ⟨.schema hint schema, chain⟩
        ⟨.node (job.messageName (schema.title.getD hint)) value, chain⟩
  | variant {hint : String} {schema : Schema} {draft : MessageDraft} {variant : SchemaNode}
      {variants : List SchemaNode} {properties : List (String × SchemaNode)}
      {required chain : List String} (hshape : schema.shape = .allOf variants properties required)
      (hvariant : variant ∈ variants)
      (hname : draft.name = job.messageName (schema.title.getD hint)) :
      Calls job ⟨.schema hint schema, chain⟩ ⟨.absorb draft variant, chain⟩
  | slot {hint : String} {schema : Schema} {slot : Slot} {node : SchemaNode} {call : Call}
      {chain : List String}
      (hslot : (slot, node) ∈ memberSlots (job.messageName (schema.title.getD hint)) schema.shape)
      (hcall : SlotCalls job slot chain node call) :
      Calls job ⟨.schema hint schema, chain⟩ ⟨call, chain⟩
  | component {key : String} {node : SchemaNode} {chain : List String} (hfree : key ∉ chain) :
      Calls job ⟨.component key node, chain⟩ ⟨.node (job.messageName key) node, chain ++ [key]⟩
  | bodyReference {key reference target : String} {body : Referable RequestBody}
      {content : RequestBody} {node : SchemaNode} {chain : List String}
      (hfree : bodyMarker key ∉ chain)
      (hleads : LeadsTo .requestBodies job.document.components.requestBodies body content)
      (hschema : content.content.jsonSchema? = some (.ref reference))
      (hkey : Section.schemas.key? reference = some target)
      (htarget : job.document.components.schemas.find? target = some node) :
      Calls job ⟨.requestBody key body, chain⟩ ⟨.component target node, chain ++ [bodyMarker key]⟩
  | bodySchema {key : String} {body : Referable RequestBody} {content : RequestBody}
      {schema : Schema} {chain : List String} (hfree : bodyMarker key ∉ chain)
      (hleads : LeadsTo .requestBodies job.document.components.requestBodies body content)
      (hschema : content.content.jsonSchema? = some (.inline schema)) :
      Calls job ⟨.requestBody key body, chain⟩
        ⟨.schema (job.messageName key) schema, chain ++ [bodyMarker key]⟩

/-- A call fails of itself: it enters a component that is being compiled, or it cannot follow the
references between request bodies. -/
inductive FailsItself (job : Job) (bad : CompileError → Prop) : Frame → Prop
  | expand {hint reference key : String} {target : SchemaNode} {chain : List String}
      (hkey : Section.schemas.key? reference = some key)
      (htarget : job.document.components.schemas.find? key = some target) (hclosed : key ∈ chain)
      (hbad : bad (.cycle key (chain ++ [key]))) :
      FailsItself job bad ⟨.node hint (.ref reference), chain⟩
  | absorbExpand {draft : MessageDraft} {reference key : String} {target : SchemaNode}
      {chain : List String} (hkey : Section.schemas.key? reference = some key)
      (htarget : job.document.components.schemas.find? key = some target) (hclosed : key ∈ chain)
      (hbad : bad (.cycle key (chain ++ [key]))) :
      FailsItself job bad ⟨.absorb draft (.ref reference), chain⟩
  | component {key : String} {node : SchemaNode} {chain : List String} (hclosed : key ∈ chain)
      (hbad : bad (.cycle key (chain ++ [key]))) : FailsItself job bad ⟨.component key node, chain⟩
  | body {key : String} {body : Referable RequestBody} {chain : List String}
      (hclosed : bodyMarker key ∈ chain)
      (hbad : bad (.cycle (bodyMarker key) (chain ++ [bodyMarker key]))) :
      FailsItself job bad ⟨.requestBody key body, chain⟩
  | follow {key : String} {body : Referable RequestBody} {chain : List String} {t : State}
      (h : Fails bad
        (follow .requestBodies job.document.components.requestBodies body) t) :
      FailsItself job bad ⟨.requestBody key body, chain⟩

end Protoscribe.Compile
