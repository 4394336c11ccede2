import Protoscribe.Compile.Schema

/-!
# `Protoscribe.Proofs.Compile.Derivation`: the rules by which schemas become messages

The compilation of a schema is a recursion through five functions with a state and levels of
calls. `Derives` says the same as a relation, without state and levels: which message a task may
lead to, given what is known about the components (`Facts`). A task is to compile a node, a schema,
or a shape under a name, to fill slots of a message, or to absorb variants of `allOf`.

A slot is a place for one field: a property, the item of a list, or a variant of a union. All three
are filled in the same way, and differ in the name of the field, in the name for an inline schema,
and in what is set on the field (`Slot`).

The rules leave open what depends on the moment of the run: whether a component is still being
compiled when an inline type takes its name (`StandsIn.inProgress`), and which types the file had
when a free name was looked for (`NestedAs.renamed`). `Derives.mono` says that facts that come later
do not spoil a derivation.
-/

set_option autoImplicit false

namespace Protoscribe.Compile

open OpenApi (Referable RequestBody Schema SchemaNode Section Shape)

/-! ### Facts -/

/-- What a run has found out: what the components became, and what the file imports. -/
structure Facts where
  schemas : List (String × ComponentType)
  bodies : List (String × ComponentType)
  imports : List String

/-- The facts of a state. -/
def State.facts (s : State) : Facts :=
  ⟨s.schemas, s.bodies, s.file.dependencies.keys⟩

/-- Facts only ever get more. What a component became does not change. -/
structure Facts.Le (before after : Facts) : Prop where
  schemas : before.schemas <+: after.schemas
  bodies : before.bodies <+: after.bodies
  imports : ∀ file ∈ before.imports, file ∈ after.imports

instance : LE Facts := ⟨Facts.Le⟩

/-- Facts know what they know. -/
theorem Facts.le_refl (facts : Facts) : facts ≤ facts :=
  ⟨List.prefix_rfl, List.prefix_rfl, fun _ h => h⟩

/-- Facts that come later still know it too. -/
theorem Facts.le_trans {a b c : Facts} (hab : a ≤ b) (hbc : b ≤ c) : a ≤ c :=
  ⟨hab.schemas.trans hbc.schemas, hab.bodies.trans hbc.bodies,
    fun file h => hbc.imports file (hab.imports file h)⟩

/-- An entry that is found in a list is found in every longer list. -/
theorem lookup_of_extended {α : Type} {entries longer : List (String × α)} {key : String}
    {value : α} (hlonger : entries <+: longer) (h : entries.lookup key = some value) :
    longer.lookup key = some value := by
  obtain ⟨rest, rfl⟩ := hlonger
  rw [List.lookup_append, h]
  rfl

/-- The reference names a schema component, and the component became `result`. -/
def Facts.Names (facts : Facts) (job : Job) (reference : String) (result : ComponentType) : Prop :=
  ∃ key node, Section.schemas.key? reference = some key ∧
    job.document.components.schemas.find? key = some node ∧
    facts.schemas.lookup key = some result

/-- What a reference names stays named later. -/
theorem Facts.Names.mono {job : Job} {facts later : Facts} {reference : String}
    {result : ComponentType} (h : facts.Names job reference result) (hle : facts ≤ later) :
    later.Names job reference result := by
  obtain ⟨key, node, hkey, hnode, hresult⟩ := h
  exact ⟨key, node, hkey, hnode, lookup_of_extended hle.schemas hresult⟩

/-! ### Inline types -/

/-- Is the component an enum of the file? -/
def ComponentType.isEnum : ComponentType → Bool
  | .enum _ => true
  | _ => false

/-- The names of the components, as types of the file would have them. -/
def Job.componentNames (job : Job) : List String :=
  (job.document.components.schemas.keys ++ job.document.components.requestBodies.keys).map
    job.messageName

/-- A component stands for an inline type of the name: it became a type of that name, or it is
being compiled and taken for a message. -/
inductive StandsIn (job : Job) (facts : Facts) (name : String) : ComponentType → Prop
  | schema {key : String} {result : ComponentType} (hname : job.messageName key = name)
      (hresult : facts.schemas.lookup key = some result)
      (hkind : result = .message name ∨ result = .enum name) : StandsIn job facts name result
  | body {key : String} {result : ComponentType} (hname : job.messageName key = name)
      (hresult : facts.bodies.lookup key = some result)
      (hkind : result = .message name ∨ result = .enum name) : StandsIn job facts name result
  | inProgress (hname : name ∈ job.componentNames) : StandsIn job facts name (.message name)

/-- How an inline type is nested: under its own name, under a free name, or not at all because a
component of its kind stands for it. -/
inductive NestedAs (job : Job) (facts : Facts) (parent : MessageDraft) (name : String)
    (isEnum : Bool) : Option String → Prop
  | own : NestedAs job facts parent name isEnum (some name)
  | stoodFor {result : ComponentType} (hstand : StandsIn job facts name result)
      (hkind : result.isEnum = isEnum) : NestedAs job facts parent name isEnum none
  | renamed {result : ComponentType} (file : FileDraft)
      (hstand : StandsIn job facts name result) (hkind : result.isEnum ≠ isEnum) :
      NestedAs job facts parent name isEnum
        (some (freeTypeName file parent name (if isEnum then "Enum" else "Message")))

/-- What `takeIn` may make of a child: the parent with the types that it gets, and the field. -/
inductive TakenIn (job : Job) (facts : Facts) (parent : MessageDraft) (fieldName : String)
    (child : MessageDraft) (allowRepeated : Bool) : MessageDraft × FieldDraft → Prop
  | enum {enum : EnumDraft} {name : String} (hcarried : child.carriedEnum? = some enum)
      (hnested : NestedAs job facts parent enum.name true (some name)) :
      TakenIn job facts parent fieldName child allowRepeated
        (parent.addEnum { enum with name }, .enum fieldName name)
  | enumComponent {enum : EnumDraft} (hcarried : child.carriedEnum? = some enum)
      (hnested : NestedAs job facts parent enum.name true none) :
      TakenIn job facts parent fieldName child allowRepeated (parent, .enum fieldName enum.name)
  | unwrapped {unwrapped : Unwrapped} (hcarried : child.carriedEnum? = none)
      (hrepeated : allowRepeated = true ∨ child.fields.any (·.repeated) = false)
      (hunwrap : child.unwrap? = some unwrapped) :
      TakenIn job facts parent fieldName child allowRepeated
        (unwrapped.enums.foldl MessageDraft.addEnum
          (unwrapped.messages.foldl MessageDraft.addMessage parent),
         unwrapped.field.rename fieldName)
  | message {name : String} (hcarried : child.carriedEnum? = none)
      (hnested : NestedAs job facts parent child.name false (some name)) :
      TakenIn job facts parent fieldName child allowRepeated
        (parent.addMessage { child with name }, .message fieldName name)
  | component (hcarried : child.carriedEnum? = none)
      (hnested : NestedAs job facts parent child.name false none) :
      TakenIn job facts parent fieldName child allowRepeated
        (parent, .message fieldName child.name)

/-- What stands in for a name does so later. -/
theorem StandsIn.mono {job : Job} {facts later : Facts} {name : String} {result : ComponentType}
    (h : StandsIn job facts name result) (hle : facts ≤ later) :
    StandsIn job later name result := by
  cases h with
  | schema hname hresult hkind =>
    exact .schema hname (lookup_of_extended hle.schemas hresult) hkind
  | body hname hresult hkind => exact .body hname (lookup_of_extended hle.bodies hresult) hkind
  | inProgress hname => exact .inProgress hname

/-- A name for a nested type stays justified later. -/
theorem NestedAs.mono {job : Job} {facts later : Facts} {parent : MessageDraft} {name : String}
    {isEnum : Bool} {result : Option String} (h : NestedAs job facts parent name isEnum result)
    (hle : facts ≤ later) : NestedAs job later parent name isEnum result := by
  cases h with
  | own => exact .own
  | stoodFor hstand hkind => exact .stoodFor (hstand.mono hle) hkind
  | renamed file hstand hkind => exact .renamed file (hstand.mono hle) hkind

/-- How a child was taken in stays justified later. -/
theorem TakenIn.mono {job : Job} {facts later : Facts} {parent child : MessageDraft}
    {fieldName : String} {allowRepeated : Bool} {result : MessageDraft × FieldDraft}
    (h : TakenIn job facts parent fieldName child allowRepeated result) (hle : facts ≤ later) :
    TakenIn job later parent fieldName child allowRepeated result := by
  cases h with
  | enum hcarried hnested => exact .enum hcarried (hnested.mono hle)
  | enumComponent hcarried hnested => exact .enumComponent hcarried (hnested.mono hle)
  | unwrapped hcarried hrepeated hunwrap => exact .unwrapped hcarried hrepeated hunwrap
  | message hcarried hnested => exact .message hcarried (hnested.mono hle)
  | component hcarried hnested => exact .component hcarried (hnested.mono hle)

/-! ### Slots -/

/-- A place for one field of a message. -/
inductive Slot where
  /-- A property, a parameter, or a body. -/
  | property (name : String) (required : Bool) (comment : Option String)
  /-- The item of a list of the given name. -/
  | item (list : String)
  /-- A variant of a union of the given name, in a oneof group. -/
  | variant (union : String) (index : Nat) (group : Int32)

namespace Slot

/-- The name of the field, where `type` is the name of the type that it gets. -/
def fieldName (slot : Slot) (type : String) : String :=
  match slot with
  | .property name _ _ => Identifier.fieldName name
  | .item list => Identifier.fieldName list
  | .variant _ _ _ => Identifier.fieldName type

/-- The name under which an inline schema in the slot is compiled. -/
def hint (slot : Slot) (job : Job) (schema : Schema) : String :=
  match slot with
  | .property name _ _ => job.messageName name
  | .item list => schema.title.getD (list ++ "Item")
  | .variant union index _ => schema.title.getD (union ++ "_" ++ toString (index + 1))

/-- May the field of a wrapper that is taken in be repeated? -/
def allowsRepeated : Slot → Bool
  | .property _ _ _ => true
  | .item _ => false
  | .variant _ _ _ => false

/-- What the slot sets on its field. -/
def set (slot : Slot) (description : Option String) (field : FieldDraft) : FieldDraft :=
  match slot with
  | .property _ _ comment => { field with comment := comment <|> description }
  | .item _ => { field with repeated := true }
  | .variant _ _ group => { field with oneof := some group }

/-- The parent with the field for a reference to a component. -/
def refer (slot : Slot) (parent : MessageDraft) : ComponentType → MessageDraft
  | .message type => parent.addField (slot.set none (.message (slot.fieldName type) type))
  | .enum type => parent.addField (slot.set none (.enum (slot.fieldName type) type))
  | .nothing => parent

end Slot

/-- How the presence of a scalar that is not required may be marked on its field. -/
inductive Presence (job : Job) (facts : Facts) (schema : Schema) (required : Bool)
    (field : FieldDraft) : FieldDraft → Prop
  | unmarked : Presence job facts schema required field field
  | held {holder : String} (hrequired : required = false) (hrepeated : field.repeated = false)
      (hscalar : field.isScalar = true) (hwrap : job.config.wrapPrimitives = true)
      (hholder : holder? field.type = some holder) (himport : wrappersFile ∈ facts.imports) :
      Presence job facts schema required field
        { field with type := .message, typeName := some holder }
  | optional (hrequired : required = false) (hrepeated : field.repeated = false)
      (hscalar : field.isScalar = true) (hnullable : schema.nullable = true)
      (hholder : job.config.wrapPrimitives = true → holder? field.type = none) :
      Presence job facts schema required field { field with optional := true }

/-- Only the field of a property is marked. -/
def Slot.Marks (slot : Slot) (job : Job) (facts : Facts) (schema : Schema)
    (field marked : FieldDraft) : Prop :=
  match slot with
  | .property _ required _ => Presence job facts schema required field marked
  | .item _ => marked = field
  | .variant _ _ _ => marked = field

/-- How a field was marked stays justified later. -/
theorem Presence.mono {job : Job} {facts later : Facts} {schema : Schema} {required : Bool}
    {field marked : FieldDraft} (h : Presence job facts schema required field marked)
    (hle : facts ≤ later) : Presence job later schema required field marked := by
  cases h with
  | unmarked => exact .unmarked
  | held hrequired hrepeated hscalar hwrap hholder himport =>
    exact .held hrequired hrepeated hscalar hwrap hholder (hle.imports _ himport)
  | optional hrequired hrepeated hscalar hnullable hholder =>
    exact .optional hrequired hrepeated hscalar hnullable hholder

/-- How a slot marks its field stays justified later. -/
theorem Slot.Marks.mono {slot : Slot} {job : Job} {facts later : Facts} {schema : Schema}
    {field marked : FieldDraft} (h : slot.Marks job facts schema field marked)
    (hle : facts ≤ later) : slot.Marks job later schema field marked := by
  cases slot with
  | property _ _ _ => exact Presence.mono h hle
  | item _ => exact h
  | variant _ _ _ => exact h

/-! ### Tasks and rules -/

/-- The slots of a message for the properties of a schema. -/
def propertySlots (properties : List (String × SchemaNode)) (required : List String) :
    List (Slot × SchemaNode) :=
  properties.map fun entry => (.property entry.1 (required.contains entry.1) none, entry.2)

/-- The message of a union before its variants come. -/
def unionStart (name : String) (schema : Schema) : MessageDraft :=
  ({ name, comment := schema.description } : MessageDraft).addOneof (Identifier.fieldName name)

/-- The slots of a union of the given name, which has one oneof group. -/
def variantSlots (name : String) (variants : List SchemaNode) : List (Slot × SchemaNode) :=
  variants.zipIdx.map fun variant =>
    (.variant name variant.2 (Draft.position 0), variant.1)

/-- What there is to do. -/
inductive Task where
  /-- To compile a node under a name. -/
  | node (hint : String) (node : SchemaNode)
  /-- To compile a schema under a name, unless it has a title. -/
  | schema (hint : String) (schema : Schema)
  /-- To compile a schema by its shape under a name. -/
  | shape (name : String) (schema : Schema)
  /-- To fill one slot of a message from a node. -/
  | slot (parent : MessageDraft) (slot : Slot) (node : SchemaNode)
  /-- To fill slots of a message one after the other. -/
  | slots (parent : MessageDraft) (slots : List (Slot × SchemaNode))
  /-- To add the members of a variant of `allOf` to a message. -/
  | absorb (draft : MessageDraft) (node : SchemaNode)
  /-- To add the members of several variants one after the other. -/
  | absorbAll (draft : MessageDraft) (nodes : List SchemaNode)

/-- The message that a task starts from. -/
def Task.start? : Task → Option MessageDraft
  | .slot parent _ _ => some parent
  | .slots parent _ => some parent
  | .absorb draft _ => some draft
  | .absorbAll draft _ => some draft
  | _ => none

/-- What a task may lead to. -/
inductive Derives (job : Job) (facts : Facts) : Task → Option MessageDraft → Prop
  | inline {hint : String} {schema : Schema} {compiled : Option MessageDraft}
      (h : Derives job facts (.schema hint schema) compiled) :
      Derives job facts (.node hint (.inline schema)) compiled
  | expanded {hint reference key : String} {target : SchemaNode} {compiled : Option MessageDraft}
      (hkey : Section.schemas.key? reference = some key)
      (htarget : job.document.components.schemas.find? key = some target)
      (h : Derives job facts (.node hint target) compiled) :
      Derives job facts (.node hint (.ref reference)) compiled
  | unordered {hint : String} {schema : Schema} {compiled : Option MessageDraft}
      (horder : compiled = none ∨ schema.propertyOrder = none)
      (h : Derives job facts (.shape (job.messageName (schema.title.getD hint)) schema) compiled) :
      Derives job facts (.schema hint schema) compiled
  | ordered {hint : String} {schema : Schema} {draft : MessageDraft} {order : List String}
      (h : Derives job facts (.shape (job.messageName (schema.title.getD hint)) schema)
        (some draft)) :
      Derives job facts (.schema hint schema) (some (draft.moveToFront order))
  | map {name : String} {schema : Schema} {value : SchemaNode} {compiled : Option MessageDraft}
      (hshape : schema.shape = .map value) (h : Derives job facts (.node name value) compiled) :
      Derives job facts (.shape name schema) compiled
  | enum {name : String} {schema : Schema} {literals : List Value} {draft : MessageDraft}
      {s s' : State} (hshape : schema.shape = .enum literals)
      (hrun : enumCarrier job name schema literals s = .ok draft s') :
      Derives job facts (.shape name schema) (some draft)
  | union {name : String} {schema : Schema} {variants : List SchemaNode}
      {compiled : Option MessageDraft}
      (hshape : schema.shape = .oneOf variants ∨ schema.shape = .anyOf variants)
      (h : Derives job facts (.slots (unionStart name schema) (variantSlots name variants))
        compiled) :
      Derives job facts (.shape name schema) compiled
  | combined {name : String} {schema : Schema} {variants : List SchemaNode}
      {properties : List (String × SchemaNode)} {required : List String} {merged : MessageDraft}
      {compiled : Option MessageDraft}
      (hshape : schema.shape = .allOf variants properties required)
      (hmerged : Derives job facts
        (.absorbAll { name, comment := schema.description } variants) (some merged))
      (h : Derives job facts (.slots merged (propertySlots properties required)) compiled) :
      Derives job facts (.shape name schema) compiled
  | scalar {name : String} {schema : Schema} {type : FieldType}
      (hshape : scalarType? schema.shape = some type) :
      Derives job facts (.shape name schema) (some (scalarWrapper name schema type))
  | bareList {name : String} {schema : Schema} (hshape : schema.shape = .array none) :
      Derives job facts (.shape name schema) none
  | list {name : String} {schema : Schema} {items : SchemaNode} {compiled : Option MessageDraft}
      (hshape : schema.shape = .array (some items))
      (h : Derives job facts
        (.slot { name, comment := schema.description, wrapper := true } (.item name) items)
        compiled) :
      Derives job facts (.shape name schema) compiled
  | object {name : String} {schema : Schema} {properties : List (String × SchemaNode)}
      {required : List String} {compiled : Option MessageDraft}
      (hshape : schema.shape = .object properties required)
      (h : Derives job facts
        (.slots { name, comment := schema.description } (propertySlots properties required))
        compiled) :
      Derives job facts (.shape name schema) compiled
  | any {name : String} {schema : Schema} (hshape : schema.shape = .any) :
      Derives job facts (.shape name schema) none
  | slotsNil {parent : MessageDraft} : Derives job facts (.slots parent []) (some parent)
  | slotsCons {parent filled : MessageDraft} {slot : Slot} {node : SchemaNode}
      {rest : List (Slot × SchemaNode)} {compiled : Option MessageDraft}
      (hfirst : Derives job facts (.slot parent slot node) (some filled))
      (h : Derives job facts (.slots filled rest) compiled) :
      Derives job facts (.slots parent ((slot, node) :: rest)) compiled
  | reference {parent : MessageDraft} {slot : Slot} {reference : String} {result : ComponentType}
      (hnames : facts.Names job reference result) :
      Derives job facts (.slot parent slot (.ref reference)) (some (slot.refer parent result))
  | skipped {parent : MessageDraft} {slot : Slot} {schema : Schema}
      {compiled : Option MessageDraft} (hempty : compiled.filter (!·.isEmpty) = none)
      (h : Derives job facts (.schema (slot.hint job schema) schema) compiled) :
      Derives job facts (.slot parent slot (.inline schema)) (some parent)
  | taken {parent child grown : MessageDraft} {slot : Slot} {schema : Schema}
      {field marked : FieldDraft} (hchild : child.isEmpty = false)
      (htaken : TakenIn job facts parent (slot.fieldName child.name) child slot.allowsRepeated
        (grown, field))
      (hmarks : slot.Marks job facts schema field marked)
      (h : Derives job facts (.schema (slot.hint job schema) schema) (some child)) :
      Derives job facts (.slot parent slot (.inline schema))
        (some (grown.addField (slot.set schema.description marked)))
  | absorbNil {draft : MessageDraft} : Derives job facts (.absorbAll draft []) (some draft)
  | absorbCons {draft merged : MessageDraft} {node : SchemaNode} {rest : List SchemaNode}
      {compiled : Option MessageDraft}
      (hfirst : Derives job facts (.absorb draft node) (some merged))
      (h : Derives job facts (.absorbAll merged rest) compiled) :
      Derives job facts (.absorbAll draft (node :: rest)) compiled
  | absorbReference {draft : MessageDraft} {reference key : String} {target : SchemaNode}
      {compiled : Option MessageDraft} (hkey : Section.schemas.key? reference = some key)
      (htarget : job.document.components.schemas.find? key = some target)
      (h : Derives job facts (.absorb draft target) compiled) :
      Derives job facts (.absorb draft (.ref reference)) compiled
  | ignored {draft : MessageDraft} {schema : Schema} (hobject : schema.isObject = false) :
      Derives job facts (.absorb draft (.inline schema)) (some draft)
  | absorbNothing {draft : MessageDraft} {schema : Schema} (hobject : schema.isObject = true)
      (h : Derives job facts (.schema draft.name schema) none) :
      Derives job facts (.absorb draft (.inline schema)) (some draft)
  | merged {draft child : MessageDraft} {schema : Schema} (hobject : schema.isObject = true)
      (h : Derives job facts (.schema draft.name schema) (some child)) :
      Derives job facts (.absorb draft (.inline schema)) (some (draft.merge child))

/-- A derivation stands when more becomes known. -/
theorem Derives.mono {job : Job} {facts later : Facts} {task : Task}
    {compiled : Option MessageDraft} (h : Derives job facts task compiled)
    (hle : facts ≤ later) : Derives job later task compiled := by
  -- only references, stand-ins and imports ask what is known; the other rules carry over
  induction h with
  | inline _ ih => exact .inline ih
  | expanded hkey htarget _ ih => exact .expanded hkey htarget ih
  | unordered horder _ ih => exact .unordered horder ih
  | ordered _ ih => exact .ordered ih
  | map hshape _ ih => exact .map hshape ih
  | enum hshape hrun => exact .enum hshape hrun
  | union hshape _ ih => exact .union hshape ih
  | combined hshape _ _ ihmerged ih => exact .combined hshape ihmerged ih
  | scalar hshape => exact .scalar hshape
  | bareList hshape => exact .bareList hshape
  | list hshape _ ih => exact .list hshape ih
  | object hshape _ ih => exact .object hshape ih
  | any hshape => exact .any hshape
  | slotsNil => exact .slotsNil
  | slotsCons _ _ ihfirst ih => exact .slotsCons ihfirst ih
  | reference hnames => exact .reference (hnames.mono hle)
  | skipped hempty _ ih => exact .skipped hempty ih
  | taken hchild htaken hmarks _ ih =>
    exact .taken hchild (htaken.mono hle) (hmarks.mono hle) ih
  | absorbNil => exact .absorbNil
  | absorbCons _ _ ihfirst ih => exact .absorbCons ihfirst ih
  | absorbReference hkey htarget _ ih => exact .absorbReference hkey htarget ih
  | ignored hobject => exact .ignored hobject
  | absorbNothing hobject _ ih => exact .absorbNothing hobject ih
  | merged hobject _ ih => exact .merged hobject ih

/-- Slots can be filled in two parts. -/
theorem Derives.slots_append {job : Job} {facts : Facts} {parent middle : MessageDraft}
    {front rest : List (Slot × SchemaNode)} {compiled : Option MessageDraft}
    (hfront : Derives job facts (.slots parent front) (some middle))
    (h : Derives job facts (.slots middle rest) compiled) :
    Derives job facts (.slots parent (front ++ rest)) compiled := by
  induction front generalizing parent with
  | nil =>
    cases hfront
    exact h
  | cons entry others ih =>
    cases hfront with
    | slotsCons hfirst hothers => exact .slotsCons hfirst (ih hothers)

end Protoscribe.Compile
