import Protoscribe.Proofs.Compile.Marked
import Protoscribe.Proofs.Draft.FieldPlaces

/-!
# `Protoscribe.Proofs.Compile.Accepted`: where the marked fields of a message were accepted

A mark for presence is made where a field is accepted for a member that may be missing, and the
field travels on from there. `Accepted` follows it through the derivation of a message: from the
slot that it was accepted for, past the slots that are filled later, into the messages that its
message is nested in or merged into. So it speaks of the message that the field is in at the end,
and of the schema that this message was derived from. The slots say whether a member has to be
there: `propertySlots` looks into the list of the schema that declares the property, and
`parameterSlots` asks the parameter.

`Derives.accepted` says that every marked field of a derived message was accepted in it, unless the
task started from a message that had it. `AcceptedIn` continues a trace up to the components and
operations of the description, and `Sourced.acceptedIn` finds one for every marked field of a file.
-/

set_option autoImplicit false

namespace Protoscribe.Compile

open MessageDraft (FieldAt Vacant)
open OpenApi (Endpoint Operation Parameter PathItem Referable RequestBody Response Schema SchemaNode
  Section Verb)

/-! ### Traces -/

/-- Where the task leads to the message, the field at the place was accepted on the way, for a
property that does not have to be there. -/
inductive Accepted (job : Job) (facts : Facts) :
    Task → MessageDraft → List String → FieldDraft → Prop
  /-- The field comes in, under a name that is free. It stands for the child that the inline schema
  of the slot was compiled to. -/
  | property {parent child grown : MessageDraft} {name : String} {comment : Option String}
      {schema : Schema} {field marked : FieldDraft} (hchild : child.isEmpty = false)
      (htaken : TakenIn job facts parent (Identifier.fieldName name) child true (grown, field))
      (hpresence : Presence job facts schema false field marked)
      (hvacant : grown.hasField (Identifier.fieldName name) = false)
      (h : Derives job facts (.schema (job.messageName name) schema) (some child)) :
      Accepted job facts (.slot parent (.property name false comment) (.inline schema))
        (grown.addField { marked with comment := comment <|> schema.description }) []
        { marked with comment := comment <|> schema.description }
  /-- The message of the field is nested for another slot. -/
  | nested {parent child : MessageDraft} {slot : Slot} {schema : Schema} {name : String}
      {marked accepted : FieldDraft} {path : List String} (hchild : child.isEmpty = false)
      (hcarried : child.carriedEnum? = none)
      (hnested : NestedAs job facts parent child.name false (some name))
      (hmarks : slot.Marks job facts schema (.message (slot.fieldName child.name) name) marked)
      (hvacant : parent.hasNestedType name = false)
      (h : Accepted job facts (.schema (slot.hint job schema) schema) child path accepted) :
      Accepted job facts (.slot parent slot (.inline schema))
        ((parent.addMessage { child with name }).addField (slot.set schema.description marked))
        (name :: path) accepted
  /-- The message of the field moves out of a wrapper. -/
  | hoisted {parent child : MessageDraft} {slot : Slot} {schema : Schema} {unwrapped : Unwrapped}
      {marked accepted : FieldDraft} {path : List String} (hchild : child.isEmpty = false)
      (hcarried : child.carriedEnum? = none)
      (hrepeated : slot.allowsRepeated = true ∨ child.fields.any (·.repeated) = false)
      (hunwrap : child.unwrap? = some unwrapped)
      (hmarks : slot.Marks job facts schema
        (unwrapped.field.rename (slot.fieldName child.name)) marked)
      (hdeeper : path ≠ []) (hvacant : parent.Vacant path accepted)
      (h : Accepted job facts (.schema (slot.hint job schema) schema) child path accepted) :
      Accepted job facts (.slot parent slot (.inline schema))
        ((parent.nestAll unwrapped.messages unwrapped.enums).addField
          (slot.set schema.description marked)) path accepted
  /-- The field goes along into a message that is merged with its own. -/
  | merged {draft child : MessageDraft} {schema : Schema} {path : List String} {field : FieldDraft}
      (hobject : schema.isObject = true) (hvacant : draft.Vacant path field)
      (h : Accepted job facts (.schema draft.name schema) child path field) :
      Accepted job facts (.absorb draft (.inline schema)) (draft.merge child) path field
  | absorbReference {draft merged : MessageDraft} {reference key : String} {target : SchemaNode}
      {path : List String} {field : FieldDraft} (hkey : Section.schemas.key? reference = some key)
      (htarget : job.document.components.schemas.find? key = some target)
      (h : Accepted job facts (.absorb draft target) merged path field) :
      Accepted job facts (.absorb draft (.ref reference)) merged path field
  | firstVariant {draft merged full : MessageDraft} {node : SchemaNode} {rest : List SchemaNode}
      {path : List String} {field : FieldDraft}
      (h : Accepted job facts (.absorb draft node) merged path field)
      (hrest : Derives job facts (.absorbAll merged rest) (some full)) :
      Accepted job facts (.absorbAll draft (node :: rest)) full path field
  | laterVariant {draft merged full : MessageDraft} {node : SchemaNode} {rest : List SchemaNode}
      {path : List String} {field : FieldDraft}
      (hfirst : Derives job facts (.absorb draft node) (some merged))
      (h : Accepted job facts (.absorbAll merged rest) full path field) :
      Accepted job facts (.absorbAll draft (node :: rest)) full path field
  | firstSlot {parent filled full : MessageDraft} {slot : Slot} {node : SchemaNode}
      {rest : List (Slot × SchemaNode)} {path : List String} {field : FieldDraft}
      (h : Accepted job facts (.slot parent slot node) filled path field)
      (hrest : Derives job facts (.slots filled rest) (some full)) :
      Accepted job facts (.slots parent ((slot, node) :: rest)) full path field
  | laterSlot {parent filled full : MessageDraft} {slot : Slot} {node : SchemaNode}
      {rest : List (Slot × SchemaNode)} {path : List String} {field : FieldDraft}
      (hfirst : Derives job facts (.slot parent slot node) (some filled))
      (h : Accepted job facts (.slots filled rest) full path field) :
      Accepted job facts (.slots parent ((slot, node) :: rest)) full path field
  | object {name : String} {schema : Schema} {properties : List (String × SchemaNode)}
      {required : List String} {draft : MessageDraft} {path : List String} {field : FieldDraft}
      (hshape : schema.shape = .object properties required)
      (h : Accepted job facts
        (.slots { name, comment := schema.description } (propertySlots properties required))
        draft path field) : Accepted job facts (.shape name schema) draft path field
  | variant {name : String} {schema : Schema} {variants : List SchemaNode}
      {properties : List (String × SchemaNode)} {required : List String}
      {merged draft : MessageDraft} {path : List String} {field : FieldDraft}
      (hshape : schema.shape = .allOf variants properties required)
      (h : Accepted job facts (.absorbAll { name, comment := schema.description } variants) merged
        path field)
      (hslots : Derives job facts (.slots merged (propertySlots properties required))
        (some draft)) : Accepted job facts (.shape name schema) draft path field
  | member {name : String} {schema : Schema} {variants : List SchemaNode}
      {properties : List (String × SchemaNode)} {required : List String}
      {merged draft : MessageDraft} {path : List String} {field : FieldDraft}
      (hshape : schema.shape = .allOf variants properties required)
      (hmerged : Derives job facts (.absorbAll { name, comment := schema.description } variants)
        (some merged))
      (h : Accepted job facts (.slots merged (propertySlots properties required)) draft path
        field) : Accepted job facts (.shape name schema) draft path field
  | union {name : String} {schema : Schema} {variants : List SchemaNode} {draft : MessageDraft}
      {path : List String} {field : FieldDraft}
      (hshape : schema.shape = .oneOf variants ∨ schema.shape = .anyOf variants)
      (h : Accepted job facts (.slots (unionStart name schema) (variantSlots name variants)) draft
        path field) : Accepted job facts (.shape name schema) draft path field
  | list {name : String} {schema : Schema} {items : SchemaNode} {draft : MessageDraft}
      {path : List String} {field : FieldDraft} (hshape : schema.shape = .array (some items))
      (h : Accepted job facts
        (.slot { name, comment := schema.description, wrapper := true } (.item name) items) draft
        path field) : Accepted job facts (.shape name schema) draft path field
  | map {name : String} {schema : Schema} {value : SchemaNode} {draft : MessageDraft}
      {path : List String} {field : FieldDraft} (hshape : schema.shape = .map value)
      (h : Accepted job facts (.node name value) draft path field) :
      Accepted job facts (.shape name schema) draft path field
  | unordered {hint : String} {schema : Schema} {draft : MessageDraft} {path : List String}
      {field : FieldDraft} (horder : schema.propertyOrder = none)
      (h : Accepted job facts (.shape (job.messageName (schema.title.getD hint)) schema) draft path
        field) : Accepted job facts (.schema hint schema) draft path field
  | ordered {hint : String} {schema : Schema} {draft : MessageDraft} {order : List String}
      {path : List String} {field : FieldDraft}
      (h : Accepted job facts (.shape (job.messageName (schema.title.getD hint)) schema) draft path
        field) : Accepted job facts (.schema hint schema) (draft.moveToFront order) path field
  | inline {hint : String} {schema : Schema} {draft : MessageDraft} {path : List String}
      {field : FieldDraft} (h : Accepted job facts (.schema hint schema) draft path field) :
      Accepted job facts (.node hint (.inline schema)) draft path field
  | expanded {hint reference key : String} {target : SchemaNode} {draft : MessageDraft}
      {path : List String} {field : FieldDraft} (hkey : Section.schemas.key? reference = some key)
      (htarget : job.document.components.schemas.find? key = some target)
      (h : Accepted job facts (.node hint target) draft path field) :
      Accepted job facts (.node hint (.ref reference)) draft path field

variable {job : Job} {facts : Facts} {task : Task} {draft : MessageDraft} {path : List String}
  {field : FieldDraft}

/-- A trace belongs to a derivation of the message. -/
theorem Accepted.derives (h : Accepted job facts task draft path field) :
    Derives job facts task (some draft) := by
  -- a trace marks one of the premises at every step
  induction h with
  | property hchild htaken hpresence _ h => exact .taken hchild htaken hpresence h
  | nested hchild hcarried hnested hmarks _ _ ih =>
    exact .taken hchild (.message hcarried hnested) hmarks ih
  | hoisted hchild hcarried hrepeated hunwrap hmarks _ _ _ ih =>
    exact .taken hchild (.unwrapped hcarried hrepeated hunwrap) hmarks ih
  | merged hobject _ _ ih => exact .merged hobject ih
  | absorbReference hkey htarget _ ih => exact .absorbReference hkey htarget ih
  | firstVariant _ hrest ih => exact .absorbCons ih hrest
  | laterVariant hfirst _ ih => exact .absorbCons hfirst ih
  | firstSlot _ hrest ih => exact .slotsCons ih hrest
  | laterSlot hfirst _ ih => exact .slotsCons hfirst ih
  | object hshape _ ih => exact .object hshape ih
  | variant hshape _ hslots ih => exact .combined hshape ih hslots
  | member hshape hmerged _ ih => exact .combined hshape hmerged ih
  | union hshape _ ih => exact .union hshape ih
  | list hshape _ ih => exact .list hshape ih
  | map hshape _ ih => exact .map hshape ih
  | unordered horder _ ih => exact .unordered (.inr horder) ih
  | ordered _ ih => exact .ordered ih
  | inline _ ih => exact .inline ih
  | expanded hkey htarget _ ih => exact .expanded hkey htarget ih

/-- An accepted field is in no oneof group. -/
theorem Accepted.ungrouped (h : Accepted job facts task draft path field) :
    field.oneof = none := by
  induction h with
  | property _ htaken hpresence _ _ =>
    have hungrouped := htaken.field_eq.2.2.2.1
    cases hpresence <;> exact hungrouped
  | _ => assumption

/-! ### Marked fields of a derivation -/

section

variable {parent child grown : MessageDraft} {slot : Slot} {schema : Schema}
  {marked accepted : FieldDraft}

/-- What comes in with a child that is taken in was there before, or it was accepted in the
child. -/
theorem Accepted.of_grown (hchild : child.isEmpty = false)
    (htaken : TakenIn job facts parent (slot.fieldName child.name) child slot.allowsRepeated
      (grown, field))
    (hmarks : slot.Marks job facts schema field marked)
    (hat : FieldAt grown path accepted)
    (ih : ∀ path, FieldAt child path accepted →
      Accepted job facts (.schema (slot.hint job schema) schema) child path accepted) :
    FieldAt parent path accepted ∨
      Accepted job facts (.slot parent slot (.inline schema))
        (grown.addField (slot.set schema.description marked)) path accepted := by
  cases htaken with
  | enum _ _ => exact .inl hat.of_addEnum
  | enumComponent _ _ => exact .inl hat
  | unwrapped hcarried hrepeated hunwrap =>
    obtain ⟨-, -, hmessages, henums⟩ := MessageDraft.unwrap?_eq_some hunwrap
    have hat : FieldAt (parent.nestAll child.messages child.enums) path accepted := by
      rwa [← hmessages, ← henums]
    refine hat.of_nestAll.imp_right ?_
    rintro ⟨hdeeper, hbelow, hvacant⟩
    exact .hoisted hchild hcarried hrepeated hunwrap hmarks hdeeper hvacant (ih path hbelow)
  | message hcarried hnested =>
    refine hat.of_addMessage.imp_right ?_
    rintro ⟨rest, rfl, hbelow, hvacant⟩
    -- under the other name the message has the same fields
    exact .nested hchild hcarried hnested hmarks hvacant (ih rest (hbelow.of_same rfl rfl))
  | component _ _ => exact .inl hat

/-- The field that comes in for a child was accepted there, if it is marked. -/
theorem Accepted.of_marked (hchild : child.isEmpty = false)
    (htaken : TakenIn job facts parent (slot.fieldName child.name) child slot.allowsRepeated
      (grown, field))
    (hmarks : slot.Marks job facts schema field marked)
    (hderives : Derives job facts (.schema (slot.hint job schema) schema) (some child))
    (hfield : Unmarked field) (hmarked : ¬ Unmarked (slot.set schema.description marked))
    (hvacant : grown.Vacant [] (slot.set schema.description marked)) :
    Accepted job facts (.slot parent slot (.inline schema))
      (grown.addField (slot.set schema.description marked)) []
      (slot.set schema.description marked) := by
  -- only a slot for a property sets a mark
  have hchanged : marked ≠ field := fun heq => hmarked (heq ▸ hfield.set slot _)
  cases slot with
  | item _ => exact absurd hmarks hchanged
  | variant _ _ _ => exact absurd hmarks hchanged
  | property name required comment =>
    have hpresence : Presence job facts schema required field marked := hmarks
    obtain rfl : required = false := by
      cases hpresence with
      | unmarked => exact absurd rfl hchanged
      | held hrequired => exact hrequired
      | optional hrequired => exact hrequired
    have hname : marked.name = Identifier.fieldName name := by
      have hname := htaken.field_eq.2.2.1
      cases hpresence <;> exact hname
    exact .property hchild htaken hpresence (hname ▸ hvacant) hderives

/-- A field for a reference has no mark, and the others were there before. -/
theorem Slot.refer_fieldAt {result : ComponentType}
    (hplain : ∀ type, result = .message type ∨ result = .enum type → Plain type)
    (hmarked : ¬ Unmarked field) (hat : FieldAt (slot.refer parent result) path field) :
    FieldAt parent path field := by
  cases result with
  | message type =>
    refine hat.of_addField.resolve_right ?_
    rintro ⟨-, rfl, -⟩
    exact hmarked ((Unmarked.named (hplain type (.inl rfl))).set slot none)
  | enum type =>
    refine hat.of_addField.resolve_right ?_
    rintro ⟨-, rfl, -⟩
    exact hmarked ((Unmarked.named (hplain type (.inr rfl))).set slot none)
  | nothing => exact hat

/-- A marked field of a merged message was there before, or it comes along as it is from the other
message, where it was accepted. -/
theorem Accepted.of_merge {other : MessageDraft} (hmarked : ¬ Unmarked field)
    (hat : FieldAt (draft.merge other) path field)
    (hother : ∀ field, ¬ Unmarked field → FieldAt other path field →
      Accepted job facts task other path field) :
    FieldAt draft path field ∨
      draft.Vacant path field ∧ Accepted job facts task other path field := by
  refine hat.of_merge.imp_right ?_
  rintro ⟨original, horiginal, hvacant, rfl | rfl⟩
  · exact ⟨hvacant, hother _ hmarked horiginal⟩
  · have haccepted := hother original
      (fun hunmarked => hmarked ⟨hunmarked.optional, hunmarked.type⟩) horiginal
    -- a field in no group does not change
    rw [draft.shift_eq_self haccepted.ungrouped]
    exact ⟨hvacant, haccepted⟩

end

/-- Every marked field of a derived message was accepted in it, or it is one of the message that the
task started from. -/
theorem Derives.accepted
    (hplain : ∀ reference result, facts.Names job reference result →
      ∀ type, result = .message type ∨ result = .enum type → Plain type)
    {compiled : Option MessageDraft} (h : Derives job facts task compiled) :
    ∀ draft ∈ compiled, ∀ path field, ¬ Unmarked field → FieldAt draft path field →
      Accepted job facts task draft path field ∨
        ∃ start ∈ task.start?, FieldAt start path field := by
  have hnothing : ∀ {path : List String} {field : FieldDraft},
      ¬ ∃ draft ∈ (none : Option MessageDraft), FieldAt draft path field := by
    simp
  have hfresh : ∀ {start : MessageDraft} {path : List String} {field : FieldDraft},
      start.fields = [] → start.messages = [] → ¬ ∃ draft ∈ some start, FieldAt draft path field := by
    rintro start path field hfields hmessages ⟨_, ⟨⟩, hat⟩
    exact hat.false_of_nil hfields hmessages
  -- by the rules of the derivation
  induction h with
  | inline _ ih =>
    intro draft hdraft path field hmarked hat
    exact .inl (.inline ((ih draft hdraft path field hmarked hat).resolve_right hnothing))
  | expanded hkey htarget _ ih =>
    intro draft hdraft path field hmarked hat
    exact .inl (.expanded hkey htarget
      ((ih draft hdraft path field hmarked hat).resolve_right hnothing))
  | unordered horder _ ih =>
    rintro draft ⟨⟩ path field hmarked hat
    exact .inl (.unordered (horder.resolve_left (by simp))
      ((ih draft rfl path field hmarked hat).resolve_right hnothing))
  | ordered _ ih =>
    rintro _ ⟨⟩ path field hmarked hat
    exact .inl (.ordered ((ih _ rfl path field hmarked hat.of_moveToFront).resolve_right hnothing))
  | map hshape _ ih =>
    intro draft hdraft path field hmarked hat
    exact .inl (.map hshape ((ih draft hdraft path field hmarked hat).resolve_right hnothing))
  | enum _ hrun =>
    rintro _ ⟨⟩ path field - hat
    obtain ⟨⟨enum, -, rfl⟩, -⟩ := enumCarrier_eq_ok hrun
    exact (hat.false_of_nil rfl rfl).elim
  | union hshape _ ih =>
    intro draft hdraft path field hmarked hat
    exact .inl (.union hshape
      ((ih draft hdraft path field hmarked hat).resolve_right (hfresh rfl rfl)))
  | combined hshape hmerged hslots ihmerged ih =>
    rintro draft ⟨⟩ path field hmarked hat
    rcases ih draft rfl path field hmarked hat with haccepted | ⟨_, ⟨⟩, hat⟩
    · exact .inl (.member hshape hmerged haccepted)
    · exact .inl (.variant hshape
        ((ihmerged _ rfl path field hmarked hat).resolve_right (hfresh rfl rfl)) hslots)
  | scalar _ =>
    rintro _ ⟨⟩ path field hmarked hat
    rcases hat.of_addField with hat | ⟨-, rfl, -⟩
    · exact (hat.false_of_nil rfl rfl).elim
    · refine absurd ⟨rfl, ?_⟩ hmarked
      rintro ⟨_, _, -, hnone⟩
      cases hnone
  | bareList _ | any _ => simp
  | list hshape _ ih =>
    intro draft hdraft path field hmarked hat
    exact .inl (.list hshape
      ((ih draft hdraft path field hmarked hat).resolve_right (hfresh rfl rfl)))
  | object hshape _ ih =>
    intro draft hdraft path field hmarked hat
    exact .inl (.object hshape
      ((ih draft hdraft path field hmarked hat).resolve_right (hfresh rfl rfl)))
  | slotsCons hfirst hrest ihfirst ih =>
    rintro draft ⟨⟩ path field hmarked hat
    rcases ih draft rfl path field hmarked hat with haccepted | ⟨_, ⟨⟩, hat⟩
    · exact .inl (.laterSlot hfirst haccepted)
    · exact (ihfirst _ rfl path field hmarked hat).imp_left (.firstSlot · hrest)
  | absorbCons hfirst hrest ihfirst ih =>
    rintro draft ⟨⟩ path field hmarked hat
    rcases ih draft rfl path field hmarked hat with haccepted | ⟨_, ⟨⟩, hat⟩
    · exact .inl (.laterVariant hfirst haccepted)
    · exact (ihfirst _ rfl path field hmarked hat).imp_left (.firstVariant · hrest)
  | reference hnames =>
    rintro _ ⟨⟩ path field hmarked hat
    exact .inr ⟨_, rfl, Slot.refer_fieldAt (hplain _ _ hnames) hmarked hat⟩
  | taken hchild htaken hmarks hderives ih =>
    rintro _ ⟨⟩ path field hmarked hat
    have hnamed := hderives.everywhere (wellNamed_stable job facts) trivial (by simp [Task.start?])
      _ rfl
    have hwell := hderives.wellMarked hplain trivial (by simp [Task.start?]) _ rfl
    rcases hat.of_addField with hat | ⟨rfl, rfl, hvacant⟩
    · have hgrown := Accepted.of_grown hchild htaken hmarks hat fun path hat =>
        (ih _ rfl path field hmarked hat).resolve_right hnothing
      exact hgrown.symm.imp_right fun hat => ⟨_, rfl, hat⟩
    · exact .inl (.of_marked hchild htaken hmarks hderives (htaken.unmarked hnamed.here hwell.here)
        hmarked hvacant)
  | absorbReference hkey htarget _ ih =>
    intro draft hdraft path field hmarked hat
    exact (ih draft hdraft path field hmarked hat).imp_left (.absorbReference hkey htarget)
  | slotsNil | skipped | absorbNil | ignored | absorbNothing =>
    -- the message is the one that the task starts from
    rintro _ ⟨⟩ path field - hat
    exact .inr ⟨_, rfl, hat⟩
  | merged hobject _ ih =>
    rintro _ ⟨⟩ path field hmarked hat
    have hcases := Accepted.of_merge hmarked hat fun field hmarked hat =>
      (ih _ rfl path field hmarked hat).resolve_right hnothing
    rcases hcases with hat | ⟨hvacant, haccepted⟩
    · exact .inr ⟨_, rfl, hat⟩
    · exact .inl (.merged hobject hvacant haccepted)

/-! ### Files -/

/-- What a payload makes of a message has the field at the place, and the field was accepted on the
way. -/
inductive Lent (job : Job) (facts : Facts) (message : MessageDraft) (field : String)
    (required : Bool) : SchemaNode → MessageDraft → List String → FieldDraft → Prop
  | member {node : SchemaNode} {filled : MessageDraft} {path : List String} {accepted : FieldDraft}
      (hsingle : ∀ schema, node = .inline schema → schema.isObject = false)
      (h : Accepted job facts (.slot message (.property field required none) node) filled path
        accepted) : Lent job facts message field required node filled path accepted
  | merged {schema : Schema} {compiled : MessageDraft} {path : List String} {accepted : FieldDraft}
      (hobject : schema.isObject = true) (hvacant : message.Vacant path accepted)
      (h : Accepted job facts (.schema message.name schema) compiled path accepted) :
      Lent job facts message field required (.inline schema)
        (({ message with comment := message.comment <|> compiled.comment }).merge compiled) path
        accepted

/-- The request message of the given name has the field at the place, and the field was accepted for
a parameter or for the body. -/
inductive AcceptedInRequest (job : Job) (facts : Facts) (name : String) (item : PathItem)
    (operation : Operation) : MessageDraft → List String → FieldDraft → Prop
  | bodiless {entries : List (Slot × SchemaNode)} {request : MessageDraft} {path : List String}
      {field : FieldDraft} (hentries : ParameterSlots job.document item operation entries)
      (h : Accepted job facts (.slots { name } entries) request path field)
      (hbody : ∀ body, BodyOf job.document operation body → body.content.jsonSchema? = none) :
      AcceptedInRequest job facts name item operation request path field
  | parameter {entries : List (Slot × SchemaNode)} {parameters request : MessageDraft}
      {body : RequestBody} {node : SchemaNode} {path : List String} {field : FieldDraft}
      (hentries : ParameterSlots job.document item operation entries)
      (h : Accepted job facts (.slots { name } entries) parameters path field)
      (hbody : BodyOf job.document operation body) (hschema : body.content.jsonSchema? = some node)
      (hlends : Lends job facts parameters "body" body.required node request) :
      AcceptedInRequest job facts name item operation request path field
  | body {entries : List (Slot × SchemaNode)} {parameters request : MessageDraft}
      {body : RequestBody} {node : SchemaNode} {path : List String} {field : FieldDraft}
      (hentries : ParameterSlots job.document item operation entries)
      (hslots : Derives job facts (.slots { name } entries) (some parameters))
      (hbody : BodyOf job.document operation body) (hschema : body.content.jsonSchema? = some node)
      (h : Lent job facts parameters "body" body.required node request path field) :
      AcceptedInRequest job facts name item operation request path field

/-- A message of a file has the field at the place, and the field was accepted where the message was
put together: for a component, or for the request or the response of an endpoint that is given. -/
inductive AcceptedIn (job : Job) (facts : Facts) (among : Endpoint → Prop) :
    MessageDraft → List String → FieldDraft → Prop
  | schema {key : String} {node : SchemaNode} {draft : MessageDraft} {path : List String}
      {field : FieldDraft} (hnode : job.document.components.schemas.find? key = some node)
      (h : Accepted job facts (.node (job.messageName key) node) draft path field) :
      AcceptedIn job facts among draft path field
  | body {key : String} {definition : Referable RequestBody} {body : RequestBody} {schema : Schema}
      {draft : MessageDraft} {path : List String} {field : FieldDraft} (comment : Option String)
      (hdefinition : job.document.components.requestBodies.find? key = some definition)
      (hleads : LeadsTo .requestBodies job.document.components.requestBodies definition body)
      (hschema : body.content.jsonSchema? = some (.inline schema))
      (h : Accepted job facts (.schema (job.messageName key) schema) draft path field) :
      AcceptedIn job facts among { draft with comment } path field
  | request {target : String} {item : PathItem} {verb : Verb} {operation : Operation}
      {draft : MessageDraft} {path : List String} {field : FieldDraft}
      (hamong : among ⟨target, verb, operation⟩)
      (hitem : (target, item) ∈ job.document.paths.entries)
      (hoperation : (verb, operation) ∈ item.operations)
      (h : AcceptedInRequest job facts (job.methodName target verb ++ "Request") item operation
        draft path field) : AcceptedIn job facts among draft path field
  | response {target : String} {item : PathItem} {verb : Verb} {operation : Operation}
      {response : Response} {node : SchemaNode} {draft : MessageDraft} {path : List String}
      {field : FieldDraft} (hamong : among ⟨target, verb, operation⟩)
      (hitem : (target, item) ∈ job.document.paths.entries)
      (hoperation : (verb, operation) ∈ item.operations)
      (hresponse : SuccessOf job.document operation response)
      (hschema : response.content.jsonSchema? = some node)
      (h : Lent job facts
        { name := job.methodName target verb ++ "Response", comment := response.description }
        "result" true node draft path field) : AcceptedIn job facts among draft path field

/-- A trace tells what the payload makes of the message. -/
theorem Lent.lends {message filled : MessageDraft} {name : String} {required : Bool}
    {node : SchemaNode} (h : Lent job facts message name required node filled path field) :
    Lends job facts message name required node filled := by
  cases h with
  | member hsingle h => exact .member hsingle h.derives
  | merged hobject _ h => exact .merged hobject h.derives

/-- A trace tells how the request is put together. -/
theorem AcceptedInRequest.requestFrom {name : String} {item : PathItem} {operation : Operation}
    (h : AcceptedInRequest job facts name item operation draft path field) :
    RequestFrom job facts name item operation draft := by
  cases h with
  | bodiless hentries h hbody => exact .bodiless hentries h.derives hbody
  | parameter hentries h hbody hschema hlends =>
    exact .body hentries h.derives hbody hschema hlends
  | body hentries hslots hbody hschema h => exact .body hentries hslots hbody hschema h.lends

/-- A trace tells where the message comes from. -/
theorem AcceptedIn.sourced {among : Endpoint → Prop}
    (h : AcceptedIn job facts among draft path field) : Sourced job facts among draft := by
  cases h with
  | schema hnode h => exact .schema hnode h.derives
  | body comment hdefinition hleads hschema h =>
    exact .body comment hdefinition hleads hschema h.derives
  | request hamong hitem hoperation h =>
    exact .payload hamong (.request hitem hoperation h.requestFrom)
  | response hamong hitem hoperation hresponse hschema h =>
    exact .payload hamong (.response hitem hoperation (.body hresponse hschema h.lends))

section

variable
  (hplain : ∀ reference result, facts.Names job reference result →
    ∀ type, result = .message type ∨ result = .enum type → Plain type)
include hplain

/-- Where a task starts from nothing, every marked field was accepted. -/
theorem Derives.accepted_of_none (h : Derives job facts task (some draft))
    (hstart : task.start? = none) (hmarked : ¬ Unmarked field) (hat : FieldAt draft path field) :
    Accepted job facts task draft path field :=
  (h.accepted hplain _ rfl path field hmarked hat).resolve_right (by simp [hstart])

/-- A marked field was lent by the payload, or the message had it before. -/
theorem Lends.lent {message filled : MessageDraft} {name : String} {required : Bool}
    {node : SchemaNode} (h : Lends job facts message name required node filled)
    (hmarked : ¬ Unmarked field) (hat : FieldAt filled path field) :
    Lent job facts message name required node filled path field ∨ FieldAt message path field := by
  cases h with
  | member hsingle hslot =>
    rcases hslot.accepted hplain _ rfl path field hmarked hat with haccepted | ⟨_, ⟨⟩, hat⟩
    · exact .inl (.member hsingle haccepted)
    · exact .inr hat
  | nothing _ _ => exact .inr hat
  | merged hobject hschema =>
    have hcases := Accepted.of_merge hmarked hat fun field hmarked hat =>
      hschema.accepted_of_none hplain rfl hmarked hat
    rcases hcases with hat | ⟨hvacant, haccepted⟩
    · exact .inr (hat.of_same rfl rfl)
    · exact .inl (.merged hobject hvacant haccepted)

/-- A marked field of a request was accepted for a parameter or for the body. -/
theorem RequestFrom.acceptedInRequest {name : String} {item : PathItem} {operation : Operation}
    (h : RequestFrom job facts name item operation draft) (hmarked : ¬ Unmarked field)
    (hat : FieldAt draft path field) :
    AcceptedInRequest job facts name item operation draft path field := by
  have hslots : ∀ {entries parameters},
      Derives job facts (.slots { name } entries) (some parameters) →
      FieldAt parameters path field →
      Accepted job facts (.slots { name } entries) parameters path field := by
    intro entries parameters hslots hat
    refine (hslots.accepted hplain _ rfl path field hmarked hat).resolve_right ?_
    rintro ⟨_, ⟨⟩, hat⟩
    exact hat.false_of_nil rfl rfl
  cases h with
  | bodiless hentries hparameters hbody => exact .bodiless hentries (hslots hparameters hat) hbody
  | body hentries hparameters hbody hschema hlends =>
    rcases hlends.lent hplain hmarked hat with hlent | hat
    · exact .body hentries hparameters hbody hschema hlent
    · exact .parameter hentries (hslots hparameters hat) hbody hschema hlends

/-- Every marked field of a message of the file was accepted where the message was put together. -/
theorem Sourced.acceptedIn {among : Endpoint → Prop} (h : Sourced job facts among draft)
    (hmarked : ¬ Unmarked field) (hat : FieldAt draft path field) :
    AcceptedIn job facts among draft path field := by
  cases h with
  | schema hnode h => exact .schema hnode (h.accepted_of_none hplain rfl hmarked hat)
  | body comment hdefinition hleads hschema h =>
    exact .body comment hdefinition hleads hschema
      (h.accepted_of_none hplain rfl hmarked (hat.of_same rfl rfl))
  | payload hamong h =>
    cases h with
    | request hitem hoperation h =>
      exact .request hamong hitem hoperation (h.acceptedInRequest hplain hmarked hat)
    | response hitem hoperation h =>
      cases h with
      | bodiless _ _ => exact (hat.false_of_nil rfl rfl).elim
      | body hresponse hschema hlends =>
        exact .response hamong hitem hoperation hresponse hschema
          ((hlends.lent hplain hmarked hat).resolve_right fun hat => hat.false_of_nil rfl rfl)

end

end Protoscribe.Compile
