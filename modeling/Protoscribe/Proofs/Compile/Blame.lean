import Protoscribe.Proofs.Compile.Calls
import Protoscribe.Proofs.Draft.Message

/-!
# `Protoscribe.Proofs.Compile.Blame`: which call a failure comes from

A call fails with an error of the recursion in one of two ways: it closes a circle itself
(`FailsItself`), or one of the calls that it leads to fails (`Engine.step_fails`). So `Calls` lists
every call that is made. Each function between two levels gets one lemma, which says which of its
calls may have failed (`FailsLater`). The lemmas follow the text of the functions, as those in
`Protoscribe.Proofs.Compile.Soundness` do.
-/

set_option autoImplicit false

namespace Protoscribe.Compile

open OpenApi (Referable RequestBody Schema SchemaNode Section Shape)

variable {job : Job} {engine : Engine} {bad : CompileError → Prop} {s t : State}

/-- At this moment of a run or at a later one, inside the same components, one of some calls
fails. -/
def FailsLater (job : Job) (engine : Engine) (bad : CompileError → Prop) (calls : Call → Prop)
    (s : State) : Prop :=
  ∃ call t, calls call ∧ Justified job t ∧ s.facts ≤ t.facts ∧ t.chain = s.chain ∧
    engine.Fails bad call t

namespace FailsLater

variable {calls others : Call → Prop}

/-- A call that fails at this moment. -/
theorem of_now {call : Call} (hcall : calls call) (hs : Justified job s)
    (h : engine.Fails bad call s) : FailsLater job engine bad calls s :=
  ⟨call, s, hcall, hs, Facts.le_refl _, rfl, h⟩

/-- More calls may be blamed. -/
theorem imp (h : FailsLater job engine bad calls s) (himp : ∀ call, calls call → others call) :
    FailsLater job engine bad others s := by
  obtain ⟨call, t, hcall, hfails⟩ := h
  exact ⟨call, t, himp call hcall, hfails⟩

/-- What fails after a step fails after the state in front of the step too. -/
theorem of_extends (h : FailsLater job engine bad calls t) (hlater : Extends s t) :
    FailsLater job engine bad calls s := by
  obtain ⟨call, u, hcall, hu, hle, hchain, hfails⟩ := h
  exact ⟨call, u, hcall, hu, Facts.le_trans hlater.facts_le hle, hchain.trans hlater.chain, hfails⟩

/-- What fails in a state that has grown out of another one fails after that one too. -/
theorem of_grown (h : FailsLater job engine bad calls t) (hgrown : Grown job s t) :
    FailsLater job engine bad calls s :=
  h.of_extends hgrown.later

end FailsLater

/-- What fails in a step fails in a longer breadcrumb too. -/
theorem failsLater_within {α : Type} {part : String} {step : M α} {calls : Call → Prop}
    (h : Fails bad (within part step) s) (hs : Justified job s)
    (hstep : ∀ {t : State}, Fails bad step t → Justified job t → t.chain = s.chain →
      FailsLater job engine bad calls t) : FailsLater job engine bad calls s := by
  obtain ⟨call, u, hfails⟩ := hstep (fails_within.mp h) (hs.of_eq rfl rfl rfl) rfl
  exact ⟨call, u, hfails⟩

/-! ### Steps that make no call -/

/-- Adding a field fails at nothing: a field that is refused is reported. -/
theorem infallible_addFieldOrWarn (parent : MessageDraft) (field : FieldDraft)
    (warning : String → String → Warning) : Infallible (addFieldOrWarn parent field warning) := by
  unfold addFieldOrWarn
  split
  · exact .bind .place fun _ => .bind (.warn _) fun _ => .pure _
  · exact .pure _

/-- Marking a field as optional fails at nothing. -/
theorem infallible_markPresence (job : Job) (field : FieldDraft) (schema : Schema)
    (required : Bool) : Infallible (markPresence job field schema required) := by
  unfold markPresence
  split
  · exact .pure _
  · cases (if job.config.wrapPrimitives then holder? field.type else none) with
    | none => exact .pure _
    | some holder => exact .bind (.updateFile _) fun _ => .pure _

/-- A literal that has no value is reported and is no failure. -/
theorem infallible_addLiteral (job : Job) (start : String) (draft : EnumDraft) (literal : Value) :
    Infallible (addLiteral job start draft literal) := by
  unfold addLiteral
  cases literalText? literal with
  | none => exact .bind .place fun _ => .bind (.warn _) fun _ => .pure _
  | some text =>
    show Infallible (if draft.hasValue (valueName job start text) then _ else _)
    split
    · exact .bind .place fun _ => .bind (.warn _) fun _ => .pure _
    · exact .pure _

/-- Literals become an enum without a failure. -/
theorem infallible_enumCarrier (job : Job) (name : String) (schema : Schema)
    (literals : List Value) : Infallible (enumCarrier job name schema literals) :=
  .bind (.foldlM (infallible_addLiteral job _) literals _) fun _ => .pure _

/-- A schema with a scalar type is wrapped without a failure. -/
theorem infallible_scalarMessage (name : String) {schema : Schema}
    (h : (scalarType? schema.shape).isSome = true) : Infallible (scalarMessage name schema) := by
  obtain ⟨type, htype⟩ := Option.isSome_iff_exists.mp h
  simp only [scalarMessage, htype]
  exact .pure _

/-- Declaring a type fails at nothing: a type that is refused is left out. -/
theorem infallible_declareType (compiled : Option MessageDraft) :
    Infallible (declareType compiled) := by
  unfold declareType
  split
  · exact .pure _
  · split
    · exact .bind (.updateFile _) fun _ => .pure _
    · exact .bind (.updateFile _) fun _ => .pure _

/-- An order that is rejected is no error of the recursion. -/
theorem OfRecursion.not_fails_reorder (hbad : OfRecursion bad) {draft : MessageDraft}
    {order : Value} : ¬ Fails bad (reorder draft order) s := by
  have hthrow : ¬ Fails bad
      (do throw (.invalidPropertyOrder (← place)) : M MessageDraft) s := by
    simp only [fails_bind, Infallible.place.not_fails, fails_throw, false_or]
    rintro ⟨place, _, -, horder⟩
    exact hbad.order place horder
  intro h
  unfold reorder at h
  split at h
  · split at h
    · exact not_fails_pure h
    · exact hthrow h
  · exact hthrow h

/-! ### References and names of components -/

/-- The calls for the component that a reference names. -/
def ReferenceCalls (job : Job) (reference : String) (call : Call) : Prop :=
  ∃ key target, Section.schemas.key? reference = some key ∧
    job.document.components.schemas.find? key = some target ∧ call = .component key target

/-- If the type of a reference fails, it is the call of the component. -/
theorem referencedType_fails (hbad : OfRecursion bad) {reference : String}
    (h : Fails bad (referencedType engine job reference) s) (hs : Justified job s) :
    FailsLater job engine bad (ReferenceCalls job reference) s := by
  simp only [referencedType, fails_bind, hbad.not_fails_findSchema, false_or] at h
  obtain ⟨⟨key, target⟩, _, hfind, hfails⟩ := h
  obtain ⟨hkey, htarget, rfl⟩ := findSchema_eq_ok hfind
  exact .of_now ⟨key, target, hkey, htarget, rfl⟩ hs hfails

/-- A component is called for the name of an inline type when it is not being compiled. -/
theorem standIn_component_fails {call : M ComponentType} {mark name : String}
    (h : Fails bad (do
      let resolved? ←
        if ← (do pure ((← get).chain.contains mark) : M Bool) then pure (some (.message name))
        else some <$> call
      pure (resolved?.filter fun resolved => resolved == .message name || resolved == .enum name) :
        M (Option ComponentType)) s) : mark ∉ s.chain ∧ Fails bad call s := by
  simp only [fails_bind, get_eq_ok, pure_eq_ok, bind_eq_ok, not_fails_get, not_fails_pure,
    and_false, exists_false, or_false, false_or] at h
  obtain ⟨_, _, ⟨_, _, ⟨rfl, rfl⟩, rfl, rfl⟩, h⟩ := h
  split at h
  · simp only [fails_bind, not_fails_pure, and_false, exists_false, or_self] at h
  · rename_i hfree
    simp only [fails_bind, fails_map, not_fails_pure, and_false, exists_false, or_false] at h
    exact ⟨by simpa using hfree, h⟩

/-- If the message for a shared name fails, it is the call of the component with the name. -/
theorem standIn_fails {name : String} (h : Fails bad (standIn engine job name) s)
    (hs : Justified job s) : FailsLater job engine bad (Namesake job s.chain name) s := by
  unfold standIn at h
  cases hschema : job.document.components.schemas.entries.find?
      (fun entry => job.messageName entry.1 == name) with
  | some entry =>
    obtain ⟨key, node⟩ := entry
    simp only [hschema] at h
    obtain ⟨hfree, hfails⟩ := standIn_component_fails h
    exact .of_now (.schema hschema hfree) hs hfails
  | none =>
    cases hbody : job.document.components.requestBodies.entries.find?
        (fun entry => job.messageName entry.1 == name) with
    | some entry =>
      obtain ⟨key, body⟩ := entry
      simp only [hschema, hbody] at h
      obtain ⟨hfree, hfails⟩ := standIn_component_fails h
      exact .of_now (.body hschema hbody hfree) hs hfails
    | none =>
      simp only [hschema, hbody, fails_bind, not_fails_pure, and_false, exists_false,
        or_self] at h

/-- If the search for a free name fails, it is the call of the component with the name. -/
theorem nestingName_fails {parent : MessageDraft} {name : String} {isEnum : Bool}
    (h : Fails bad (nestingName engine job parent name isEnum) s) (hs : Justified job s) :
    FailsLater job engine bad (Namesake job s.chain name) s := by
  simp only [nestingName, fails_bind, get_eq_ok, not_fails_get, false_or] at h
  obtain ⟨_, _, ⟨rfl, rfl⟩, h⟩ := h
  split at h
  · exact absurd h not_fails_pure
  · rw [fails_bind] at h
    rcases h with hstand | ⟨stand?, t, -, h⟩
    · exact standIn_fails hstand hs
    -- once the component is known, nothing is called any more
    · cases stand? with
      | none => exact absurd h not_fails_pure
      | some result =>
        have h : Fails bad (if (result.isEnum == isEnum) = true then pure none
            else do
              let renamed :=
                freeTypeName (← get).file parent name (if isEnum then "Enum" else "Message")
              warn (.renamedType (← place) name renamed)
              pure (some renamed) : M (Option String)) t := by
          cases result <;> exact h
        split at h
        · exact absurd h not_fails_pure
        · refine absurd h (Infallible.not_fails ?_)
          exact .bind .get fun _ => .bind .place fun _ => .bind (.warn _) fun _ => .pure _

/-- If taking in a child fails, it is the search for the name that the child gets. -/
theorem takeIn_fails {parent child : MessageDraft} {fieldName : String} {allowRepeated : Bool}
    (h : Fails bad (takeIn engine job parent fieldName child allowRepeated) s)
    (hs : Justified job s) :
    ∃ name, Nests child allowRepeated name ∧
      FailsLater job engine bad (Namesake job s.chain name) s := by
  unfold takeIn at h
  -- only the search for a name under which the child is nested can fail
  cases hcarried : child.carriedEnum? with
  | some enum =>
    simp only [hcarried, fails_bind] at h
    rcases h with hname | ⟨nested, t, -, h⟩
    · exact ⟨enum.name, .enum hcarried, nestingName_fails hname hs⟩
    · cases nested <;> exact absurd h not_fails_pure
  | none =>
    simp only [hcarried] at h
    cases hunwrap : (if (allowRepeated || !child.fields.any (·.repeated)) = true
        then child.unwrap? else none) with
    | some unwrapped =>
      simp only [hunwrap] at h
      exact absurd h not_fails_pure
    | none =>
      simp only [hunwrap, fails_bind] at h
      rcases h with hname | ⟨nested, t, -, h⟩
      · exact ⟨child.name, .message hcarried hunwrap, nestingName_fails hname hs⟩
      · cases nested <;> exact absurd h not_fails_pure

/-! ### Slots -/

/-- Filling a slot from a reference fails in the call for the component. -/
theorem slot_reference_fails (hbad : OfRecursion bad) (slot : Slot) {reference : String}
    (h : Fails bad (referencedType engine job reference) s) (hs : Justified job s) :
    FailsLater job engine bad (SlotCalls job slot s.chain (.ref reference)) s := by
  refine (referencedType_fails hbad h hs).imp ?_
  rintro _ ⟨key, target, hkey, htarget, rfl⟩
  exact .reference hkey htarget

/-- Filling a slot from an inline schema fails while the schema is compiled, or while the message is
taken in. -/
theorem slot_inline_fails (hself : engine.Sound job) (slot : Slot) {schema : Schema}
    {compiled : Option MessageDraft} {child parent : MessageDraft} {fieldName : String}
    (hcompiled : engine.schema (slot.hint job schema) schema s = .ok compiled t)
    (hchild : compiled.filter (!·.isEmpty) = some child)
    (h : Fails bad (takeIn engine job parent fieldName child slot.allowsRepeated) t)
    (hs : Justified job s) :
    FailsLater job engine bad (SlotCalls job slot s.chain (.inline schema)) s := by
  obtain ⟨hgrown, hderives⟩ := hself.schema hcompiled hs
  obtain ⟨rfl, hempty⟩ := Option.filter_eq_some_iff.mp hchild
  obtain ⟨name, hnests, hfails⟩ := takeIn_fails h hgrown.justified
  rw [hgrown.later.chain] at hfails
  exact (hfails.imp fun _ => .namesake hgrown.justified hderives (by simpa using hempty) hnests)
    |>.of_grown hgrown

/-- If a property fails, it is one of the calls that its schema leads to. -/
theorem addMember_fails (hself : engine.Sound job) (hbad : OfRecursion bad) {parent : MessageDraft}
    {name : String} {property : SchemaNode} {required : Bool} {comment : Option String}
    (h : Fails bad (addMember engine job parent name property required comment) s)
    (hs : Justified job s) :
    FailsLater job engine bad
      (SlotCalls job (.property name required comment) s.chain property) s := by
  cases property with
  | ref reference =>
    simp only [addMember, fails_bind] at h
    rcases h with hreference | ⟨result, t, -, h⟩
    · exact slot_reference_fails hbad _ hreference hs
    · split at h
      · exact absurd h not_fails_pure
      · exact absurd h (infallible_addFieldOrWarn _ _ _).not_fails
  | inline schema =>
    simp only [addMember, fails_bind] at h
    rcases h with hschema | ⟨compiled, t, hcompiled, h⟩
    · exact .of_now .compile hs hschema
    · cases hchild : compiled.filter (!·.isEmpty) with
      | none =>
        simp only [hchild] at h
        exact absurd h not_fails_pure
      | some child =>
        simp only [hchild, fails_bind] at h
        -- marking and adding the field cannot fail, so taking the child in does
        rcases h with htaken | ⟨taken, u, -, hmarked | ⟨marked, v, -, hadded⟩⟩
        · exact slot_inline_fails hself _ hcompiled hchild htaken hs
        · exact absurd hmarked (infallible_markPresence _ _ _ _).not_fails
        · exact absurd hadded (infallible_addFieldOrWarn _ _ _).not_fails

/-- A slot in some list of slots calls. -/
def SlotsCall (job : Job) (chain : List String) (slots : List (Slot × SchemaNode)) (call : Call) :
    Prop :=
  ∃ slot node, (slot, node) ∈ slots ∧ SlotCalls job slot chain node call

/-- If an object fails, it is a call of one of its properties. -/
theorem addMembers_fails (hself : engine.Sound job) (hbad : OfRecursion bad) {parent : MessageDraft}
    {properties : List (String × SchemaNode)} {required : List String}
    (h : Fails bad (addMembers engine job parent properties required) s) (hs : Justified job s) :
    FailsLater job engine bad (SlotsCall job s.chain (propertySlots properties required)) s := by
  -- the rounds before the one that fails leave a later state
  obtain ⟨entry, hentry, draft, t, hgrown, hround⟩ :=
    fails_foldlM (P := fun t _ => Grown job s t) (fun {draft entry filled t t'} _ hround hgrown =>
      hgrown.trans (grown_within (P := fun _ => True) hround hgrown.justified fun hmember ht =>
        ⟨(addMember_sound hself hmember ht).1, trivial⟩).1) h (.refl hs)
  refine (failsLater_within hround hgrown.justified fun hmember ht hchain => ?_).of_grown hgrown
  refine (addMember_fails hself hbad hmember ht).imp fun call hcall => ?_
  rw [hchain, hgrown.later.chain] at hcall
  exact ⟨_, _, List.mem_map_of_mem hentry, hcall⟩

/-- If a schema without a name of its own fails, it is one of the calls that it leads to. -/
theorem unnamedMember_fails (hself : engine.Sound job) (hbad : OfRecursion bad) (slot : Slot)
    {parent : MessageDraft} {fieldName : Option String} {fallback : String} {node : SchemaNode}
    (hhint : ∀ schema, slot.hint job schema = schema.title.getD fallback)
    (hrepeated : slot.allowsRepeated = false)
    (h : Fails bad (unnamedMember engine job parent fieldName fallback node) s)
    (hs : Justified job s) : FailsLater job engine bad (SlotCalls job slot s.chain node) s := by
  cases node with
  | ref reference =>
    simp only [unnamedMember, fails_bind, not_fails_pure, and_false, exists_false, or_false] at h
    exact slot_reference_fails hbad slot h hs
  | inline schema =>
    simp only [unnamedMember, fails_bind, ← hhint] at h
    rcases h with hschema | ⟨compiled, t, hcompiled, h⟩
    · exact .of_now .compile hs hschema
    · cases hchild : compiled.filter (!·.isEmpty) with
      | none =>
        simp only [hchild] at h
        exact absurd h not_fails_pure
      | some child =>
        simp only [hchild, fails_bind, not_fails_pure, and_false, exists_false, or_false] at h
        -- in the terms of the slot
        rw [← hrepeated] at h
        exact slot_inline_fails hself slot hcompiled hchild h hs

/-- If a variant of a union fails, it is one of the calls that the variant leads to. -/
theorem addVariant_fails (hself : engine.Sound job) (hbad : OfRecursion bad) {name label : String}
    {group : Int32} {parent : MessageDraft} {index : Nat} {node : SchemaNode}
    (h : Fails bad (addVariant engine job name label group parent (index, node)) s)
    (hs : Justified job s) :
    FailsLater job engine bad (SlotCalls job (.variant name index group) s.chain node) s := by
  simp only [addVariant, fails_bind] at h
  rcases h with hmember | ⟨⟨grown, field?⟩, t, -, h⟩
  · refine failsLater_within hmember hs fun hmember ht hchain => ?_
    rw [← hchain]
    exact unnamedMember_fails hself hbad (.variant name index group) (fun _ => rfl) rfl hmember ht
  · cases field? with
    | none => exact absurd h not_fails_pure
    | some field => exact absurd h (infallible_addFieldOrWarn _ _ _).not_fails

/-- If a union fails, it is a call of one of its variants. -/
theorem unionMessage_fails (hself : engine.Sound job) (hbad : OfRecursion bad) {name label : String}
    {schema : Schema} {variants : List SchemaNode}
    (h : Fails bad (unionMessage engine job name schema label variants) s) (hs : Justified job s) :
    FailsLater job engine bad (SlotsCall job s.chain (variantSlots name variants)) s := by
  unfold unionMessage at h
  obtain ⟨⟨index, node⟩, hmem, draft, t, hgrown, hround⟩ :=
    fails_foldlM (P := fun t _ => Grown job s t) (fun {draft variant filled t t'} _ hround hgrown =>
      hgrown.trans (addVariant_sound hself hround hgrown.justified).1) h (.refl hs)
  obtain ⟨⟨_, _⟩, hvariant, heq⟩ := List.mem_map.mp hmem
  cases heq
  refine ((addVariant_fails hself hbad hround hgrown.justified).imp fun call hcall => ?_).of_grown
    hgrown
  rw [hgrown.later.chain] at hcall
  exact ⟨_, _, List.mem_map_of_mem hvariant, hcall⟩

/-- If a list at the top level fails, it is a call of its items. -/
theorem listWrapper_fails (hself : engine.Sound job) (hbad : OfRecursion bad) {name : String}
    {schema : Schema} {items : SchemaNode}
    (h : Fails bad (listWrapper engine job name schema (some items)) s) (hs : Justified job s) :
    FailsLater job engine bad (SlotCalls job (.item name) s.chain items) s := by
  simp only [listWrapper, fails_bind] at h
  rcases h with hmember | ⟨⟨draft, field?⟩, t, -, h⟩
  · refine failsLater_within hmember hs fun hmember ht hchain => ?_
    rw [← hchain]
    exact unnamedMember_fails hself hbad (.item name) (fun _ => rfl) rfl hmember ht
  · cases field? <;> exact absurd h not_fails_pure

/-! ### Shapes -/

/-- A variant of `allOf` is absorbed into a message of the name. -/
def VariantCalls (name : String) (variants : List SchemaNode) (call : Call) : Prop :=
  ∃ draft variant, variant ∈ variants ∧ draft.name = name ∧ call = .absorb draft variant

/-- A task that starts from a message keeps its name. -/
theorem Derives.name_eq {facts : Facts} {task : Task} {compiled : Option MessageDraft}
    (h : Derives job facts task compiled) :
    ∀ start ∈ task.start?, ∀ draft ∈ compiled, draft.name = start.name := by
  induction h with
  | slotsCons _ _ ihfirst ih
  | absorbCons _ _ ihfirst ih =>
    intro start hstart draft hdraft
    exact (ih _ rfl draft hdraft).trans (ihfirst start hstart _ rfl)
  | @reference _ slot _ result _ =>
    rintro _ ⟨⟩ _ ⟨⟩
    cases result <;> simp [Slot.refer]
  | taken _ htaken _ _ _ =>
    rintro _ ⟨⟩ _ ⟨⟩
    rw [MessageDraft.name_addField]
    cases htaken with
    | unwrapped => exact MessageDraft.name_nestAll
    | _ => simp
  | absorbReference _ _ _ ih => exact ih
  | merged =>
    rintro _ ⟨⟩ _ ⟨⟩
    exact MessageDraft.name_merge
  | slotsNil
  | skipped
  | absorbNil
  | ignored
  | absorbNothing =>
    -- the message is the one that the task starts from
    rintro _ ⟨⟩ _ ⟨⟩
    rfl
  | _ => simp [Task.start?]

/-- If what `allOf` combines fails, it is a variant that is absorbed or a call of a property. -/
theorem combinedMessage_fails (hself : engine.Sound job) (hbad : OfRecursion bad) {name : String}
    {schema : Schema} {variants : List SchemaNode} {properties : List (String × SchemaNode)}
    {required : List String}
    (h : Fails bad (combinedMessage engine job name schema variants properties required) s)
    (hs : Justified job s) :
    FailsLater job engine bad (fun call => VariantCalls name variants call ∨
      SlotsCall job s.chain (propertySlots properties required) call) s := by
  simp only [combinedMessage, fails_bind] at h
  rcases h with habsorb | ⟨merged, t, habsorb, hmembers⟩
  · -- the message that takes the variants in keeps its name
    obtain ⟨⟨variant, index⟩, hmem, draft, t, ⟨hgrown, hname⟩, hround⟩ :=
      fails_foldlM (P := fun t draft => Grown job s t ∧ draft.name = name)
        (fun {draft variant merged t t'} _ hround hbefore => by
          obtain ⟨hgrown, hname⟩ := hbefore
          obtain ⟨hgrown', hmerged⟩ := grown_within
            (P := fun facts => Derives job facts (.absorb draft variant.1) (some merged))
            hround hgrown.justified hself.absorb
          exact ⟨hgrown.trans hgrown', (hmerged.name_eq _ rfl _ rfl).trans hname⟩)
        habsorb ⟨.refl hs, rfl⟩
    refine (failsLater_within hround hgrown.justified fun hfails ht _ => ?_).of_grown hgrown
    have hvariant : variant ∈ variants := by
      have hfirst := List.mem_map_of_mem (f := Prod.fst) hmem
      rwa [List.zipIdx_map_fst] at hfirst
    exact .of_now (.inl ⟨draft, variant, hvariant, hname, rfl⟩) ht hfails
  · obtain ⟨hgrown, -⟩ := absorbAll_sound hself habsorb hs
    refine ((addMembers_fails hself hbad hmembers hgrown.justified).of_grown hgrown).imp ?_
    rw [hgrown.later.chain]
    exact fun _ => .inr

/-- A call that a schema leads to inside the same components. -/
def InnerCall (job : Job) (hint : String) (schema : Schema) (chain : List String) (call : Call) :
    Prop :=
  Calls job ⟨.schema hint schema, chain⟩ ⟨call, chain⟩

/-- The calls of the members of a schema are made inside the schema. -/
theorem InnerCall.of_slotsCall {hint : String} {schema : Schema} {chain : List String} {call : Call}
    {slots : List (Slot × SchemaNode)}
    (hslots : memberSlots (job.messageName (schema.title.getD hint)) schema.shape = slots)
    (h : SlotsCall job chain slots call) : InnerCall job hint schema chain call := by
  obtain ⟨slot, node, hslot, hcall⟩ := h
  exact .slot (hslots ▸ hslot) hcall

/-- If a shape fails, it is a call inside the schema. -/
theorem messageOfShape_fails (hself : engine.Sound job) (hbad : OfRecursion bad) {hint : String}
    {schema : Schema}
    (h : Fails bad
      (messageOfShape engine job (job.messageName (schema.title.getD hint)) schema) s)
    (hs : Justified job s) :
    FailsLater job engine bad (InnerCall job hint schema s.chain) s := by
  unfold messageOfShape at h
  cases hshape : schema.shape with
  | map value =>
    simp only [hshape] at h
    exact failsLater_within h hs fun hfails ht _ => .of_now (.value hshape) ht hfails
  | enum literals =>
    simp only [hshape, fails_map] at h
    exact absurd h (infallible_enumCarrier _ _ _ _).not_fails
  | oneOf variants =>
    simp only [hshape, fails_map] at h
    exact (unionMessage_fails hself hbad h hs).imp fun _ =>
      .of_slotsCall (by rw [hshape, memberSlots])
  | anyOf variants =>
    simp only [hshape, fails_map] at h
    exact (unionMessage_fails hself hbad h hs).imp fun _ =>
      .of_slotsCall (by rw [hshape, memberSlots])
  | allOf variants properties required =>
    simp only [hshape, fails_map] at h
    refine (combinedMessage_fails hself hbad h hs).imp ?_
    rintro _ (⟨draft, variant, hvariant, hname, rfl⟩ | hslots)
    · exact .variant hshape hvariant hname
    · exact .of_slotsCall (by rw [hshape, memberSlots]) hslots
  | array items =>
    simp only [hshape] at h
    cases items with
    | none => exact absurd h not_fails_pure
    | some items =>
      exact (listWrapper_fails hself hbad h hs).imp fun _ hcall =>
        .of_slotsCall (by rw [hshape, memberSlots]) ⟨_, _, List.mem_singleton.mpr rfl, hcall⟩
  | object properties required =>
    simp only [hshape, fails_map] at h
    exact (addMembers_fails hself hbad h hs).imp fun _ =>
      .of_slotsCall (by rw [hshape, memberSlots])
  | boolean
  | integer _
  | number _
  | string _ =>
    -- the shape is one of a scalar, so it has a type
    simp only [hshape, fails_map] at h
    exact absurd h (infallible_scalarMessage _ (by simp [scalarType?, hshape])).not_fails
  | any => exact absurd (by simpa only [hshape] using h) not_fails_pure

/-- If a schema fails, it is a call inside it. The order of its fields is no matter of the
recursion. -/
theorem messageOfSchema_fails (hself : engine.Sound job) (hbad : OfRecursion bad) {hint : String}
    {schema : Schema} (h : Fails bad (messageOfSchema engine job hint schema) s)
    (hs : Justified job s) :
    FailsLater job engine bad (InnerCall job hint schema s.chain) s := by
  simp only [messageOfSchema, fails_bind] at h
  rcases h with hshape | ⟨compiled, t, -, h⟩
  · exact messageOfShape_fails hself hbad hshape hs
  · split at h
    · rw [fails_map] at h
      exact absurd h hbad.not_fails_reorder
    · exact absurd h not_fails_pure

/-! ### The calls themselves -/

/-- The call fails itself, or it leads to a call that fails. -/
def Blamed (job : Job) (engine : Engine) (bad : CompileError → Prop) (call : Call) (s : State) :
    Prop :=
  FailsItself job bad ⟨call, s.chain⟩ ∨
    ∃ callee t, Calls job ⟨call, s.chain⟩ ⟨callee, t.chain⟩ ∧ Justified job t ∧
      s.facts ≤ t.facts ∧ engine.Fails bad callee t

/-- If the calls that may have failed are made by the call, one of them is to blame. -/
theorem FailsLater.blamed {call : Call} {calls : Call → Prop}
    (h : FailsLater job engine bad calls s)
    (hcalls : ∀ callee, calls callee → Calls job ⟨call, s.chain⟩ ⟨callee, s.chain⟩) :
    Blamed job engine bad call s := by
  obtain ⟨callee, t, hcallee, ht, hle, hchain, hfails⟩ := h
  exact .inr ⟨callee, t, hchain ▸ hcalls callee hcallee, ht, hle, hfails⟩

/-- If a node fails, it closes a circle of references, or a call that it leads to fails. -/
theorem messageOfNode_fails (hbad : OfRecursion bad) {hint : String} {node : SchemaNode}
    (h : Fails bad (messageOfNode engine job hint node) s) (hs : Justified job s) :
    Blamed job engine bad (.node hint node) s := by
  cases node with
  | inline schema => exact .inr ⟨.schema hint schema, s, .inline, hs, Facts.le_refl _, h⟩
  | ref reference =>
    simp only [messageOfNode, fails_bind, hbad.not_fails_findSchema, false_or, fails_entering] at h
    obtain ⟨⟨key, target⟩, s', hfind, h⟩ := h
    obtain ⟨hkey, htarget, hkept⟩ := findSchema_eq_ok hfind
    subst s'
    rcases h with ⟨hclosed, hcycle⟩ | ⟨hfree, hfails⟩
    · exact .inl (.expand hkey htarget hclosed hcycle)
    · exact .inr ⟨.node hint target, { s with chain := s.chain ++ [key] },
        .expand hkey htarget hfree, hs.of_eq rfl rfl rfl, Facts.le_refl _, hfails⟩

/-- If absorbing a variant fails, it closes a circle of references, or a call that it leads to
fails. -/
theorem absorb_fails (hbad : OfRecursion bad) {draft : MessageDraft} {node : SchemaNode}
    (h : Fails bad (absorb engine job draft node) s) (hs : Justified job s) :
    Blamed job engine bad (.absorb draft node) s := by
  cases node with
  | inline schema =>
    simp only [absorb] at h
    split at h
    · refine absurd h (Infallible.not_fails ?_)
      exact .bind .place fun _ => .bind (.warn _) fun _ => .pure _
    · rename_i hobject
      rw [fails_bind] at h
      rcases h with hschema | ⟨compiled, t, -, h⟩
      · exact .inr ⟨.schema draft.name schema, s, .absorbInline (by simpa using hobject), hs,
          Facts.le_refl _, hschema⟩
      · cases compiled <;> exact absurd h not_fails_pure
  | ref reference =>
    simp only [absorb, fails_bind, hbad.not_fails_findSchema, false_or, fails_entering] at h
    obtain ⟨⟨key, target⟩, s', hfind, h⟩ := h
    obtain ⟨hkey, htarget, hkept⟩ := findSchema_eq_ok hfind
    subst s'
    -- the key is on the chain, and the call fails itself, or the component fails
    rcases h with ⟨hclosed, hcycle⟩ | ⟨hfree, hfails⟩
    · exact .inl (.absorbExpand hkey htarget hclosed hcycle)
    · exact .inr ⟨.absorb draft target, { s with chain := s.chain ++ [key] },
        .absorbExpand hkey htarget hfree, hs.of_eq rfl rfl rfl, Facts.le_refl _, hfails⟩

/-- A component that is known already is not compiled again. -/
theorem declareSchema_fails {key : String} {node : SchemaNode}
    (h : Fails bad (declareSchema engine job key node) s) (hs : Justified job s) :
    s.schemas.lookup key = none ∧ Blamed job engine bad (.component key node) s := by
  simp only [declareSchema, fails_bind, get_eq_ok, not_fails_get, false_or] at h
  obtain ⟨s₀, s₁, ⟨hread, hkept⟩, h⟩ := h
  subst s₀ s₁
  cases hlookup : s.schemas.lookup key with
  | some known =>
    simp only [hlookup] at h
    exact absurd h not_fails_pure
  | none =>
    simp only [hlookup, fails_bind, fails_entering, fails_under] at h
    refine ⟨rfl, ?_⟩
    rcases h with (⟨hclosed, hcycle⟩ | ⟨hfree, hfails⟩) | ⟨compiled, t, -, h⟩
    · exact .inl (.component hclosed hcycle)
    · exact .inr ⟨.node (job.messageName key) node,
        { s with chain := s.chain ++ [key], scope := ["components", "schemas", key] },
        .component hfree, hs.of_eq rfl rfl rfl, Facts.le_refl _, hfails⟩
    · simp only [(infallible_declareType _).not_fails, not_fails_modify, not_fails_pure, and_false,
        exists_false, or_self] at h

/-- If the type of a shared request body fails, it closes a circle, or its schema fails. -/
theorem typeOfBody_fails (hbad : OfRecursion bad) {key : String} {body : Referable RequestBody}
    (h : Fails bad (typeOfBody engine job key body) t) (ht : Justified job t)
    {chain : List String} (hchain : t.chain = chain ++ [bodyMarker key])
    (hfree : bodyMarker key ∉ chain) :
    FailsItself job bad ⟨.requestBody key body, chain⟩ ∨
      ∃ callee, Calls job ⟨.requestBody key body, chain⟩ ⟨callee, t.chain⟩ ∧
        FailsLater job engine bad (· = callee) t := by
  simp only [typeOfBody, fails_bind] at h
  -- either the references lead nowhere, or the schema they lead to fails
  rcases h with hfollow | ⟨content, _, hfollow, h⟩
  · exact .inl (.follow hfollow)
  · cases follow_eq_ok hfollow
    have hleads := leadsTo_of_followFrom hfollow
    right
    rw [hchain]
    cases hschema : content.content.jsonSchema? with
    | none =>
      simp only [hschema] at h
      exact absurd h not_fails_pure
    | some node =>
      cases node with
      | ref reference =>
        simp only [hschema] at h
        obtain ⟨_, u, ⟨target, node, hkey, htarget, rfl⟩, hfails⟩ := referencedType_fails hbad h ht
        exact ⟨_, .bodyReference hfree hleads hschema hkey htarget, _, u, rfl, hfails⟩
      | inline schema =>
        simp only [hschema, fails_bind, (infallible_declareType _).not_fails, and_false,
          exists_false, or_false] at h
        exact ⟨_, .bodySchema hfree hleads hschema, .of_now rfl ht h⟩

/-- If a shared request body fails, it is not settled, and it fails as its type does. -/
theorem declareBody_fails (hbad : OfRecursion bad) {key : String} {body : Referable RequestBody}
    (h : Fails bad (declareBody engine job key body) s) (hs : Justified job s) :
    s.bodies.lookup key = none ∧ Blamed job engine bad (.requestBody key body) s := by
  simp only [declareBody, fails_bind, get_eq_ok, not_fails_get, false_or] at h
  obtain ⟨s₀, s₁, ⟨hread, hkept⟩, h⟩ := h
  subst s₀ s₁
  cases hlookup : s.bodies.lookup key with
  | some known =>
    simp only [hlookup] at h
    exact absurd h not_fails_pure
  | none =>
    simp only [hlookup, fails_bind, fails_entering, fails_under, not_fails_modify, not_fails_pure,
      and_false, exists_false, or_self, or_false] at h
    refine ⟨rfl, ?_⟩
    rcases h with ⟨hclosed, hcycle⟩ | ⟨hfree, hfails⟩
    · exact .inl (.body hclosed hcycle)
    · rcases typeOfBody_fails hbad hfails (hs.of_eq rfl rfl rfl) rfl hfree with
        hitself | ⟨callee, hcalls, _, t, rfl, ht, hle, hchain, hfails⟩
      · exact .inl hitself
      · exact .inr ⟨_, t, hchain ▸ hcalls, ht, hle, hfails⟩

/-- A call of an engine with one more level fails itself, or it leads to a call that fails. -/
theorem Engine.step_fails (hself : engine.Sound job) (hbad : OfRecursion bad) {call : Call}
    (h : (Engine.step job engine).Fails bad call s) (hs : Justified job s) :
    Blamed job engine bad call s := by
  cases call with
  | node hint node => exact messageOfNode_fails hbad h hs
  | schema hint schema =>
    exact (messageOfSchema_fails hself hbad h hs).blamed fun _ hcallee => hcallee
  | absorb draft node => exact absorb_fails hbad h hs
  | component key node => exact (declareSchema_fails h hs).2
  | requestBody key body => exact (declareBody_fails hbad h hs).2

end Protoscribe.Compile
