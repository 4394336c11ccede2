import Protoscribe.Proofs.Compile.Growth
import Protoscribe.Proofs.Compile.Run

/-!
# `Protoscribe.Proofs.Compile.Soundness`: every call follows the rules

An engine is sound when each of its calls that succeeds leads from a justified state to a later
justified one, and its result has a derivation (`Engine.Sound`). The engine that makes no call is
sound, and one more level of calls keeps an engine sound (`Engine.Sound.step`), so the engine of a
job is sound (`Job.engine_sound`).

Each function between two levels gets one lemma, which says what its result has been derived from.
The lemmas follow the text of the functions.
-/

set_option autoImplicit false

namespace Protoscribe.Compile

open OpenApi (Referable RequestBody Schema SchemaNode Section)

/-- What the calls of an engine do when they succeed in a justified state. -/
structure Engine.Sound (job : Job) (engine : Engine) : Prop where
  node : ∀ {hint node compiled s s'}, engine.node hint node s = .ok compiled s' → Justified job s →
    Grown job s s' ∧ Derives job s'.facts (.node hint node) compiled
  schema : ∀ {hint schema compiled s s'}, engine.schema hint schema s = .ok compiled s' →
    Justified job s → Grown job s s' ∧ Derives job s'.facts (.schema hint schema) compiled
  absorb : ∀ {draft node merged s s'}, engine.absorb draft node s = .ok merged s' →
    Justified job s → Grown job s s' ∧ Derives job s'.facts (.absorb draft node) (some merged)
  component : ∀ {key node result s s'}, engine.component key node s = .ok result s' →
    job.document.components.schemas.find? key = some node → Justified job s →
    Grown job s s' ∧ s'.schemas.lookup key = some result
  requestBody : ∀ {key body result s s'}, engine.requestBody key body s = .ok result s' →
    job.document.components.requestBodies.find? key = some body → Justified job s →
    Grown job s s' ∧ s'.bodies.lookup key = some result

/-- An engine without levels is sound, as no call of it succeeds. -/
theorem Engine.Sound.exhausted (job : Job) : Engine.exhausted.Sound job where
  node h _ := absurd h throw_ne_ok
  schema h _ := absurd h throw_ne_ok
  absorb h _ := absurd h throw_ne_ok
  component h _ _ := absurd h throw_ne_ok
  requestBody h _ _ := absurd h throw_ne_ok

section

variable {job : Job} {engine : Engine} {s s' : State}

/-! ### Steps in a changed surrounding -/

/-- What a step does, it does in a longer breadcrumb too. -/
theorem grown_within {α : Type} {part : String} {step : M α} {a : α} {P : Facts → Prop}
    (h : within part step s = .ok a s') (hs : Justified job s)
    (hstep : ∀ {t t' : State}, step t = .ok a t' → Justified job t →
      Grown job t t' ∧ P t'.facts) :
    Grown job s s' ∧ P s'.facts := by
  obtain ⟨t, ht, rfl⟩ := within_eq_ok.mp h
  obtain ⟨hgrown, hpost⟩ := hstep ht (hs.of_eq rfl rfl rfl)
  exact ⟨hgrown.within, hpost⟩

/-- What a step does, it does inside a component too. -/
theorem grown_entering {α : Type} {key : String} {step : M α} {a : α} {P : Facts → Prop}
    (h : entering key step s = .ok a s') (hs : Justified job s)
    (hstep : ∀ {t t' : State}, step t = .ok a t' → Justified job t →
      Grown job t t' ∧ P t'.facts) :
    Grown job s s' ∧ P s'.facts := by
  obtain ⟨-, t, ht, rfl⟩ := entering_eq_ok h
  obtain ⟨hgrown, hpost⟩ := hstep ht (hs.of_eq rfl rfl rfl)
  exact ⟨hgrown.entering, hpost⟩

/-! ### Enums -/

/-- A value that is added leaves the name of the enum as it is. -/
theorem name_addValue (draft : EnumDraft) (value : String) :
    (draft.addValue value).name = draft.name := by
  unfold EnumDraft.addValue
  split <;> rfl

/-- Only the warnings change while a value is added, and the enum keeps its name. -/
theorem addLiteral_eq_ok {start : String} {draft result : EnumDraft} {literal : Value}
    (h : addLiteral job start draft literal s = .ok result s') :
    result.name = draft.name ∧ ∃ warnings, s' = { s with warnings } := by
  unfold addLiteral at h
  cases htext : literalText? literal with
  | none =>
    simp only [htext, bind_eq_ok, pure_eq_ok, warn_eq_ok] at h
    obtain ⟨_, _, hplace, _, _, rfl, rfl, rfl⟩ := h
    cases place_eq_ok hplace
    exact ⟨rfl, _, rfl⟩
  | some text =>
    simp only [htext] at h
    split at h
    · simp only [bind_eq_ok, pure_eq_ok, warn_eq_ok] at h
      obtain ⟨_, _, hplace, _, _, rfl, rfl, rfl⟩ := h
      cases place_eq_ok hplace
      exact ⟨name_addValue _ _, _, rfl⟩
    · obtain ⟨rfl, rfl⟩ := pure_eq_ok.mp h
      exact ⟨name_addValue _ _, _, rfl⟩

/-- Literals leave the name of the enum as it is, and change the warnings at most. -/
theorem foldlM_addLiteral_eq_ok {start : String} {literals : List Value} {draft result : EnumDraft}
    (h : literals.foldlM (addLiteral job start) draft s = .ok result s') :
    result.name = draft.name ∧ ∃ warnings, s' = { s with warnings } := by
  induction literals generalizing draft s with
  | nil =>
    obtain ⟨rfl, rfl⟩ := foldlM_nil_eq_ok.mp h
    exact ⟨rfl, _, rfl⟩
  | cons literal rest ih =>
    obtain ⟨next, t, hfirst, hrest⟩ := foldlM_cons_eq_ok.mp h
    obtain ⟨hname, _, rfl⟩ := addLiteral_eq_ok hfirst
    obtain ⟨hname', _, rfl⟩ := ih hrest
    exact ⟨hname'.trans hname, _, rfl⟩

/-- The carrier of an enum holds the enum, which has its name. -/
theorem enumCarrier_eq_ok {name : String} {schema : Schema} {literals : List Value}
    {draft : MessageDraft} (h : enumCarrier job name schema literals s = .ok draft s') :
    (∃ enum : EnumDraft, enum.name = name ∧
      draft = { name, enums := [enum], takenTypes := Registry.empty.take name }) ∧
      ∃ warnings, s' = { s with warnings } := by
  simp only [enumCarrier, bind_eq_ok, pure_eq_ok] at h
  obtain ⟨enum, _, hvalues, rfl, rfl⟩ := h
  obtain ⟨hname, hwarnings⟩ := foldlM_addLiteral_eq_ok hvalues
  have hnamed : enum.name = name := hname.trans (name_addValue _ _)
  refine ⟨⟨enum, hnamed, ?_⟩, hwarnings⟩
  rw [← hnamed]
  rfl

/-! ### References -/

/-- The type of a reference is the one that the component has been settled with. -/
theorem referencedType_sound (hself : engine.Sound job) {reference : String}
    {result : ComponentType} (h : referencedType engine job reference s = .ok result s')
    (hs : Justified job s) : Grown job s s' ∧ s'.facts.Names job reference result := by
  simp only [referencedType, bind_eq_ok] at h
  obtain ⟨⟨key, node⟩, _, hfind, hcomponent⟩ := h
  obtain ⟨hkey, hnode, rfl⟩ := findSchema_eq_ok hfind
  obtain ⟨hgrown, hresult⟩ := hself.component hcomponent hnode hs
  exact ⟨hgrown, key, node, hkey, hnode, hresult⟩

/-- The first component of a name, with the name. -/
theorem find?_messageName {α : Type} {table : Table α} {name key : String} {value : α}
    (h : (table.entries.find? fun entry => job.messageName entry.1 == name) = some (key, value)) :
    table.find? key = some value ∧ job.messageName key = name := by
  refine ⟨Table.find?_eq_some_iff.mpr (List.mem_of_find?_eq_some h), ?_⟩
  simpa using List.find?_some h

/-- A component stands for a name when its call gives a type of the name. While it is being compiled
there is no call, and it counts as a message. -/
theorem standIn_component {call : M ComponentType} {mark name : String}
    {result? : Option ComponentType}
    (h : (do
      let resolved? ←
        if ← (do pure ((← get).chain.contains mark) : M Bool) then pure (some (.message name))
        else some <$> call
      pure (resolved?.filter fun resolved => resolved == .message name || resolved == .enum name) :
        M (Option ComponentType)) s = .ok result? s')
    (hs : Justified job s) (hname : name ∈ job.componentNames)
    (hcall : ∀ {result t}, call s = .ok result t → Grown job s t ∧
      (result = .message name ∨ result = .enum name → StandsIn job t.facts name result)) :
    Grown job s s' ∧ ∀ result ∈ result?, StandsIn job s'.facts name result := by
  simp only [bind_eq_ok, get_eq_ok, pure_eq_ok] at h
  obtain ⟨_, _, ⟨_, _, ⟨rfl, rfl⟩, rfl, rfl⟩, h⟩ := h
  split at h
  · simp only [bind_eq_ok, pure_eq_ok] at h
    obtain ⟨_, _, ⟨rfl, rfl⟩, rfl, rfl⟩ := h
    refine ⟨.refl hs, fun result hresult => ?_⟩
    -- there is no call, and the only result is a message of the name
    cases (Option.mem_filter_iff.mp hresult).1
    exact .inProgress hname
  · simp only [bind_eq_ok, pure_eq_ok, map_eq_ok] at h
    obtain ⟨_, _, ⟨found, hfound, rfl⟩, rfl, rfl⟩ := h
    obtain ⟨hgrown, hstands⟩ := hcall hfound
    refine ⟨hgrown, fun result hresult => ?_⟩
    obtain ⟨hsame, hkind⟩ := Option.mem_filter_iff.mp hresult
    cases hsame
    exact hstands (by simpa using hkind)

/-- What stands in for a name is the type of a component with the name. -/
theorem standIn_sound (hself : engine.Sound job) {name : String} {result? : Option ComponentType}
    (h : standIn engine job name s = .ok result? s') (hs : Justified job s) :
    Grown job s s' ∧ ∀ result ∈ result?, StandsIn job s'.facts name result := by
  unfold standIn at h
  -- components that are schemas are asked first, then request bodies
  cases hschema : job.document.components.schemas.entries.find?
      (fun entry => job.messageName entry.1 == name) with
  | some entry =>
    obtain ⟨key, node⟩ := entry
    obtain ⟨hnode, hname⟩ := find?_messageName hschema
    simp only [hschema] at h
    refine standIn_component h hs ?_ fun hcall => ?_
    · exact List.mem_map.mpr
        ⟨key, List.mem_append_left _ (Table.mem_keys_of_find?_eq_some hnode), hname⟩
    · obtain ⟨hgrown, hlookup⟩ := hself.component hcall hnode hs
      exact ⟨hgrown, .schema hname hlookup⟩
  | none =>
    cases hbody : job.document.components.requestBodies.entries.find?
        (fun entry => job.messageName entry.1 == name) with
    | some entry =>
      obtain ⟨key, body⟩ := entry
      obtain ⟨hfound, hname⟩ := find?_messageName hbody
      simp only [hschema, hbody] at h
      refine standIn_component h hs ?_ fun hcall => ?_
      · exact List.mem_map.mpr
          ⟨key, List.mem_append_right _ (Table.mem_keys_of_find?_eq_some hfound), hname⟩
      · obtain ⟨hgrown, hlookup⟩ := hself.requestBody hcall hfound hs
        exact ⟨hgrown, .body hname hlookup⟩
    | none =>
      simp only [hschema, hbody, bind_eq_ok, pure_eq_ok] at h
      obtain ⟨_, _, ⟨rfl, rfl⟩, rfl, rfl⟩ := h
      exact ⟨.refl hs, by simp⟩

/-! ### Inline types -/

/-- A nested type keeps its name, takes a free one, or has a component standing in for it. -/
theorem nestingName_sound (hself : engine.Sound job) {parent : MessageDraft} {name : String}
    {isEnum : Bool} {nested : Option String}
    (h : nestingName engine job parent name isEnum s = .ok nested s') (hs : Justified job s) :
    Grown job s s' ∧ NestedAs job s'.facts parent name isEnum nested := by
  simp only [nestingName, bind_eq_ok, get_eq_ok] at h
  obtain ⟨_, _, ⟨rfl, rfl⟩, h⟩ := h
  split at h
  · obtain ⟨rfl, rfl⟩ := pure_eq_ok.mp h
    exact ⟨.refl hs, .own⟩
  · simp only [bind_eq_ok] at h
    obtain ⟨stand?, t, hstand, h⟩ := h
    obtain ⟨hgrown, hstands⟩ := standIn_sound hself hstand hs
    cases stand? with
    | none =>
      obtain ⟨rfl, rfl⟩ := pure_eq_ok.mp h
      exact ⟨hgrown, .own⟩
    | some result =>
      have hstands : StandsIn job t.facts name result := hstands result rfl
      -- the code matches on the component, of which only the kind counts
      have h : (if (result.isEnum == isEnum) = true then pure none
          else do
            let renamed :=
              freeTypeName (← get).file parent name (if isEnum then "Enum" else "Message")
            warn (.renamedType (← place) name renamed)
            pure (some renamed) : M (Option String)) t = .ok nested s' := by
        cases result <;> exact h
      split at h
      · rename_i hkind
        obtain ⟨rfl, rfl⟩ := pure_eq_ok.mp h
        exact ⟨hgrown, .stoodFor hstands (by simpa using hkind)⟩
      · rename_i hkind
        simp only [bind_eq_ok, get_eq_ok, warn_eq_ok, pure_eq_ok] at h
        obtain ⟨_, _, ⟨rfl, rfl⟩, _, _, hplace, _, _, rfl, rfl, rfl⟩ := h
        cases place_eq_ok hplace
        exact ⟨hgrown.trans (hgrown.justified.grown_warn _),
          .renamed _ hstands (by simpa using hkind)⟩

/-- A child is taken in under the name that was found for it. -/
theorem takeIn_sound (hself : engine.Sound job) {parent child : MessageDraft} {fieldName : String}
    {allowRepeated : Bool} {taken : MessageDraft × FieldDraft}
    (h : takeIn engine job parent fieldName child allowRepeated s = .ok taken s')
    (hs : Justified job s) :
    Grown job s s' ∧ TakenIn job s'.facts parent fieldName child allowRepeated taken := by
  unfold takeIn at h
  cases hcarried : child.carriedEnum? with
  | some enum =>
    simp only [hcarried, bind_eq_ok] at h
    obtain ⟨nested, t, hnested, h⟩ := h
    obtain ⟨hgrown, hnested⟩ := nestingName_sound hself hnested hs
    cases nested with
    | none =>
      obtain ⟨rfl, rfl⟩ := pure_eq_ok.mp h
      exact ⟨hgrown, .enumComponent hcarried hnested⟩
    | some name =>
      obtain ⟨rfl, rfl⟩ := pure_eq_ok.mp h
      exact ⟨hgrown, .enum hcarried hnested⟩
  | none =>
    simp only [hcarried] at h
    -- no carrier of an enum: a wrapper gives up its field, and anything else is nested
    cases hunwrap : (if (allowRepeated || !child.fields.any (·.repeated)) = true
        then child.unwrap? else none) with
    | some unwrapped =>
      simp only [hunwrap] at h
      obtain ⟨rfl, rfl⟩ := pure_eq_ok.mp h
      split at hunwrap
      · rename_i hrepeated
        exact ⟨.refl hs, .unwrapped hcarried (by simpa using hrepeated) hunwrap⟩
      · cases hunwrap
    | none =>
      simp only [hunwrap, bind_eq_ok] at h
      obtain ⟨nested, t, hnested, h⟩ := h
      obtain ⟨hgrown, hnested⟩ := nestingName_sound hself hnested hs
      cases nested with
      | none =>
        obtain ⟨rfl, rfl⟩ := pure_eq_ok.mp h
        exact ⟨hgrown, .component hcarried hnested⟩
      | some name =>
        obtain ⟨rfl, rfl⟩ := pure_eq_ok.mp h
        exact ⟨hgrown, .message hcarried hnested⟩

/-! ### Slots -/

/-- A field is marked by the rule of presence. -/
theorem markPresence_sound {field marked : FieldDraft} {schema : Schema} {required : Bool}
    (h : markPresence job field schema required s = .ok marked s') (hs : Justified job s) :
    Grown job s s' ∧ Presence job s'.facts schema required field marked := by
  unfold markPresence at h
  split at h
  · obtain ⟨rfl, rfl⟩ := pure_eq_ok.mp h
    exact ⟨.refl hs, .unmarked⟩
  · rename_i hskip
    simp only [Bool.or_eq_true, Bool.not_eq_true', not_or, Bool.not_eq_true,
      Bool.not_eq_false] at hskip
    obtain ⟨⟨hrequired, hrepeated⟩, hscalar⟩ := hskip
    -- a holder where the configuration wants one, else a label for what may be `null`
    cases hholder : (if job.config.wrapPrimitives = true then holder? field.type else none) with
    | some holder =>
      simp only [hholder, bind_eq_ok, updateFile_eq_ok, pure_eq_ok] at h
      obtain ⟨_, _, rfl, rfl, rfl⟩ := h
      split at hholder
      · rename_i hwrap
        refine ⟨hs.grown_addDependency _, .held hrequired hrepeated hscalar hwrap hholder ?_⟩
        exact Table.mem_keys_insert.mpr (.inl rfl)
      · cases hholder
    | none =>
      simp only [hholder, pure_eq_ok] at h
      obtain ⟨rfl, rfl⟩ := h
      refine ⟨.refl hs, ?_⟩
      cases hnullable : schema.nullable with
      | false => exact .unmarked
      | true =>
        refine .optional hrequired hrepeated hscalar hnullable fun hwrap => ?_
        rwa [if_pos hwrap] at hholder

/-- A field is added whether or not there is a warning. -/
theorem addFieldOrWarn_eq_ok {parent filled : MessageDraft} {field : FieldDraft}
    {warning : String → String → Warning}
    (h : addFieldOrWarn parent field warning s = .ok filled s') :
    filled = parent.addField field ∧ ∃ warnings, s' = { s with warnings } := by
  unfold addFieldOrWarn at h
  split at h
  · simp only [bind_eq_ok, warn_eq_ok, pure_eq_ok] at h
    obtain ⟨_, _, hplace, _, _, rfl, rfl, rfl⟩ := h
    cases place_eq_ok hplace
    exact ⟨rfl, _, rfl⟩
  · obtain ⟨rfl, rfl⟩ := pure_eq_ok.mp h
    exact ⟨rfl, _, rfl⟩

/-- A slot refers to a component by the field that is made for it. -/
theorem Slot.refer_eq {slot : Slot} {parent : MessageDraft} {result : ComponentType}
    (fieldName : Option String)
    (hname : ∀ type, slot.fieldName type = fieldName.getD (Identifier.fieldName type)) :
    slot.refer parent result =
      ((fieldTo fieldName result).map fun field => parent.addField (slot.set none field)).getD
        parent := by
  cases result with
  | message type => rw [Slot.refer, hname]; rfl
  | enum type => rw [Slot.refer, hname]; rfl
  | nothing => rfl

/-- A property derives its slot. -/
theorem addMember_sound (hself : engine.Sound job) {parent filled : MessageDraft} {name : String}
    {property : SchemaNode} {required : Bool} {comment : Option String}
    (h : addMember engine job parent name property required comment s = .ok filled s')
    (hs : Justified job s) :
    Grown job s s' ∧
      Derives job s'.facts (.slot parent (.property name required comment) property)
        (some filled) := by
  cases property with
  | ref reference =>
    simp only [addMember, bind_eq_ok] at h
    obtain ⟨result, t, hreference, h⟩ := h
    obtain ⟨hgrown, hnames⟩ := referencedType_sound hself hreference hs
    -- the rule fills a slot, where the code makes a field of the component's type and adds it
    have hrefer : Derives job t.facts
        (.slot parent (.property name required comment) (.ref reference))
        (some (Slot.refer (.property name required comment) parent result)) := .reference hnames
    rw [Slot.refer_eq (some (Identifier.fieldName name)) fun _ => rfl] at hrefer
    cases hfield : fieldTo (some (Identifier.fieldName name)) result with
    | none =>
      rw [hfield] at hrefer
      simp only [hfield, pure_eq_ok] at h
      obtain ⟨rfl, rfl⟩ := h
      exact ⟨hgrown, hrefer⟩
    | some field =>
      rw [hfield] at hrefer
      simp only [hfield] at h
      obtain ⟨rfl, warnings, rfl⟩ := addFieldOrWarn_eq_ok h
      have hset :
          Slot.set (.property name required comment) none field = { field with comment } := by
        cases comment <;> rfl
      refine ⟨hgrown.trans (hgrown.justified.grown_warn _), ?_⟩
      rw [← hset]
      exact hrefer
  | inline schema =>
    simp only [addMember, bind_eq_ok] at h
    obtain ⟨compiled, t, hschema, h⟩ := h
    obtain ⟨hgrown, hderives⟩ := hself.schema hschema hs
    cases hfilter : compiled.filter (!·.isEmpty) with
    | none =>
      simp only [hfilter, pure_eq_ok] at h
      obtain ⟨rfl, rfl⟩ := h
      exact ⟨hgrown, .skipped hfilter hderives⟩
    | some child =>
      simp only [hfilter, bind_eq_ok] at h
      obtain ⟨⟨grown, field⟩, u, htaken, marked, v, hmarked, h⟩ := h
      obtain ⟨rfl, hempty⟩ := Option.filter_eq_some_iff.mp hfilter
      obtain ⟨hgrown', htaken⟩ := takeIn_sound hself htaken hgrown.justified
      obtain ⟨hgrown'', hmarked⟩ := markPresence_sound hmarked hgrown'.justified
      obtain ⟨rfl, warnings, rfl⟩ := addFieldOrWarn_eq_ok h
      refine ⟨hgrown.trans (hgrown'.trans (hgrown''.trans
        (hgrown''.justified.grown_warn _))), ?_⟩
      -- what was derived before the field was marked still stands afterwards
      refine Derives.taken ?_ (htaken.mono hgrown''.later.facts_le) hmarked
        (hderives.mono (hgrown'.trans hgrown'').later.facts_le)
      simpa using hempty

/-- Properties derive their slots, one after the other. -/
theorem addMembers_sound (hself : engine.Sound job) {parent filled : MessageDraft}
    {properties : List (String × SchemaNode)} {required : List String}
    (h : addMembers engine job parent properties required s = .ok filled s')
    (hs : Justified job s) :
    Grown job s s' ∧
      Derives job s'.facts (.slots parent (propertySlots properties required)) (some filled) := by
  unfold addMembers at h
  induction properties generalizing parent s with
  | nil =>
    obtain ⟨rfl, rfl⟩ := foldlM_nil_eq_ok.mp h
    exact ⟨.refl hs, .slotsNil⟩
  | cons entry rest ih =>
    obtain ⟨next, t, hfirst, hrest⟩ := foldlM_cons_eq_ok.mp h
    obtain ⟨hgrown, hslot⟩ := grown_within
      (P := fun facts => Derives job facts (.slot parent
        (.property entry.1 (required.contains entry.1) none) entry.2) (some next))
      hfirst hs (addMember_sound hself)
    obtain ⟨hgrown', hslots⟩ := ih hrest hgrown.justified
    exact ⟨hgrown.trans hgrown', .slotsCons (hslot.mono hgrown'.later.facts_le) hslots⟩

/-- A variant or the item of a list fills its slot with the field that is given back, once that is
set. -/
theorem unnamedMember_sound (hself : engine.Sound job) (slot : Slot) {parent : MessageDraft}
    {fieldName : Option String} {fallback : String} {node : SchemaNode}
    {given : MessageDraft × Option FieldDraft}
    (hname : ∀ type, slot.fieldName type = fieldName.getD (Identifier.fieldName type))
    (hhint : ∀ schema, slot.hint job schema = schema.title.getD fallback)
    (hrepeated : slot.allowsRepeated = false)
    (hmarks : ∀ facts schema field, slot.Marks job facts schema field field)
    (hset : ∀ description field, slot.set description field = slot.set none field)
    (h : unnamedMember engine job parent fieldName fallback node s = .ok given s')
    (hs : Justified job s) :
    Grown job s s' ∧ Derives job s'.facts (.slot parent slot node)
      (some ((given.2.map fun field => given.1.addField (slot.set none field)).getD given.1)) := by
  cases node with
  | ref reference =>
    simp only [unnamedMember, bind_eq_ok, pure_eq_ok] at h
    obtain ⟨result, t, hreference, rfl, rfl⟩ := h
    obtain ⟨hgrown, hnames⟩ := referencedType_sound hself hreference hs
    refine ⟨hgrown, ?_⟩
    have hrefer : Derives job s'.facts (.slot parent slot (.ref reference))
        (some (slot.refer parent result)) := .reference hnames
    rwa [Slot.refer_eq fieldName hname] at hrefer
  | inline schema =>
    simp only [unnamedMember, bind_eq_ok] at h
    obtain ⟨compiled, t, hschema, h⟩ := h
    obtain ⟨hgrown, hderives⟩ := hself.schema hschema hs
    rw [← hhint] at hderives
    cases hfilter : compiled.filter (!·.isEmpty) with
    | none =>
      simp only [hfilter, pure_eq_ok] at h
      obtain ⟨rfl, rfl⟩ := h
      exact ⟨hgrown, .skipped hfilter hderives⟩
    | some child =>
      simp only [hfilter, bind_eq_ok, pure_eq_ok] at h
      obtain ⟨⟨grown, field⟩, u, htaken, rfl, rfl⟩ := h
      obtain ⟨rfl, hempty⟩ := Option.filter_eq_some_iff.mp hfilter
      obtain ⟨hgrown', htaken⟩ := takeIn_sound hself htaken hgrown.justified
      -- in the terms of the slot, so that the rule for slots applies
      rw [← hname, ← hrepeated] at htaken
      have htakes := Derives.taken (by simpa using hempty) htaken (hmarks _ schema field)
        (hderives.mono hgrown'.later.facts_le)
      rw [hset] at htakes
      exact ⟨hgrown.trans hgrown', htakes⟩

/-- A variant of a union derives its slot. -/
theorem addVariant_sound (hself : engine.Sound job) {name label : String} {group : Int32}
    {parent filled : MessageDraft} {index : Nat} {node : SchemaNode}
    (h : addVariant engine job name label group parent (index, node) s = .ok filled s')
    (hs : Justified job s) :
    Grown job s s' ∧
      Derives job s'.facts (.slot parent (.variant name index group) node) (some filled) := by
  simp only [addVariant, bind_eq_ok] at h
  obtain ⟨given, t, hgiven, h⟩ := h
  obtain ⟨hgrown, hslot⟩ := grown_within
    (P := fun facts => Derives job facts (.slot parent (.variant name index group) node)
      (some ((given.2.map fun field =>
        given.1.addField (Slot.set (.variant name index group) none field)).getD given.1)))
    hgiven hs
    (unnamedMember_sound hself (.variant name index group) (fun _ => rfl) (fun _ => rfl)
      rfl (fun _ _ _ => rfl) fun _ _ => rfl)
  obtain ⟨grown, field?⟩ := given
  cases field? with
  | none =>
    obtain ⟨rfl, rfl⟩ := pure_eq_ok.mp h
    exact ⟨hgrown, hslot⟩
  | some field =>
    obtain ⟨rfl, warnings, rfl⟩ := addFieldOrWarn_eq_ok h
    exact ⟨hgrown.trans (hgrown.justified.grown_warn _), hslot⟩

/-- Variants of a union derive their slots, one after the other. -/
theorem addVariants_sound (hself : engine.Sound job) {name label : String} {group : Int32}
    {parent filled : MessageDraft} {variants : List (SchemaNode × Nat)}
    (h : (variants.map fun variant => (variant.2, variant.1)).foldlM
      (addVariant engine job name label group) parent s = .ok filled s')
    (hs : Justified job s) :
    Grown job s s' ∧
      Derives job s'.facts
        (.slots parent (variants.map fun variant => (.variant name variant.2 group, variant.1)))
        (some filled) := by
  induction variants generalizing parent s with
  | nil =>
    obtain ⟨rfl, rfl⟩ := foldlM_nil_eq_ok.mp h
    exact ⟨.refl hs, .slotsNil⟩
  | cons variant rest ih =>
    obtain ⟨next, t, hfirst, hrest⟩ := foldlM_cons_eq_ok.mp h
    obtain ⟨hgrown, hslot⟩ := addVariant_sound hself hfirst hs
    obtain ⟨hgrown', hslots⟩ := ih hrest hgrown.justified
    exact ⟨hgrown.trans hgrown', .slotsCons (hslot.mono hgrown'.later.facts_le) hslots⟩

/-- A union derives the slots of its variants. -/
theorem unionMessage_sound (hself : engine.Sound job) {name label : String} {schema : Schema}
    {variants : List SchemaNode} {draft : MessageDraft}
    (h : unionMessage engine job name schema label variants s = .ok draft s')
    (hs : Justified job s) :
    Grown job s s' ∧
      Derives job s'.facts (.slots (unionStart name schema) (variantSlots name variants))
        (some draft) :=
  addVariants_sound hself h hs

/-! ### Shapes -/

/-- Variants that are absorbed derive what they are absorbed into. -/
theorem absorbAll_sound (hself : engine.Sound job) {draft merged : MessageDraft}
    {variants : List (SchemaNode × Nat)}
    (h : variants.foldlM
      (fun draft variant =>
        within ("allOf[" ++ toString variant.2 ++ "]") (engine.absorb draft variant.1))
      draft s = .ok merged s')
    (hs : Justified job s) :
    Grown job s s' ∧
      Derives job s'.facts (.absorbAll draft (variants.map (·.1))) (some merged) := by
  induction variants generalizing draft s with
  | nil =>
    obtain ⟨rfl, rfl⟩ := foldlM_nil_eq_ok.mp h
    exact ⟨.refl hs, .absorbNil⟩
  | cons variant rest ih =>
    obtain ⟨next, t, hfirst, hrest⟩ := foldlM_cons_eq_ok.mp h
    obtain ⟨hgrown, habsorb⟩ := grown_within
      (P := fun facts => Derives job facts (.absorb draft variant.1) (some next))
      hfirst hs hself.absorb
    obtain ⟨hgrown', habsorbs⟩ := ih hrest hgrown.justified
    exact ⟨hgrown.trans hgrown', .absorbCons (habsorb.mono hgrown'.later.facts_le) habsorbs⟩

/-- What `allOf` combines derives its variants first and then its properties. -/
theorem combinedMessage_sound (hself : engine.Sound job) {name : String} {schema : Schema}
    {variants : List SchemaNode} {properties : List (String × SchemaNode)}
    {required : List String} {draft : MessageDraft}
    (h : combinedMessage engine job name schema variants properties required s = .ok draft s')
    (hs : Justified job s) :
    Grown job s s' ∧ ∃ merged,
      Derives job s'.facts (.absorbAll { name, comment := schema.description } variants)
        (some merged) ∧
      Derives job s'.facts (.slots merged (propertySlots properties required)) (some draft) := by
  simp only [combinedMessage, bind_eq_ok] at h
  obtain ⟨merged, t, habsorb, hmembers⟩ := h
  obtain ⟨hgrown, habsorb⟩ := absorbAll_sound hself habsorb hs
  rw [List.zipIdx_map_fst] at habsorb
  obtain ⟨hgrown', hmembers⟩ := addMembers_sound hself hmembers hgrown.justified
  exact ⟨hgrown.trans hgrown', merged, habsorb.mono hgrown'.later.facts_le, hmembers⟩

/-- A list at the top level derives the slot of its items. -/
theorem listWrapper_sound (hself : engine.Sound job) {name : String} {schema : Schema}
    {items : SchemaNode} {compiled : Option MessageDraft}
    (h : listWrapper engine job name schema (some items) s = .ok compiled s')
    (hs : Justified job s) :
    Grown job s s' ∧
      Derives job s'.facts
        (.slot { name, comment := schema.description, wrapper := true } (.item name) items)
        compiled := by
  simp only [listWrapper, bind_eq_ok] at h
  obtain ⟨given, t, hgiven, h⟩ := h
  obtain ⟨hgrown, hslot⟩ := grown_within
    (P := fun facts => Derives job facts
      (.slot { name, comment := schema.description, wrapper := true } (.item name) items)
      (some ((given.2.map fun field =>
        given.1.addField (Slot.set (.item name) none field)).getD given.1)))
    hgiven hs
    (unnamedMember_sound hself (.item name) (fun _ => rfl) (fun _ => rfl)
      rfl (fun _ _ _ => rfl) fun _ _ => rfl)
  obtain ⟨grown, field?⟩ := given
  -- without a field the wrapper stays empty
  cases field? with
  | none =>
    obtain ⟨rfl, rfl⟩ := pure_eq_ok.mp h
    exact ⟨hgrown, hslot⟩
  | some field =>
    obtain ⟨rfl, rfl⟩ := pure_eq_ok.mp h
    exact ⟨hgrown, hslot⟩

/-- An order that is accepted moves the fields that it names to the front. -/
theorem reorder_eq_ok {draft moved : MessageDraft} {order : Value}
    (h : reorder draft order s = .ok moved s') :
    s' = s ∧ ∃ names, moved = draft.moveToFront names := by
  -- only a list of names does not fail
  have hcases : (∃ names, reorder draft order = pure (draft.moveToFront names)) ∨
      reorder draft order = (do throw (.invalidPropertyOrder (← place))) := by
    unfold reorder
    split
    · split
      · exact .inl ⟨_, rfl⟩
      · exact .inr rfl
    · exact .inr rfl
  rcases hcases with ⟨names, hnames⟩ | hfails
  · rw [hnames, pure_eq_ok] at h
    exact ⟨h.2, names, h.1⟩
  · simp only [hfails, bind_eq_ok] at h
    obtain ⟨_, _, -, h⟩ := h
    exact absurd h throw_ne_ok

/-- A message of a scalar is made only where the schema describes one. -/
theorem scalarMessage_eq_ok {name : String} {schema : Schema} {draft : MessageDraft}
    (h : scalarMessage name schema s = .ok draft s') :
    ∃ type, scalarType? schema.shape = some type ∧ draft = scalarWrapper name schema type ∧
      s' = s := by
  cases htype : scalarType? schema.shape with
  | some type =>
    simp only [scalarMessage, htype, pure_eq_ok] at h
    obtain ⟨rfl, rfl⟩ := h
    exact ⟨type, rfl, rfl, rfl⟩
  | none =>
    simp only [scalarMessage, htype, bind_eq_ok] at h
    obtain ⟨_, _, -, h⟩ := h
    exact absurd h throw_ne_ok

/-- Every shape has its rule. -/
theorem messageOfShape_sound (hself : engine.Sound job) {name : String} {schema : Schema}
    {compiled : Option MessageDraft}
    (h : messageOfShape engine job name schema s = .ok compiled s') (hs : Justified job s) :
    Grown job s s' ∧ Derives job s'.facts (.shape name schema) compiled := by
  unfold messageOfShape at h
  -- every shape has a rule of its own
  cases hshape : schema.shape with
  | map value =>
    simp only [hshape] at h
    obtain ⟨hgrown, hvalue⟩ := grown_within
      (P := fun facts => Derives job facts (.node name value) compiled) h hs hself.node
    exact ⟨hgrown, .map hshape hvalue⟩
  | enum literals =>
    simp only [hshape, map_eq_ok] at h
    obtain ⟨draft, hcarrier, rfl⟩ := h
    obtain ⟨-, warnings, rfl⟩ := enumCarrier_eq_ok hcarrier
    exact ⟨hs.grown_warn _, .enum hshape hcarrier⟩
  | oneOf variants =>
    simp only [hshape, map_eq_ok] at h
    obtain ⟨draft, hunion, rfl⟩ := h
    obtain ⟨hgrown, hslots⟩ := unionMessage_sound hself hunion hs
    exact ⟨hgrown, .union (.inl hshape) hslots⟩
  | anyOf variants =>
    simp only [hshape, map_eq_ok] at h
    obtain ⟨draft, hunion, rfl⟩ := h
    obtain ⟨hgrown, hslots⟩ := unionMessage_sound hself hunion hs
    exact ⟨hgrown, .union (.inr hshape) hslots⟩
  | allOf variants properties required =>
    simp only [hshape, map_eq_ok] at h
    obtain ⟨draft, hcombined, rfl⟩ := h
    obtain ⟨hgrown, merged, habsorb, hslots⟩ := combinedMessage_sound hself hcombined hs
    exact ⟨hgrown, .combined hshape habsorb hslots⟩
  | boolean
  | integer _
  | number _
  | string _ =>
    simp only [hshape, map_eq_ok] at h
    obtain ⟨draft, hscalar, rfl⟩ := h
    obtain ⟨type, htype, rfl, rfl⟩ := scalarMessage_eq_ok hscalar
    exact ⟨.refl hs, .scalar htype⟩
  | array items =>
    simp only [hshape] at h
    cases items with
    | none =>
      obtain ⟨rfl, rfl⟩ := pure_eq_ok.mp h
      exact ⟨.refl hs, .bareList hshape⟩
    | some items =>
      obtain ⟨hgrown, hslot⟩ := listWrapper_sound hself h hs
      exact ⟨hgrown, .list hshape hslot⟩
  | object properties required =>
    simp only [hshape, map_eq_ok] at h
    obtain ⟨draft, hobject, rfl⟩ := h
    obtain ⟨hgrown, hslots⟩ := addMembers_sound hself hobject hs
    exact ⟨hgrown, .object hshape hslots⟩
  | any =>
    simp only [hshape, pure_eq_ok] at h
    obtain ⟨rfl, rfl⟩ := h
    exact ⟨.refl hs, .any hshape⟩

/-- A schema is derived by its shape, and then its fields are put in order. -/
theorem messageOfSchema_sound (hself : engine.Sound job) {hint : String} {schema : Schema}
    {compiled : Option MessageDraft}
    (h : messageOfSchema engine job hint schema s = .ok compiled s') (hs : Justified job s) :
    Grown job s s' ∧ Derives job s'.facts (.schema hint schema) compiled := by
  simp only [messageOfSchema, bind_eq_ok] at h
  obtain ⟨shaped, t, hshaped, h⟩ := h
  obtain ⟨hgrown, hderives⟩ := messageOfShape_sound hself hshaped hs
  -- an order moves fields of a message that was derived
  cases shaped with
  | none =>
    obtain ⟨rfl, rfl⟩ := pure_eq_ok.mp h
    exact ⟨hgrown, .unordered (.inl rfl) hderives⟩
  | some draft =>
    cases horder : schema.propertyOrder with
    | none =>
      simp only [horder, pure_eq_ok] at h
      obtain ⟨rfl, rfl⟩ := h
      exact ⟨hgrown, .unordered (.inr horder) hderives⟩
    | some order =>
      simp only [horder, map_eq_ok] at h
      obtain ⟨moved, hmoved, rfl⟩ := h
      obtain ⟨rfl, names, rfl⟩ := reorder_eq_ok hmoved
      exact ⟨hgrown, .ordered hderives⟩

/-! ### The calls themselves -/

/-- A node is derived by the schema that its references lead to. -/
theorem messageOfNode_sound (hself : engine.Sound job) {hint : String} {node : SchemaNode}
    {compiled : Option MessageDraft}
    (h : messageOfNode engine job hint node s = .ok compiled s') (hs : Justified job s) :
    Grown job s s' ∧ Derives job s'.facts (.node hint node) compiled := by
  cases node with
  | inline schema =>
    obtain ⟨hgrown, hderives⟩ := hself.schema h hs
    exact ⟨hgrown, .inline hderives⟩
  | ref reference =>
    simp only [messageOfNode, bind_eq_ok] at h
    obtain ⟨⟨key, target⟩, t, hfind, h⟩ := h
    obtain ⟨hkey, htarget, rfl⟩ := findSchema_eq_ok hfind
    obtain ⟨hgrown, hderives⟩ := grown_entering
      (P := fun facts => Derives job facts (.node hint target) compiled) h hs hself.node
    exact ⟨hgrown, .expanded hkey htarget hderives⟩

/-- A variant is absorbed through the references that it is behind. -/
theorem absorb_sound (hself : engine.Sound job) {draft merged : MessageDraft} {node : SchemaNode}
    (h : absorb engine job draft node s = .ok merged s') (hs : Justified job s) :
    Grown job s s' ∧ Derives job s'.facts (.absorb draft node) (some merged) := by
  cases node with
  | ref reference =>
    simp only [absorb, bind_eq_ok] at h
    obtain ⟨⟨key, target⟩, t, hfind, h⟩ := h
    obtain ⟨hkey, htarget, rfl⟩ := findSchema_eq_ok hfind
    obtain ⟨hgrown, hderives⟩ := grown_entering
      (P := fun facts => Derives job facts (.absorb draft target) (some merged)) h hs
      hself.absorb
    exact ⟨hgrown, .absorbReference hkey htarget hderives⟩
  | inline schema =>
    simp only [absorb] at h
    -- only objects are merged; anything else is left out with a warning
    split at h
    · rename_i hobject
      simp only [bind_eq_ok, warn_eq_ok, pure_eq_ok] at h
      obtain ⟨_, _, hplace, _, _, rfl, rfl, rfl⟩ := h
      cases place_eq_ok hplace
      exact ⟨hs.grown_warn _, .ignored (by simpa using hobject)⟩
    · rename_i hobject
      simp only [Bool.not_eq_true', Bool.not_eq_false] at hobject
      simp only [bind_eq_ok] at h
      obtain ⟨compiled, t, hschema, h⟩ := h
      obtain ⟨hgrown, hderives⟩ := hself.schema hschema hs
      cases compiled with
      | none =>
        obtain ⟨rfl, rfl⟩ := pure_eq_ok.mp h
        exact ⟨hgrown, .absorbNothing hobject hderives⟩
      | some child =>
        obtain ⟨rfl, rfl⟩ := pure_eq_ok.mp h
        exact ⟨hgrown, .merged hobject hderives⟩

/-- What is declared for a compiled schema is what it became; components are not touched. -/
theorem declareType_sound {compiled : Option MessageDraft} {result : ComponentType}
    (h : declareType compiled s = .ok result s') (hs : Justified job s)
    (hmessage : ∀ draft ∈ compiled, draft.isEmpty = false → draft.carriedEnum? = none →
      Emitted job s.facts draft)
    (henum : ∀ draft ∈ compiled, ∀ enum, draft.carriedEnum? = some enum →
      ∃ hint node carrier, Derives job s.facts (.node hint node) (some carrier) ∧
        carrier.carriedEnum? = some enum)
    (hsourced : ∀ draft ∈ compiled, ∀ among, Sourced job s.facts among draft) :
    Grown job s s' ∧ Became s'.file compiled result ∧ s'.schemas = s.schemas ∧
      s'.bodies = s.bodies := by
  unfold declareType at h
  cases hfilter : compiled.filter (!·.isEmpty) with
  | none =>
    simp only [hfilter, pure_eq_ok] at h
    obtain ⟨rfl, rfl⟩ := h
    exact ⟨.refl hs, .nothing hfilter, rfl, rfl⟩
  | some draft =>
    simp only [hfilter] at h
    obtain ⟨rfl, hempty⟩ := Option.filter_eq_some_iff.mp hfilter
    have hempty : draft.isEmpty = false := by simpa using hempty
    -- the carrier of an enum is declared as the enum
    cases hcarried : draft.carriedEnum? with
    | some enum =>
      simp only [hcarried, bind_eq_ok, updateFile_eq_ok, pure_eq_ok] at h
      obtain ⟨_, _, rfl, rfl, rfl⟩ := h
      obtain ⟨_, _, carrier, hderives, hcarrier⟩ := henum draft rfl enum hcarried
      exact ⟨⟨hs.reached_addEnum hderives hcarrier, (·.addEnum (hsourced draft rfl _) hcarried)⟩,
        .enum hempty hcarried (FileDraft.hasType_addEnum _ _), rfl, rfl⟩
    | none =>
      simp only [hcarried, bind_eq_ok, updateFile_eq_ok, pure_eq_ok] at h
      obtain ⟨_, _, rfl, rfl, rfl⟩ := h
      have hemitted := hmessage draft rfl hempty hcarried
      exact ⟨⟨hs.reached_addMessage hemitted, (·.addMessage (hsourced draft rfl _))⟩,
        .message hempty hcarried (FileDraft.hasType_addMessage _ _), rfl, rfl⟩

/-- A component that is declared is settled with the type that it gets. -/
theorem declareSchema_sound (hself : engine.Sound job) {key : String} {node : SchemaNode}
    {result : ComponentType} (h : declareSchema engine job key node s = .ok result s')
    (hnode : job.document.components.schemas.find? key = some node) (hs : Justified job s) :
    Grown job s s' ∧ s'.schemas.lookup key = some result := by
  simp only [declareSchema, bind_eq_ok, get_eq_ok] at h
  obtain ⟨s₀, s₁, ⟨hread, hkept⟩, h⟩ := h
  subst s₀ s₁
  cases hlookup : s.schemas.lookup key with
  | some known =>
    simp only [hlookup, pure_eq_ok] at h
    obtain ⟨rfl, rfl⟩ := h
    exact ⟨.refl hs, hlookup⟩
  | none =>
    simp only [hlookup, bind_eq_ok, modify_eq_ok, pure_eq_ok] at h
    obtain ⟨compiled, t, hcompiled, _, u, hresult, _, _, rfl, rfl, rfl⟩ := h
    obtain ⟨hfree, t₁, ht₁, rfl⟩ := entering_eq_ok hcompiled
    obtain ⟨t₂, ht₂, rfl⟩ := under_eq_ok.mp ht₁
    obtain ⟨hinner, hderives⟩ := hself.node ht₂ (hs.of_eq rfl rfl rfl)
    -- while the component is being compiled, nothing settles what it becomes
    have hopen : t₂.schemas.lookup key = none :=
      hinner.later.lookup_schemas_eq_none (by simp) hlookup
    have hgrown : Grown job s { t₂ with chain := t₂.chain.dropLast, scope := s.scope } :=
      Grown.entering (Grown.under hinner)
    obtain ⟨hgrown', hbecame, hschemas, -⟩ := declareType_sound hresult hgrown.justified
      (fun draft hdraft hempty hcarried => by
        cases hdraft
        exact .component hderives hempty hcarried)
      (fun draft hdraft enum hcarried => by
        cases hdraft
        exact ⟨_, _, draft, hderives, hcarried⟩)
      (fun draft hdraft among => by
        cases hdraft
        exact .schema hnode hderives)
    -- the chain is the one from the start, where the component was not yet entered
    have hchain : key ∉ u.chain := by
      rw [(hgrown.trans hgrown').later.chain]
      exact hfree
    have hnoted := hgrown'.justified.grown_schema hchain hnode
      hgrown'.later.facts_le hschemas.symm hderives hbecame
    refine ⟨hgrown.trans (hgrown'.trans hnoted), ?_⟩
    show (u.schemas ++ [(key, result)]).lookup key = some result
    rw [hschemas, List.lookup_append, hopen]
    simp

/-- The type of a shared request body is declared. -/
theorem typeOfBody_sound (hself : engine.Sound job) {key : String} {body : Referable RequestBody}
    {result : ComponentType} (h : typeOfBody engine job key body s = .ok result s')
    (hbody : job.document.components.requestBodies.find? key = some body) (hs : Justified job s) :
    Grown job s s' ∧ Declared s'.file result := by
  simp only [typeOfBody, bind_eq_ok] at h
  obtain ⟨content, t, hfollow, h⟩ := h
  cases follow_eq_ok hfollow
  -- a body without JSON has no type, and a reference leads to that of a component
  cases hschema : content.content.jsonSchema? with
  | none =>
    simp only [hschema, pure_eq_ok] at h
    obtain ⟨rfl, rfl⟩ := h
    exact ⟨.refl hs, trivial⟩
  | some node =>
    cases node with
    | ref reference =>
      simp only [hschema] at h
      obtain ⟨hgrown, key, node, -, -, hlookup⟩ := referencedType_sound hself h hs
      exact ⟨hgrown, hgrown.justified.declared_of_lookup hlookup⟩
    | inline schema =>
      simp only [hschema, bind_eq_ok] at h
      obtain ⟨compiled, t, hcompiled, hresult⟩ := h
      obtain ⟨hgrown, hderives⟩ := hself.schema hcompiled hs
      obtain ⟨hgrown', hbecame, -, -⟩ := declareType_sound hresult hgrown.justified
        (fun draft hdraft hempty hcarried => by
          obtain ⟨draft, rfl, rfl⟩ := Option.map_eq_some_iff.mp hdraft
          exact .body _ hderives hempty hcarried)
        (fun draft hdraft enum hcarried => by
          obtain ⟨draft, rfl, rfl⟩ := Option.map_eq_some_iff.mp hdraft
          exact ⟨_, _, draft, .inline hderives, hcarried⟩)
        (fun draft hdraft among => by
          obtain ⟨draft, rfl, rfl⟩ := Option.map_eq_some_iff.mp hdraft
          exact .body _ hbody (leadsTo_of_followFrom hfollow) hschema hderives)
      exact ⟨hgrown.trans hgrown', hbecame.declared⟩

/-- A shared request body that is declared is settled with the type that it gets. -/
theorem declareBody_sound (hself : engine.Sound job) {key : String} {body : Referable RequestBody}
    {result : ComponentType} (h : declareBody engine job key body s = .ok result s')
    (hbody : job.document.components.requestBodies.find? key = some body) (hs : Justified job s) :
    Grown job s s' ∧ s'.bodies.lookup key = some result := by
  simp only [declareBody, bind_eq_ok, get_eq_ok] at h
  obtain ⟨s₀, s₁, ⟨hread, hkept⟩, h⟩ := h
  subst s₀ s₁
  cases hlookup : s.bodies.lookup key with
  | some known =>
    simp only [hlookup, pure_eq_ok] at h
    obtain ⟨rfl, rfl⟩ := h
    exact ⟨.refl hs, hlookup⟩
  | none =>
    simp only [hlookup, bind_eq_ok, modify_eq_ok, pure_eq_ok] at h
    obtain ⟨_, t, hresult, _, _, rfl, rfl, rfl⟩ := h
    obtain ⟨hfree, t₁, ht₁, rfl⟩ := entering_eq_ok hresult
    obtain ⟨t₂, ht₂, rfl⟩ := under_eq_ok.mp ht₁
    obtain ⟨hinner, hdeclared⟩ := typeOfBody_sound hself ht₂ hbody (hs.of_eq rfl rfl rfl)
    -- as for schemas, nothing settles the body while it is being compiled
    have hopen : t₂.bodies.lookup key = none :=
      hinner.later.lookup_bodies_eq_none (by simp) hlookup
    have hgrown : Grown job s { t₂ with chain := t₂.chain.dropLast, scope := s.scope } :=
      Grown.entering (Grown.under hinner)
    have hchain : "requestBodies." ++ key ∉ t₂.chain.dropLast := by
      rw [show t₂.chain.dropLast = s.chain from hgrown.later.chain]
      exact hfree
    refine ⟨hgrown.trans (hgrown.justified.grown_body hchain hdeclared), ?_⟩
    show (t₂.bodies ++ [(key, result)]).lookup key = some result
    rw [List.lookup_append, hopen]
    simp

/-- One more level of calls keeps an engine sound. -/
theorem Engine.Sound.step (hself : engine.Sound job) : (Engine.step job engine).Sound job where
  node h hs := messageOfNode_sound hself h hs
  schema h hs := messageOfSchema_sound hself h hs
  absorb h hs := absorb_sound hself h hs
  component h hnode hs := declareSchema_sound hself h hnode hs
  requestBody h hbody hs := declareBody_sound hself h hbody hs

end

/-- All engines are sound: each level is sound over the one below it. -/
theorem Engine.Sound.ofLevels (job : Job) (levels : Nat) :
    (Engine.ofLevels job levels).Sound job := by
  induction levels with
  | zero => exact .exhausted job
  | succ levels ih => exact ih.step

/-- The engine of a job is sound. -/
theorem Job.engine_sound (job : Job) : job.engine.Sound job :=
  .ofLevels job job.levels

end Protoscribe.Compile
