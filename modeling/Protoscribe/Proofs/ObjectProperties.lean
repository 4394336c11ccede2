import Protoscribe.Proofs.Compile.Blank
import Protoscribe.Proofs.Compile.Tidy
import Protoscribe.Proofs.Compile.ValueNames
import Protoscribe.Proofs.Operations
import Protoscribe.Proofs.ParameterOverrides

/-!
# `Protoscribe.Proofs.ObjectProperties`: the fields of an object

An object becomes a message with a field for each of its properties, in the order of the
description. A property whose schema holds nothing has no field, and of several properties with one
name only the first has one. The message says so in a warning for each later one.

The loop over the properties forgets where a field or a warning came from. `Turns` follows it
property by property and keeps apart what a property offers to the message, which warnings came up
inside it, and which one the message added (`exists_turns`, `Turns.addMembers_eq`).
`Turns.fields_eq`, `Turns.warnings_eq` and `Turns.own_eq` are the inductions over the properties,
over any engine that is tidy and from any state.

Which properties offer nothing depends on the description only, and not on the moment of the run:
those whose schema is blank (`Turns.offer_eq_none_iff_blank`).
-/

set_option autoImplicit false

namespace Protoscribe

/-- Do two fields have one name? -/
def FieldDraft.sameName (field other : FieldDraft) : Bool :=
  other.name == field.name

namespace Compile

open OpenApi (Document Schema SchemaNode)

/-! ### First fields -/

/-- The first fields of their names have the names, each once. -/
theorem map_name_eraseDupsBy (fields : List FieldDraft) :
    (fields.eraseDupsBy FieldDraft.sameName).map (·.name) = (fields.map (·.name)).eraseDups := by
  induction fields using List.reverseRecOn with
  | nil => rfl
  | append_singleton fields field ih =>
    have htaken : (fields.eraseDupsBy FieldDraft.sameName).any (FieldDraft.sameName field) =
        (fields.map (·.name)).eraseDups.any (field.name == ·) := by
      rw [← ih, List.any_map]
      congr 1
      exact funext fun other => BEq.comm
    rw [List.map_append, List.map_singleton, List.eraseDups, eraseDupsBy_concat, eraseDupsBy_concat,
      ← List.eraseDups, ← htaken, ← ih]
    split
    · rfl
    · rw [List.map_append, List.map_singleton]

/-- When the fields of a message are the first ones of some fields, they still are when one more is
offered. -/
theorem fields_addField_of_first {parent : MessageDraft} {before : List FieldDraft}
    (hparent : parent.InStep) (h : parent.fields = before.eraseDupsBy FieldDraft.sameName)
    (field : FieldDraft) :
    (parent.addField field).fields = (before ++ [field]).eraseDupsBy FieldDraft.sameName := by
  have htaken : (before.eraseDupsBy FieldDraft.sameName).any (FieldDraft.sameName field) =
      parent.hasField field.name := by
    rw [← h, Bool.eq_iff_iff, hparent.hasField_iff]
    simp [FieldDraft.sameName, MessageDraft.fieldNames]
  rw [eraseDupsBy_concat, htaken, ← h, MessageDraft.fields_addField]
  cases htaken : parent.hasField field.name <;> simp [htaken]

/-- A name is taken exactly when a field of this name was offered. -/
theorem hasField_of_first {parent : MessageDraft} {before : List FieldDraft}
    (hparent : parent.InStep) (h : parent.fields = before.eraseDupsBy FieldDraft.sameName)
    {name : String} :
    parent.hasField name = true ↔ ∃ field ∈ before, field.name = name := by
  rw [hparent.hasField_iff, MessageDraft.fieldNames, h, map_name_eraseDupsBy,
    List.mem_eraseDups, List.mem_map]

/-! ### Offers of properties -/

/-- The target of a property holds nothing: a reference leads to a component that became nothing, or
an inline schema compiles to nothing, or to a message without members. -/
inductive HoldsNothing (engine : Engine) (job : Job) (name : String) (s : State) :
    SchemaNode → Prop
  | ref {reference : String} {t : State}
      (h : referencedType engine job reference s = .ok .nothing t) :
      HoldsNothing engine job name s (.ref reference)
  | inline {schema : Schema} {compiled : Option MessageDraft} {t : State}
      (h : engine.schema (job.messageName name) schema s = .ok compiled t)
      (hempty : compiled.filter (!·.isEmpty) = none) :
      HoldsNothing engine job name s (.inline schema)

section

variable {engine : Engine} {job : Job} {parent nested : MessageDraft} {name : String}
  {property : SchemaNode} {required : Bool} {comment : Option String} {offer : Option FieldDraft}
  {s t : State}

/-- What a property offers is found without leaving the place. -/
theorem offerMember_tidy (h : engine.Tidy) (job : Job) (parent : MessageDraft) (name : String)
    (property : SchemaNode) (required : Bool) (comment : Option String) :
    Tidy (offerMember engine job parent name property required comment) := by
  cases property with
  | ref reference => exact .bind (referencedType_tidy h job reference) fun _ => .pure _
  | inline schema =>
    refine .bind (h.schema _ _) fun compiled => ?_
    split
    · exact .pure _
    · exact .bind (takeIn_tidy h _ _ _ _ _) fun _ =>
        .bind (markPresence_tidy _ _ _ _) fun _ => .pure _

/-- A property whose target holds nothing offers nothing, and every other one offers a field. -/
theorem offer_eq_none_iff
    (h : offerMember engine job parent name property required comment s = .ok (nested, offer) t) :
    offer = none ↔ HoldsNothing engine job name s property := by
  -- a reference offers nothing when its component has no type, an inline schema when it is empty
  cases property with
  | ref reference =>
    simp only [offerMember, bind_eq_ok, pure_eq_ok] at h
    obtain ⟨result, u, hresult, heq, -⟩ := h
    cases heq
    rw [Option.map_eq_none_iff]
    constructor
    · intro hnone
      cases result with
      | message type => cases hnone
      | enum type => cases hnone
      | nothing => exact .ref hresult
    · rintro ⟨hnothing⟩
      cases hresult.symm.trans hnothing
      rfl
  | inline schema =>
    simp only [offerMember, bind_eq_ok] at h
    obtain ⟨compiled, u, hschema, h⟩ := h
    cases hfilter : compiled.filter (!·.isEmpty) with
    | none =>
      simp only [hfilter, pure_eq_ok] at h
      cases h.1
      exact iff_of_true rfl (.inline hschema hfilter)
    | some child =>
      simp only [hfilter, bind_eq_ok, pure_eq_ok] at h
      obtain ⟨_, _, -, _, _, -, heq, -⟩ := h
      cases heq
      refine iff_of_false (by simp) ?_
      rintro (_ | ⟨hschema', hempty⟩)
      cases hschema.symm.trans hschema'
      rw [hfilter] at hempty
      cases hempty

/-- In a state of a run, the targets that hold nothing are those whose schema is blank. -/
theorem holdsNothing_iff_blank (hself : engine.Sound job) (hs : Justified job s)
    (h : offerMember engine job parent name property required comment s = .ok (nested, offer) t) :
    HoldsNothing engine job name s property ↔ Blank job.document property := by
  -- a state that is justified knows exactly the blank components as those without a type
  cases property with
  | ref reference =>
    simp only [offerMember, bind_eq_ok] at h
    obtain ⟨result, u, hresult, -⟩ := h
    obtain ⟨hgrown, hnames⟩ := referencedType_sound hself hresult hs
    rw [← hgrown.justified.names_nothing_iff hnames]
    constructor
    · rintro ⟨hnothing⟩
      cases hresult.symm.trans hnothing
      rfl
    · rintro rfl
      exact .ref hresult
  | inline schema =>
    simp only [offerMember, bind_eq_ok] at h
    obtain ⟨compiled, u, hschema, -⟩ := h
    obtain ⟨hgrown, hderives⟩ := hself.schema hschema hs
    rw [← hgrown.justified.isEmpty_iff_blank hderives]
    constructor
    · rintro (_ | ⟨hschema', hempty⟩)
      cases hschema.symm.trans hschema'
      exact hempty
    · exact .inline hschema

/-- Adding a property is adding what it offers. -/
theorem addMember_of_offer {filled : MessageDraft} {u : State}
    (h : offerMember engine job parent name property required comment s = .ok (nested, offer) t)
    (hadd : addOffered nested offer t = .ok filled u) :
    addMember engine job parent name property required comment s = .ok filled u := by
  rw [addMember_eq, bind_eq_ok]
  exact ⟨_, _, h, hadd⟩

/-- A field comes in with a warning exactly when its name is taken. -/
theorem addFieldOrWarn_eq (parent : MessageDraft) (field : FieldDraft)
    (warning : String → String → Warning) (s : State) :
    addFieldOrWarn parent field warning s = .ok (parent.addField field)
      { s with warnings := s.warnings ++
          if parent.hasField field.name then [warning s.place field.name] else [] } := by
  unfold addFieldOrWarn
  cases htaken : parent.hasField field.name with
  | true => rfl
  | false =>
    simp only [Bool.false_eq_true, if_false, List.append_nil]
    rfl

end

/-! ### Turns -/

/-- A property of an object, when it has its turn. -/
structure Turn where
  name : String
  node : SchemaNode
  /-- The state in which the property is compiled. -/
  start : State
  /-- The field that the property offers to the message. -/
  offer : Option FieldDraft
  /-- The warnings that come up inside the property. -/
  inner : List Warning
  /-- The warnings of the message about the property. -/
  own : List Warning

/-- The property offers a field, and an earlier one has offered a field of the same name. -/
def Turn.isRepeated (earlier : List Turn) (turn : Turn) : Bool :=
  turn.offer.isSome && earlier.any fun other =>
    other.offer.isSome && Identifier.fieldName other.name == Identifier.fieldName turn.name

/-- When the fields of a message are the first ones of some fields, they still are when a field has
been offered. -/
theorem fields_addOffered {parent filled : MessageDraft} {before : List FieldDraft}
    {offer : Option FieldDraft} {s t : State} (hparent : parent.InStep)
    (h : parent.fields = before.eraseDupsBy FieldDraft.sameName)
    (hadd : addOffered parent offer s = .ok filled t) :
    filled.fields = (before ++ offer.toList).eraseDupsBy FieldDraft.sameName := by
  cases offer with
  | none =>
    obtain ⟨rfl, -⟩ := pure_eq_ok.mp hadd
    simpa using h
  | some field =>
    rw [(addFieldOrWarn_eq_ok hadd).1, fields_addField_of_first hparent h]
    rfl

/-- A step that comes back leaves the place of warnings. -/
theorem Back.place {s t : State} (h : Back s t) : t.place = s.place := by
  rw [State.place, State.place, h.scope]

/-- The message warns of a field that is offered exactly when its name is taken. -/
theorem own_of_addOffered {parent filled : MessageDraft} {before : List FieldDraft}
    {offer : Option FieldDraft} {s t : State} {own : List Warning} {place name : String}
    (hparent : parent.InStep) (h : parent.fields = before.eraseDupsBy FieldDraft.sameName)
    (hplace : s.place = place) (hname : ∀ field ∈ offer, field.name = name)
    (hadd : addOffered parent offer s = .ok filled t) (hown : t.warnings = s.warnings ++ own) :
    own = if offer.isSome && before.any fun other => other.name == name
      then [.repeatedField place name] else [] := by
  subst hplace
  cases offer with
  | none =>
    obtain ⟨-, rfl⟩ := pure_eq_ok.mp hadd
    simpa using hown
  | some field =>
    have htaken : parent.hasField name = before.any fun other => other.name == name := by
      rw [Bool.eq_iff_iff, hasField_of_first hparent h]
      simp
    rw [addOffered, addFieldOrWarn_eq, EStateM.Result.ok.injEq] at hadd
    rw [← hadd.2, List.append_right_inj, hname field rfl, htaken] at hown
    exact hown.symm

/-- The names of the fields that are offered are those of the properties that offer them. -/
theorem map_name_offers {turns : List Turn}
    (h : ∀ turn ∈ turns, ∀ field ∈ turn.offer, field.name = Identifier.fieldName turn.name) :
    (turns.filterMap (·.offer)).map (·.name) =
      (turns.filter (·.offer.isSome)).map fun turn => Identifier.fieldName turn.name := by
  induction turns with
  | nil => rfl
  | cons turn turns ih =>
    obtain ⟨hname, hrest⟩ := List.forall_mem_cons.mp h
    cases hoffer : turn.offer with
    | none => simpa [hoffer] using ih hrest
    | some field => simpa [hoffer, hname field hoffer] using ih hrest

/-- A property is repeated when it offers a field whose name has been offered before. -/
theorem isRepeated_eq {earlier : List Turn} (turn : Turn)
    (h : ∀ other ∈ earlier, ∀ field ∈ other.offer,
      field.name = Identifier.fieldName other.name) :
    turn.isRepeated earlier =
      (turn.offer.isSome && (earlier.filterMap (·.offer)).any fun other =>
        other.name == Identifier.fieldName turn.name) := by
  have hany : (earlier.filterMap (·.offer)).any
      (fun other => other.name == Identifier.fieldName turn.name) =
        ((earlier.filterMap (·.offer)).map (·.name)).any
          (· == Identifier.fieldName turn.name) := by
    rw [List.any_map]
    rfl
  rw [hany, map_name_offers h, List.any_map, List.any_filter]
  rfl

/-- The turns of properties, one after the other, with the message and the state in front of them
and behind them. -/
inductive Turns (engine : Engine) (job : Job) (required : List String) :
    List (String × SchemaNode) → MessageDraft → State → List Turn → MessageDraft → State → Prop
  | nil {parent : MessageDraft} {s : State} :
      Turns engine job required [] parent s [] parent s
  | cons (turn : Turn) {properties : List (String × SchemaNode)} {turns : List Turn}
      {parent nested filled full : MessageDraft} {s t u v : State}
      (hstart : turn.start = { s with scope := s.scope ++ ["properties." ++ turn.name] })
      (hoffer : offerMember engine job parent turn.name turn.node (required.contains turn.name) none
        turn.start = .ok (nested, turn.offer) t)
      (hinner : t.warnings = turn.start.warnings ++ turn.inner)
      (hadd : addOffered nested turn.offer t = .ok filled u)
      (hown : u.warnings = t.warnings ++ turn.own)
      (hrest : Turns engine job required properties filled { u with scope := s.scope } turns
        full v) :
      Turns engine job required ((turn.name, turn.node) :: properties) parent s (turn :: turns)
        full v

/-- A field that is offered is added or reported at the place. -/
theorem addOffered_tidy (parent : MessageDraft) (offer : Option FieldDraft) :
    Tidy (addOffered parent offer) := by
  cases offer with
  | none => exact .pure _
  | some field => exact addFieldOrWarn_tidy _ _ _

section

variable {engine : Engine} {job : Job} {required : List String}
  {properties : List (String × SchemaNode)} {parent full : MessageDraft} {turns : List Turn}
  {s v : State}

/-- The loop over the properties gives each of them its turn. -/
theorem exists_turns (hself : engine.Tidy)
    (h : addMembers engine job parent properties required s = .ok full v) :
    ∃ turns, Turns engine job required properties parent s turns full v := by
  unfold addMembers at h
  -- property by property, with the warnings split into those inside and those of the turn itself
  induction properties generalizing parent s with
  | nil =>
    obtain ⟨rfl, rfl⟩ := foldlM_nil_eq_ok.mp h
    exact ⟨[], .nil⟩
  | cons property properties ih =>
    obtain ⟨name, node⟩ := property
    obtain ⟨filled, w, hfirst, hrest⟩ := foldlM_cons_eq_ok.mp h
    obtain ⟨u, hmember, rfl⟩ := within_eq_ok.mp hfirst
    rw [addMember_eq, bind_eq_ok] at hmember
    obtain ⟨⟨nested, offer⟩, t, hoffer, hadd⟩ := hmember
    have hback := (offerMember_tidy hself _ _ _ _ _ _).back hoffer
    have hback' := (addOffered_tidy _ _).back hadd
    obtain ⟨inner, hinner⟩ := hback.warnings
    obtain ⟨own, hown⟩ := hback'.warnings
    have hscope : u.scope.dropLast = s.scope := by
      rw [hback'.scope, hback.scope, List.dropLast_concat]
    rw [hscope] at hrest
    obtain ⟨turns, hturns⟩ := ih hrest
    exact ⟨_ :: turns, .cons { name, node, start := _, offer, inner, own } rfl hoffer hinner.symm
      hadd hown.symm hturns⟩

namespace Turns

/-- The turns lead where the loop leads. -/
theorem addMembers_eq (hself : engine.Tidy)
    (h : Turns engine job required properties parent s turns full v) :
    addMembers engine job parent properties required s = .ok full v := by
  unfold addMembers
  induction h with
  | nil => rfl
  | @cons turn _ _ _ _ filled _ s _ u _ hstart hoffer _ hadd _ _ ih =>
    have hmember := addMember_of_offer hoffer hadd
    have hback := (addMember_tidy hself _ _ _ _ _ _).back hmember
    have hscope : u.scope.dropLast = s.scope := by
      rw [hback.scope, hstart, List.dropLast_concat]
    rw [hstart] at hmember
    rw [← hscope] at ih
    exact foldlM_cons_eq_ok.mpr ⟨filled, _, within_eq_ok.mpr ⟨u, hmember, rfl⟩, ih⟩

/-- There is one turn for each property, in their order. -/
theorem properties_eq (h : Turns engine job required properties parent s turns full v) :
    turns.map (fun turn => (turn.name, turn.node)) = properties := by
  induction h with
  | nil => rfl
  | cons _ _ _ _ _ _ _ ih => rw [List.map_cons, ih]

/-- The warnings are those of the turns, turn by turn. -/
theorem warnings_eq (h : Turns engine job required properties parent s turns full v) :
    v.warnings = s.warnings ++ turns.flatMap fun turn => turn.inner ++ turn.own := by
  induction h with
  | nil => simp
  | cons _ hstart _ hinner _ hown _ ih =>
    rw [ih, hown, hinner, hstart, List.flatMap_cons, List.append_assoc, List.append_assoc,
      List.append_assoc]

/-- A property is compiled one part further down than the object. -/
theorem scope_eq (h : Turns engine job required properties parent s turns full v) :
    ∀ turn ∈ turns, turn.start.scope = s.scope ++ ["properties." ++ turn.name] := by
  induction h with
  | nil => simp
  | cons _ hstart _ _ _ _ _ ih =>
    rw [List.forall_mem_cons]
    exact ⟨by rw [hstart], ih⟩

/-- A turn offers a field that is named after its property. -/
theorem name_eq (h : Turns engine job required properties parent s turns full v) :
    ∀ turn ∈ turns, ∀ field ∈ turn.offer, field.name = Identifier.fieldName turn.name := by
  induction h with
  | nil => simp
  | cons _ _ hoffer _ _ _ _ ih => exact List.forall_mem_cons.mpr ⟨(offerMember_eq_ok hoffer).2, ih⟩

/-- A turn offers nothing exactly when its schema holds nothing. -/
theorem offer_eq_none_iff (h : Turns engine job required properties parent s turns full v) :
    ∀ turn ∈ turns, turn.offer = none ↔ HoldsNothing engine job turn.name turn.start turn.node := by
  induction h with
  | nil => simp
  | cons _ _ hoffer _ _ _ _ ih =>
    exact List.forall_mem_cons.mpr ⟨Compile.offer_eq_none_iff hoffer, ih⟩

/-- Which properties offer nothing does not depend on the moment of the run. -/
theorem offer_eq_none_iff_blank (hself : engine.Sound job) (hs : Justified job s)
    (h : Turns engine job required properties parent s turns full v) :
    ∀ turn ∈ turns, turn.offer = none ↔ Blank job.document turn.node := by
  induction h with
  | nil => simp
  | @cons turn _ _ _ _ _ _ s _ u _ hstart hoffer _ hadd _ _ ih =>
    have hbegin : Justified job turn.start := by
      rw [hstart]
      exact hs.of_eq rfl rfl rfl
    have hgrown := (addMember_sound hself (addMember_of_offer hoffer hadd) hbegin).1
    refine List.forall_mem_cons.mpr ⟨?_, ih (hgrown.justified.of_eq rfl rfl rfl)⟩
    rw [Compile.offer_eq_none_iff hoffer, holdsNothing_iff_blank hself hbegin hoffer]

/-- Of the fields in front of the properties and those that are offered, the message has the first
one of each name. -/
theorem fields_eq {before : List FieldDraft} (hparent : parent.InStep)
    (hfields : parent.fields = before.eraseDupsBy FieldDraft.sameName)
    (h : Turns engine job required properties parent s turns full v) :
    full.fields = (before ++ turns.filterMap (·.offer)).eraseDupsBy FieldDraft.sameName := by
  induction h generalizing before with
  | nil => simpa using hfields
  | @cons turn _ _ _ _ _ _ _ _ _ _ _ hoffer _ hadd _ _ ih =>
    have hnested := offerMember_inStep hoffer hparent
    have hsame := (offerMember_fields hoffer).trans hfields
    rw [ih (addOffered_inStep hadd hnested) (fields_addOffered hnested hsame hadd),
      List.append_assoc]
    cases hoffered : turn.offer <;> simp [hoffered]

/-- The message warns of a property that offers a field whose name is taken. -/
theorem own_eq (hself : engine.Tidy) {before : List FieldDraft} (hparent : parent.InStep)
    (hfields : parent.fields = before.eraseDupsBy FieldDraft.sameName)
    (h : Turns engine job required properties parent s turns full v)
    {earlier later : List Turn} {turn : Turn} (hturns : turns = earlier ++ turn :: later) :
    turn.own =
      if turn.offer.isSome && (before ++ earlier.filterMap (·.offer)).any fun other =>
          other.name == Identifier.fieldName turn.name
      then [.repeatedField turn.start.place (Identifier.fieldName turn.name)] else [] := by
  induction h generalizing before earlier with
  | nil => simp at hturns
  | @cons first _ _ _ _ _ _ _ _ _ _ _ hoffer _ hadd hown _ ih =>
    have hnested := offerMember_inStep hoffer hparent
    have hsame := (offerMember_fields hoffer).trans hfields
    cases earlier with
    | nil =>
      obtain ⟨rfl, rfl⟩ := List.cons.inj hturns
      have hback := (offerMember_tidy hself _ _ _ _ _ _).back hoffer
      rw [own_of_addOffered hnested hsame hback.place (offerMember_eq_ok hoffer).2 hadd hown]
      simp
    | cons other earlier =>
      rw [List.cons_append, List.cons.injEq] at hturns
      obtain ⟨rfl, hturns⟩ := hturns
      rw [ih (addOffered_inStep hadd hnested) (fields_addOffered hnested hsame hadd) hturns,
        List.append_assoc]
      cases hoffered : first.offer <;> simp [hoffered]

end Turns

end

/-! ### Objects -/

/-- What the message of an object has of the properties, and what it warns of. -/
structure KeepsProperties (engine : Engine) (job : Job) (s s' : State) (draft : MessageDraft)
    (turns : List Turn) : Prop where
  /-- Of the fields that are offered, the message has the first one of each name. -/
  fields : draft.fields = (turns.filterMap (·.offer)).eraseDupsBy FieldDraft.sameName
  names : draft.fields.map (·.name) =
    ((turns.filter (·.offer.isSome)).map fun turn => Identifier.fieldName turn.name).eraseDups
  empty_iff : ∀ turn ∈ turns,
    turn.offer = none ↔ HoldsNothing engine job turn.name turn.start turn.node
  /-- In a state of a run, the description alone decides which properties are empty. -/
  blank_iff : Justified job s → ∀ turn ∈ turns, turn.offer = none ↔ Blank job.document turn.node
  scope : ∀ turn ∈ turns, turn.start.scope = s.scope ++ ["properties." ++ turn.name]
  warnings : s'.warnings = s.warnings ++ turns.flatMap fun turn => turn.inner ++ turn.own
  own : ∀ earlier turn later, turns = earlier ++ turn :: later → turn.own =
    if turn.isRepeated earlier
    then [.repeatedField turn.start.place (Identifier.fieldName turn.name)] else []

/-- The message of an object has a field for each property that is not empty, in the order of the
description, except for those whose name an earlier one has taken. Of each of these, and of no other
property, the message warns. -/
theorem object_keeps_properties {job : Job} {levels : Nat} {name : String} {schema : Schema}
    {properties : List (String × SchemaNode)} {required : List String}
    {compiled : Option MessageDraft} {s s' : State}
    (hshape : schema.shape = .object properties required)
    (h : messageOfShape (Engine.ofLevels job levels) job name schema s = .ok compiled s') :
    ∃ draft turns, compiled = some draft ∧
      Turns (Engine.ofLevels job levels) job required properties
        { name, comment := schema.description } s turns draft s' ∧
      turns.map (fun turn => (turn.name, turn.node)) = properties ∧
      KeepsProperties (Engine.ofLevels job levels) job s s' draft turns := by
  have htidy := Engine.ofLevels_tidy job levels
  simp only [messageOfShape, hshape, map_eq_ok] at h
  obtain ⟨draft, hmembers, rfl⟩ := h
  obtain ⟨turns, hturns⟩ := exists_turns htidy hmembers
  -- the message has no fields before the properties come
  have hfresh : MessageDraft.InStep { name, comment := schema.description } :=
    .of_nil rfl rfl rfl rfl
  have hstart : ({ name, comment := schema.description } : MessageDraft).fields =
      [].eraseDupsBy FieldDraft.sameName := rfl
  have hfields := hturns.fields_eq hfresh hstart
  rw [List.nil_append] at hfields
  refine ⟨draft, turns, rfl, hturns, hturns.properties_eq, ?_⟩
  exact {
    fields := hfields
    names := by rw [hfields, map_name_eraseDupsBy, map_name_offers hturns.name_eq]
    empty_iff := hturns.offer_eq_none_iff
    blank_iff := fun hs => hturns.offer_eq_none_iff_blank (.ofLevels job levels) hs
    scope := hturns.scope_eq
    warnings := hturns.warnings_eq
    own := fun earlier turn later hsplit => by
      have hnames : ∀ other ∈ earlier, ∀ field ∈ other.offer,
          field.name = Identifier.fieldName other.name := by
        intro other hother
        exact hturns.name_eq other (hsplit ▸ List.mem_append_left _ hother)
      rw [hturns.own_eq htidy hfresh hstart hsplit, isRepeated_eq turn hnames, List.nil_append] }

/-- Birds with a color. What they leave is not described. -/
def aviary : Document :=
  descriptionOf [("Color", .inline { shape := .enum [.text "red"] }), ("Trace", objectNode [])]

/-- Two properties of a bird have one name in the message, and two hold nothing. -/
def bird : Schema where
  shape := .object [("wing_span", textNode), ("color", .ref "#/components/schemas/Color"),
    ("wingSpan", .inline { shape := .integer none }), ("trace", .ref "#/components/schemas/Trace"),
    ("note", .inline {})] []

/-- The second one of the two properties is dropped with a warning. -/
theorem object_keeps_properties_bird :
    ∃ draft turns s',
      messageOfShape (Engine.ofLevels ⟨aviary, {}⟩ 4) ⟨aviary, {}⟩ "Bird" bird
        { file := startFile aviary {} } = .ok (some draft) s' ∧
      KeepsProperties (Engine.ofLevels ⟨aviary, {}⟩ 4) ⟨aviary, {}⟩
        { file := startFile aviary {} } s' draft turns ∧
      turns.map (·.name) = ["wing_span", "color", "wingSpan", "trace", "note"] ∧
      (∀ turn ∈ turns, turn.offer = none ↔ Blank aviary turn.node) ∧
      draft.fields.map (·.name) = ["wing_span", "color"] ∧
      s'.warnings = [.repeatedField "properties.wingSpan" "wing_span"] := by
  have hruns : succeedsWith
      (messageOfShape (Engine.ofLevels ⟨aviary, {}⟩ 4) ⟨aviary, {}⟩ "Bird" bird)
      { file := startFile aviary {} }
      (fun compiled s' => compiled.map (fun draft => draft.fields.map (·.name)) ==
          some ["wing_span", "color"] &&
        s'.warnings == [.repeatedField "properties.wingSpan" "wing_span"]) = true := by
    decide +kernel
  obtain ⟨compiled, s', hrun, hcheck⟩ := exists_of_succeedsWith hruns
  obtain ⟨draft, turns, rfl, -, hproperties, hkeeps⟩ := object_keeps_properties rfl hrun
  simp only [Bool.and_eq_true, beq_iff_eq, Option.map_some, Option.some.injEq] at hcheck
  have hnames := congrArg (List.map Prod.fst) hproperties
  rw [List.map_map] at hnames
  exact ⟨draft, turns, s', hrun, hkeeps, hnames, hkeeps.blank_iff (justified_start ⟨aviary, {}⟩),
    hcheck⟩

end Compile

end Protoscribe
