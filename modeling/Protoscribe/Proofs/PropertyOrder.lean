import Protoscribe.Proofs.Compile.Built
import Protoscribe.Proofs.Link.FinishedFields

/-!
# `Protoscribe.Proofs.PropertyOrder`: an order of properties only reorders

A schema may list its properties in an order of its own. The list may name a property twice, and it
may name properties that there are none of. The fields that it names come to the front, each where
its name is mentioned first, and the others keep their order behind them (`inOrder_fronts`). Nothing
is lost or taken twice, since no two fields of a message that operations have put together share a
name.

`moveToFront_reorders` says what becomes of the message and of its numbers, and that the same order
finds nothing to do a second time. `messageOfSchema_reorders` says it for a schema with an order.
-/

set_option autoImplicit false

namespace Protoscribe

namespace MessageDraft

variable {order : List String} {name : String} {field : FieldDraft} {fields rest : List FieldDraft}

/-! ### Taking out a field -/

/-- No field is taken out exactly when none has the name. -/
theorem extractField_eq_none_iff :
    extractField name fields = none ↔ ∀ field ∈ fields, field.name ≠ name := by
  induction fields with
  | nil => simp [extractField]
  | cons first others ih =>
    by_cases hfirst : first.name = name
    · simp [extractField, hfirst]
    · simp [extractField, hfirst, ih]

/-- The first field of the name is taken out from between the others. -/
theorem extractField_eq_some (h : extractField name fields = some (field, rest)) :
    field.name = name ∧
      ∃ before after, fields = before ++ field :: after ∧ rest = before ++ after := by
  induction fields generalizing rest with
  | nil => simp [extractField] at h
  | cons first others ih =>
    unfold extractField at h
    split at h
    · next hfirst =>
      cases h
      exact ⟨hfirst, [], others, rfl, rfl⟩
    · obtain ⟨⟨found, remaining⟩, hfound, heq⟩ := Option.map_eq_some_iff.mp h
      cases heq
      obtain ⟨hname, before, after, rfl, rfl⟩ := ih hfound
      exact ⟨hname, first :: before, after, rfl, rfl⟩

/-- The first field is taken out by its name. -/
theorem extractField_cons_self (field : FieldDraft) (rest : List FieldDraft) :
    extractField field.name (field :: rest) = some (field, rest) := by
  simp [extractField]

/-! ### First mentions -/

/-- All of the fields are named in an order, and they stand as their names are mentioned first. -/
structure Mentioned (order : List String) (fields : List FieldDraft) : Prop where
  named : ∀ field ∈ fields, field.name ∈ order
  sorted : fields.Pairwise fun field later => order.idxOf field.name < order.idxOf later.name

namespace Mentioned

/-- No field is mentioned in any order. -/
theorem nil (order : List String) : Mentioned order [] :=
  ⟨by simp, .nil⟩

/-- A name in front of an order does not matter to fields that do not have it. -/
theorem cons_iff (hfree : ∀ field ∈ fields, field.name ≠ name) :
    Mentioned (name :: order) fields ↔ Mentioned order fields := by
  have hsorted : (fields.Pairwise fun field later =>
        (name :: order).idxOf field.name < (name :: order).idxOf later.name) ↔
      fields.Pairwise fun field later => order.idxOf field.name < order.idxOf later.name := by
    refine List.Pairwise.iff_of_mem fun {field later} hfield hlater => ?_
    rw [List.idxOf_cons_ne _ (hfree field hfield).symm,
      List.idxOf_cons_ne _ (hfree later hlater).symm, Nat.succ_lt_succ_iff]
  have hnamed : (∀ field ∈ fields, field.name ∈ name :: order) ↔
      ∀ field ∈ fields, field.name ∈ order :=
    forall₂_congr fun field hfield => by rw [List.mem_cons, or_iff_right (hfree field hfield)]
  exact ⟨fun h => ⟨hnamed.mp h.named, hsorted.mp h.sorted⟩,
    fun h => ⟨hnamed.mpr h.named, hsorted.mpr h.sorted⟩⟩

/-- The field of the name that an order starts with stands first. -/
theorem cons_cons (h : Mentioned order fields) (hfree : ∀ later ∈ fields, later.name ≠ field.name) :
    Mentioned (field.name :: order) (field :: fields) := by
  have hrest := (cons_iff hfree).mpr h
  refine ⟨List.forall_mem_cons.mpr ⟨List.mem_cons_self, hrest.named⟩, ?_⟩
  refine List.pairwise_cons.mpr ⟨fun later hlater => ?_, hrest.sorted⟩
  rw [List.idxOf_cons_self, List.idxOf_cons_ne _ (hfree later hlater).symm]
  exact Nat.succ_pos _

/-- Behind the first field no other one has its name, since the first mention of the name is its
own. -/
theorem free (h : Mentioned order (field :: fields)) :
    ∀ later ∈ fields, later.name ≠ field.name := by
  intro later hlater heq
  have hlt := (List.pairwise_cons.mp h.sorted).1 later hlater
  rw [heq] at hlt
  exact Nat.lt_irrefl _ hlt

/-- Fields that are listed as they are mentioned are so from the second one on. -/
theorem tail (h : Mentioned order (field :: fields)) : Mentioned order fields :=
  ⟨(List.forall_mem_cons.mp h.named).2, (List.pairwise_cons.mp h.sorted).2⟩

/-- Where an order starts with the name of some field, that is the first one. -/
theorem head (h : Mentioned (name :: order) (field :: fields))
    (hname : ∃ named ∈ field :: fields, named.name = name) : field.name = name := by
  obtain ⟨named, hnamed, rfl⟩ := hname
  rcases List.mem_cons.mp hnamed with rfl | hlater
  · rfl
  · -- nothing is mentioned before the start
    have hlt := (List.pairwise_cons.mp h.sorted).1 named hlater
    rw [List.idxOf_cons_self] at hlt
    exact absurd hlt (Nat.not_lt_zero _)

end Mentioned

/-! ### Fields in an order -/

/-- A name in front of an order does not tell apart fields that do not have it. -/
theorem filter_mem_cons (hfree : ∀ field ∈ fields, field.name ≠ name) (order : List String) :
    fields.filter (·.name ∈ name :: order) = fields.filter (·.name ∈ order) ∧
      fields.filter (·.name ∉ name :: order) = fields.filter (·.name ∉ order) := by
  have hsame : ∀ field ∈ fields, field.name ∈ name :: order ↔ field.name ∈ order :=
    fun field hfield => by rw [List.mem_cons, or_iff_right (hfree field hfield)]
  exact ⟨List.filter_congr fun field hfield => decide_eq_decide.mpr (hsame field hfield),
    List.filter_congr fun field hfield => decide_eq_decide.mpr (hsame field hfield).not⟩

/-- The fields that an order names have been put in front, as their names are mentioned first, and
the others are left in their order behind them. -/
def Fronts (order : List String) (fields moved : List FieldDraft) : Prop :=
  ∃ named, moved = named ++ fields.filter (·.name ∉ order) ∧
    named.Perm (fields.filter (·.name ∈ order)) ∧ Mentioned order named

namespace Fronts

variable {moved before after : List FieldDraft}

/-- An empty order moves nothing. -/
theorem nil (fields : List FieldDraft) : Fronts [] fields fields :=
  ⟨[], by simp, by simp, .nil []⟩

/-- A name that no field has makes no difference. -/
theorem skip (h : Fronts order fields moved) (hfree : ∀ field ∈ fields, field.name ≠ name) :
    Fronts (name :: order) fields moved := by
  obtain ⟨named, heq, hperm, hmentioned⟩ := h
  obtain ⟨hfront, hback⟩ := filter_mem_cons hfree order
  have hfreeNamed : ∀ field ∈ named, field.name ≠ name := fun field hfield =>
    hfree field (List.mem_of_mem_filter (hperm.mem_iff.mp hfield))
  exact ⟨named, by rw [heq, hback], by rwa [hfront],
    (Mentioned.cons_iff hfreeNamed).mpr hmentioned⟩

/-- The field of a name comes before what is in front among the others. -/
theorem take (h : Fronts order (before ++ after) moved)
    (hfree : ∀ later ∈ before ++ after, later.name ≠ field.name) :
    Fronts (field.name :: order) (before ++ field :: after) (field :: moved) := by
  obtain ⟨named, heq, hperm, hmentioned⟩ := h
  obtain ⟨hfront, hback⟩ := filter_mem_cons hfree order
  have hfreeNamed : ∀ later ∈ named, later.name ≠ field.name := fun later hlater =>
    hfree later (List.mem_of_mem_filter (hperm.mem_iff.mp hlater))
  refine ⟨field :: named, ?_, ?_, hmentioned.cons_cons hfreeNamed⟩
  · calc field :: moved
        = field :: named ++ (before ++ after).filter (·.name ∉ field.name :: order) := by
          rw [heq, hback, List.cons_append]
      _ = field :: named ++
            (before ++ field :: after).filter (·.name ∉ field.name :: order) := by simp
  · have hmiddle : (before ++ field :: after).Perm (field :: (before ++ after)) :=
      List.perm_middle
    have hall := hmiddle.filter (·.name ∈ field.name :: order)
    rw [List.filter_cons_of_pos (by simp), hfront] at hall
    exact (hperm.cons field).trans hall.symm

end Fronts

/-- An order puts the fields that it names in front, where no two fields share a name. -/
theorem inOrder_fronts (hnames : (fields.map (·.name)).Nodup) (order : List String) :
    Fronts order fields (inOrder order fields) := by
  -- by the names of the order, each of which leaves the remaining fields to the next one
  induction order generalizing fields with
  | nil => exact .nil fields
  | cons name order ih =>
    cases hextract : extractField name fields with
    | none =>
      -- the name is unknown, or its field has been taken out before
      rw [inOrder, hextract]
      exact (ih hnames).skip (extractField_eq_none_iff.mp hextract)
    | some found =>
      obtain ⟨field, rest⟩ := found
      rw [inOrder, hextract]
      obtain ⟨rfl, before, after, rfl, rfl⟩ := extractField_eq_some hextract
      -- what stands around the field does not have its name
      have hmiddle : (before ++ field :: after).Perm (field :: (before ++ after)) :=
        List.perm_middle
      obtain ⟨hfield, hrest⟩ := List.nodup_cons.mp ((hmiddle.map (·.name)).nodup_iff.mp hnames)
      exact (ih hrest).take fun later hlater heq => hfield (List.mem_map.mpr ⟨later, hlater, heq⟩)

/-- Fields that stand in an order already are left where they are. -/
theorem inOrder_of_mentioned {named : List FieldDraft} (hnamed : Mentioned order named)
    (hrest : ∀ field ∈ rest, field.name ∉ order) :
    inOrder order (named ++ rest) = named ++ rest := by
  induction order generalizing named with
  | nil => rfl
  | cons name order ih =>
    have hothers : ∀ field ∈ rest, field.name ∉ order := fun field hfield hmem =>
      hrest field hfield (List.mem_cons_of_mem _ hmem)
    -- a name that is mentioned next stands in front already, any other one moves nothing
    by_cases hmention : ∃ field ∈ named, field.name = name
    · cases named with
      | nil => simp at hmention
      | cons first others =>
        cases hnamed.head hmention
        have htail := (Mentioned.cons_iff hnamed.free).mp hnamed.tail
        rw [List.cons_append, inOrder, extractField_cons_self]
        exact congrArg (first :: ·) (ih htail hothers)
    · have hfree : ∀ field ∈ named, field.name ≠ name := fun field hfield hname =>
        hmention ⟨field, hfield, hname⟩
      have hnone : extractField name (named ++ rest) = none := by
        refine extractField_eq_none_iff.mpr (List.forall_mem_append.mpr ⟨hfree, ?_⟩)
        rintro field hfield rfl
        exact hrest field hfield List.mem_cons_self
      rw [inOrder, hnone]
      exact ih ((Mentioned.cons_iff hfree).mp hnamed) hothers

/-- The names of the fields as they stand are an order that moves nothing. -/
theorem inOrder_names (fields : List FieldDraft) :
    inOrder (fields.map (·.name)) fields = fields := by
  induction fields with
  | nil => rfl
  | cons field rest ih =>
    rw [List.map_cons, inOrder, extractField_cons_self]
    exact congrArg (field :: ·) ih

/-! ### Messages in an order -/

/-- What an order makes of a message. The fields are the same ones, those that the order names come
first, in the order of the first mentions, the others follow as they stood, and the numbers go from
1 without gaps, as long as there are numbers. Nothing else changes. -/
structure Reorders (order : List String) (draft moved : MessageDraft) : Prop where
  perm : moved.fields.Perm draft.fields
  front : Fronts order draft.fields moved.fields
  numbers : draft.fields.length < 2 ^ 31 - 1 →
    moved.numbers = (List.range draft.fields.length).map fun (place : Nat) => (place : Int) + 1
  rest : moved = { draft with numbered := moved.numbered }

variable {draft : MessageDraft}

/-- The fields of a message in step have their numbers already when none of them is moved. -/
theorem InStep.moveToFront_fieldNames (h : InStep draft) :
    draft.moveToFront draft.fieldNames = draft := by
  rw [MessageDraft.moveToFront, fieldNames, inOrder_names, ← h.numbers]
  cases draft
  rfl

/-- The same order finds nothing to do a second time. -/
theorem Built.moveToFront_moveToFront (h : Built draft) (order : List String) :
    (draft.moveToFront order).moveToFront order = draft.moveToFront order := by
  obtain ⟨named, heq, -, hnamed⟩ := inOrder_fronts h.distinctNames.fields order
  have hrest : ∀ field ∈ draft.fields.filter (·.name ∉ order), field.name ∉ order :=
    fun field hfield => by simpa using (List.mem_filter.mp hfield).2
  have hsame : inOrder order (inOrder order draft.fields) = inOrder order draft.fields := by
    rw [heq]
    exact inOrder_of_mentioned hnamed hrest
  show { draft with numbered := renumber (inOrder order (draft.moveToFront order).fields) } = _
  rw [fields_moveToFront, hsame]
  rfl

/-- An order moves the fields that it names to the front and keeps the others as they are. -/
theorem Built.reorders (h : Built draft) (order : List String) :
    Reorders order draft (draft.moveToFront order) := by
  have hperm : (draft.moveToFront order).fields.Perm draft.fields := by
    rw [fields_moveToFront]
    exact perm_inOrder order _
  refine ⟨hperm, ?_, fun hshort => ?_, rfl⟩
  · rw [fields_moveToFront]
    exact inOrder_fronts h.distinctNames.fields order
  · rw [(h.inStep.moveToFront order).numbers_eq (hperm.length_eq ▸ hshort), hperm.length_eq]

/-- An order only reorders the fields of a message that operations have put together. Neither the
same order nor the names of the fields as they stand have anything left to move. -/
theorem moveToFront_reorders (h : Built draft) (order : List String) :
    Reorders order draft (draft.moveToFront order) ∧
      (draft.moveToFront order).moveToFront order = draft.moveToFront order ∧
      draft.moveToFront draft.fieldNames = draft ∧
      (draft.moveToFront order).moveToFront (draft.moveToFront order).fieldNames =
        draft.moveToFront order :=
  ⟨h.reorders order, h.moveToFront_moveToFront order, h.inStep.moveToFront_fieldNames,
    (h.inStep.moveToFront order).moveToFront_fieldNames⟩

/-- A message with four fields. -/
def kettle : MessageDraft :=
  ["lid", "spout", "handle", "base"].foldl
    (fun draft name => draft.addField { name, type := .string }) { name := "Kettle" }

/-- An order that repeats a name and mentions a field that there is none of. -/
def kettleOrder : List String :=
  ["handle", "steam", "lid", "handle"]

/-- The order moves two of the fields of the kettle, and all fields get new numbers. -/
theorem moveToFront_reorders_kettle :
    Built kettle ∧ Reorders kettleOrder kettle (kettle.moveToFront kettleOrder) ∧
      (kettle.moveToFront kettleOrder).fieldNames = ["handle", "lid", "spout", "base"] ∧
      (kettle.moveToFront kettleOrder).numbers = [1, 2, 3, 4] := by
  have hbuilt : Built kettle :=
    List.foldlRecOn _ _ (.fresh "Kettle") fun _ hdraft _ _ => hdraft.addField _
  have hreorders := (moveToFront_reorders hbuilt kettleOrder).1
  have hshort : kettle.fields.length < 2 ^ 31 - 1 := by decide
  exact ⟨hbuilt, hreorders, by decide, hreorders.numbers hshort⟩

end MessageDraft

namespace Compile

open OpenApi (Schema)

variable {job : Job} {engine : Engine} {s s' : State}

/-! ### Schemas in an order -/

/-- An order lists names when it is a list of texts, any of which may be tagged. -/
def Lists (order : Value) (names : List String) : Prop :=
  ∃ items, order = .list items ∧ items.map Value.untagged = names.map Value.text

/-- Where each item of a list stands for a name, the items are the texts of the names. -/
theorem exists_names_of_mapM {name? : Value → Option String} {items : List Value}
    {names : List String} (h : items.mapM name? = some names)
    (hname : ∀ item name, name? item = some name →
      ∃ text, item.untagged = Value.text text ∧ name = Identifier.fieldName text) :
    ∃ texts : List String, items.map Value.untagged = texts.map Value.text ∧
      names = texts.map Identifier.fieldName := by
  induction items generalizing names with
  | nil =>
    cases h
    exact ⟨[], rfl, rfl⟩
  | cons item rest ih =>
    rw [List.mapM_cons] at h
    obtain ⟨name, hitem, h⟩ := Option.bind_eq_some_iff.mp h
    obtain ⟨others, hrest, h⟩ := Option.bind_eq_some_iff.mp h
    cases h
    obtain ⟨text, htext, rfl⟩ := hname _ _ hitem
    obtain ⟨texts, hitems, rfl⟩ := ih hrest
    exact ⟨text :: texts, by rw [List.map_cons, htext, hitems, List.map_cons], rfl⟩

/-- A list of names moves the fields that are named after them; any other order is rejected. -/
theorem reorder_cases (draft : MessageDraft) (order : Value) :
    (∃ names, Lists order names ∧
      reorder draft order = pure (draft.moveToFront (names.map Identifier.fieldName))) ∨
    reorder draft order = (do throw (.invalidPropertyOrder (← place))) := by
  unfold reorder
  split
  · next items =>
    split
    · next names hnames =>
      obtain ⟨texts, hitems, rfl⟩ := exists_names_of_mapM hnames fun item name hitem => by
        split at hitem
        · next text htext =>
          cases hitem
          exact ⟨text, htext, rfl⟩
        · cases hitem
      exact .inl ⟨texts, ⟨items, rfl, hitems⟩, rfl⟩
    · exact .inr rfl
  · exact .inr rfl

/-- A schema with an order compiles to the message that it compiles to without the order, with the
fields that are named after the listed properties in front. -/
theorem messageOfSchema_reorders (hself : engine.Sound job) {hint : String} {schema : Schema}
    {order : Value} {moved : MessageDraft} (horder : schema.propertyOrder = some order)
    (h : messageOfSchema engine job hint schema s = .ok (some moved) s') (hs : Justified job s) :
    ∃ draft names,
      messageOfSchema engine job hint { schema with propertyOrder := none } s =
        .ok (some draft) s' ∧
      Lists order names ∧
      MessageDraft.Reorders (names.map Identifier.fieldName) draft moved := by
  simp only [messageOfSchema, horder, bind_eq_ok] at h
  obtain ⟨shaped, t, hshaped, h⟩ := h
  cases shaped with
  | none => exact absurd (pure_eq_ok.mp h).1 (by simp)
  | some draft =>
    obtain ⟨_, hmoved, heq⟩ := map_eq_ok.mp h
    cases heq
    -- an order that cannot be read fails
    rcases reorder_cases draft order with ⟨names, hlists, hmove⟩ | hrejected
    · rw [hmove] at hmoved
      obtain ⟨rfl, rfl⟩ := pure_eq_ok.mp hmoved
      have hbuilt : draft.Built := by
        obtain ⟨-, hderives⟩ := messageOfShape_sound hself hshaped hs
        exact (hderives.everywhere (built_stable job s'.facts) ⟨_, rfl⟩ (by simp [Task.start?]) _
          rfl).here
      refine ⟨draft, names, ?_, hlists, hbuilt.reorders _⟩
      rw [messageOfSchema, bind_eq_ok]
      exact ⟨some draft, s', hshaped, rfl⟩
    · rw [hrejected] at hmoved
      obtain ⟨_, _, -, hthrow⟩ := bind_eq_ok.mp hmoved
      exact absurd hthrow throw_ne_ok

end Compile

end Protoscribe
