import Protoscribe.Proofs.Draft.Message

/-!
# `Protoscribe.Proofs.Draft.Nested`: which type a name stands for in a message

Messages and enums that are nested in a message share their names. The first type that is offered
under a name is nested, and what is offered later under the name is dropped without a trace. So what
a name stands for is decided by the types that were offered, in the order in which they came
(`firstNamed`): by one operation (`firstNamed_addMessage`, `firstNamed_addEnum`), by a loop of them
(`firstNamed_foldl`), and when the types of another message come in (`firstNamed_nestAll`).

Members whose names differ do not get in each other's way: `foldl_takes_free` says which of them a
message takes, for fields (`fields_foldl_addField`) as for nested types, and `taken_foldl` says
which names are taken then.
-/

set_option autoImplicit false

namespace Protoscribe

/-- A type that can be nested in a message. -/
inductive NestedType where
  | message (draft : MessageDraft)
  | enum (draft : EnumDraft)

namespace NestedType

def name : NestedType → String
  | .message draft => draft.name
  | .enum draft => draft.name

/-- The type of a field that refers to the type. -/
def fieldType : NestedType → FieldType
  | .message _ => .message
  | .enum _ => .enum

end NestedType

/-- The first type of a name. -/
def firstNamed (types : List NestedType) (name : String) : Option NestedType :=
  types.find? fun type => type.name == name

/-- The first type of a name is in the first list, if there is one. -/
theorem firstNamed_append (types others : List NestedType) (name : String) :
    firstNamed (types ++ others) name = (firstNamed types name).or (firstNamed others name) :=
  List.find?_append

/-- No type has the name exactly when all have other ones. -/
theorem firstNamed_eq_none_iff {types : List NestedType} {name : String} :
    firstNamed types name = none ↔ ∀ type ∈ types, type.name ≠ name := by
  simp [firstNamed]

/-- A list that offers a type has a first one of its name. -/
theorem exists_firstNamed {types : List NestedType} {type : NestedType} (h : type ∈ types) :
    ∃ first, firstNamed types type.name = some first := by
  refine Option.ne_none_iff_exists'.mp fun hnone => ?_
  exact firstNamed_eq_none_iff.mp hnone type h rfl

namespace MessageDraft

variable {draft other : MessageDraft}

/-- The types that are nested in a message. -/
def nestedTypes (draft : MessageDraft) : List NestedType :=
  draft.messages.map .message ++ draft.enums.map .enum

/-- No nested type has the name exactly when the name is not taken. -/
theorem InStep.firstNamed_eq_none_iff (h : InStep draft) {name : String} :
    firstNamed draft.nestedTypes name = none ↔ draft.hasNestedType name = false := by
  rw [Bool.eq_false_iff, ne_eq, h.hasNestedType_iff, Protoscribe.firstNamed_eq_none_iff]
  simp [nestedTypes, typeNames, NestedType.name, or_imp, forall_and, not_or]

/-! ### Nested types -/

/-- A type that is offered under a name that is taken changes nothing. -/
theorem InStep.firstNamed_append_of_hasNestedType (h : InStep draft) (type : NestedType)
    (htaken : draft.hasNestedType type.name = true) (name : String) :
    firstNamed (draft.nestedTypes ++ [type]) name = firstNamed draft.nestedTypes name := by
  rw [firstNamed_append]
  by_cases hname : type.name = name
  · -- the name is taken, so it is found before
    cases hfirst : firstNamed draft.nestedTypes name with
    | some first => rfl
    | none =>
      rw [h.firstNamed_eq_none_iff, ← hname, htaken] at hfirst
      cases hfirst
  · have hnone : firstNamed [type] name = none :=
      Protoscribe.firstNamed_eq_none_iff.mpr (by simpa using hname)
    rw [hnone, Option.or_none]

/-- A message is nested behind the types that are there, or stands in the shadow of one. -/
theorem InStep.firstNamed_addMessage (h : InStep draft) (nested : MessageDraft) (name : String) :
    firstNamed (draft.addMessage nested).nestedTypes name =
      firstNamed (draft.nestedTypes ++ [.message nested]) name := by
  unfold MessageDraft.addMessage
  split
  · next htaken =>
    exact (h.firstNamed_append_of_hasNestedType (.message nested) htaken name).symm
  · next hfree =>
    -- the message comes before the enums, none of which has its name
    have hnone : firstNamed draft.nestedTypes nested.name = none :=
      h.firstNamed_eq_none_iff.mpr (by simpa using hfree)
    simp only [nestedTypes, List.map_append, List.map_cons, List.map_nil, List.append_assoc,
      firstNamed_append] at hnone ⊢
    by_cases hname : nested.name = name
    · rw [hname] at hnone
      obtain ⟨hmessages, henums⟩ := Option.or_eq_none_iff.mp hnone
      rw [hmessages, henums, Option.or_none]
      rfl
    · have hother : firstNamed [.message nested] name = none :=
        Protoscribe.firstNamed_eq_none_iff.mpr (by simpa [NestedType.name] using hname)
      rw [hother, Option.none_or, Option.or_none]

/-- An enum is nested behind the types that are there, or stands in the shadow of one. -/
theorem InStep.firstNamed_addEnum (h : InStep draft) (nested : EnumDraft) (name : String) :
    firstNamed (draft.addEnum nested).nestedTypes name =
      firstNamed (draft.nestedTypes ++ [.enum nested]) name := by
  unfold MessageDraft.addEnum
  split
  · next htaken =>
    exact (h.firstNamed_append_of_hasNestedType (.enum nested) htaken name).symm
  · simp [nestedTypes]

/-- A loop that nests its items nests the first of each name, after the types that were there. -/
theorem InStep.firstNamed_foldl {α : Type} {add : MessageDraft → α → MessageDraft}
    {wrap : α → NestedType}
    (hkeep : ∀ {draft}, InStep draft → ∀ item, InStep (add draft item))
    (hadd : ∀ {draft}, InStep draft → ∀ item name, firstNamed (add draft item).nestedTypes name =
      firstNamed (draft.nestedTypes ++ [wrap item]) name)
    (h : InStep draft) (items : List α) (name : String) :
    firstNamed (items.foldl add draft).nestedTypes name =
      firstNamed (draft.nestedTypes ++ items.map wrap) name := by
  induction items generalizing draft with
  | nil => simp
  | cons item rest ih =>
    calc firstNamed (rest.foldl add (add draft item)).nestedTypes name
        = (firstNamed (add draft item).nestedTypes name).or
            (firstNamed (rest.map wrap) name) := by rw [ih (hkeep h item), firstNamed_append]
      _ = firstNamed ((draft.nestedTypes ++ [wrap item]) ++ rest.map wrap) name := by
          rw [hadd h, ← firstNamed_append]
      _ = firstNamed (draft.nestedTypes ++ (item :: rest).map wrap) name := by
          rw [List.append_assoc, List.singleton_append, List.map_cons]

/-- Where the types of another message are nested, those that were there come first. -/
theorem InStep.firstNamed_nestAll (h : InStep draft) (other : MessageDraft) (name : String) :
    firstNamed (draft.nestAll other.messages other.enums).nestedTypes name =
      firstNamed (draft.nestedTypes ++ other.nestedTypes) name := by
  have hmessages := h.foldl InStep.addMessage other.messages
  rw [MessageDraft.nestAll, hmessages.firstNamed_foldl InStep.addEnum InStep.firstNamed_addEnum,
    firstNamed_append, h.firstNamed_foldl InStep.addMessage InStep.firstNamed_addMessage,
    ← firstNamed_append, List.append_assoc]
  rfl

/-- A field is no nested type. -/
@[simp] theorem nestedTypes_addField (draft : MessageDraft) (field : FieldDraft) :
    (draft.addField field).nestedTypes = draft.nestedTypes := by
  simp [nestedTypes]

/-- The types of the second message come behind those of the first one, or stand in their shadow. -/
theorem InStep.firstNamed_merge (h : InStep draft) (other : MessageDraft) (name : String) :
    firstNamed (draft.merge other).nestedTypes name =
      firstNamed (draft.nestedTypes ++ other.nestedTypes) name := by
  rw [merge_eq, (h.withFields other).firstNamed_nestAll, foldl_unchanged nestedTypes_addField]
  rfl

/-! ### Members whose names are free -/

section members

variable {α : Type} {add : MessageDraft → α → MessageDraft} {part : MessageDraft → List α}
  {name : α → String} {taken : MessageDraft → String → Bool} {items : List α}

/-- After a loop, the names that were taken before are taken, and those of the members. -/
theorem taken_foldl
    (htaken : ∀ draft item other, taken (add draft item) other =
      (taken draft other || name item == other))
    (items : List α) (draft : MessageDraft) (other : String) :
    taken (items.foldl add draft) other =
      (taken draft other || items.any fun item => name item == other) := by
  induction items generalizing draft with
  | nil => simp
  | cons item rest ih => rw [List.foldl_cons, ih, htaken, List.any_cons, Bool.or_assoc]

/-- A loop that takes a member when its name is free takes, of members with different names, those
whose names are free before the loop. -/
theorem foldl_takes_free
    (hpart : ∀ draft item, part (add draft item) =
      part draft ++ [item].filter fun added => !taken draft (name added))
    (htaken : ∀ draft item other, taken (add draft item) other =
      (taken draft other || name item == other))
    (hitems : (items.map name).Nodup) (draft : MessageDraft) :
    part (items.foldl add draft) =
      part draft ++ items.filter fun item => !taken draft (name item) := by
  induction items generalizing draft with
  | nil => simp
  | cons item rest ih =>
    obtain ⟨hitem, hrest⟩ := List.nodup_cons.mp hitems
    -- the first member does not take the name of another one
    have hsame : rest.filter (fun later => !taken (add draft item) (name later)) =
        rest.filter fun later => !taken draft (name later) := by
      refine List.filter_congr fun later hlater => ?_
      have hne : name item ≠ name later := fun heq =>
        hitem (List.mem_map.mpr ⟨later, hlater, heq.symm⟩)
      rw [htaken, beq_false_of_ne hne, Bool.or_false]
    rw [List.foldl_cons, ih hrest, hsame, hpart, List.append_assoc, ← List.filter_append,
      List.singleton_append]

/-- A member that comes in with a loop has a name that was free before it. -/
theorem mem_or_free_of_foldl
    (hpart : ∀ draft item, part (add draft item) =
      part draft ++ [item].filter fun added => !taken draft (name added))
    (htaken : ∀ draft item other, taken (add draft item) other =
      (taken draft other || name item == other))
    {draft : MessageDraft} {item : α} (h : item ∈ part (items.foldl add draft)) :
    item ∈ part draft ∨ item ∈ items ∧ taken draft (name item) = false := by
  induction items generalizing draft with
  | nil => exact .inl h
  | cons added rest ih =>
    rcases ih h with h | ⟨hrest, hfree⟩
    · rw [hpart] at h
      refine (List.mem_append.mp h).imp_right fun hadded => ?_
      obtain ⟨hmem, hfree⟩ := List.mem_filter.mp hadded
      cases List.mem_singleton.mp hmem
      exact ⟨List.mem_cons_self .., by simpa using hfree⟩
    · rw [htaken] at hfree
      exact .inr ⟨List.mem_cons_of_mem _ hrest, (Bool.or_eq_false_iff.mp hfree).1⟩

end members

/-- A name that is taken is not taken again. -/
theorem or_beq_of_taken {taken : String → Bool} {added : String} (h : taken added = true)
    (name : String) : taken name = (taken name || added == name) := by
  by_cases hname : added = name
  · rw [← hname, h, Bool.true_or]
  · rw [beq_false_of_ne hname, Bool.or_false]

/-- A message is nested unless its name is taken. -/
theorem messages_addMessage (draft nested : MessageDraft) :
    (draft.addMessage nested).messages =
      draft.messages ++ [nested].filter fun added => !draft.hasNestedType added.name := by
  unfold addMessage
  split
  · next htaken => simp [htaken]
  · next hfree => simp [hfree]

/-- An enum is nested unless its name is taken. -/
theorem enums_addEnum (draft : MessageDraft) (nested : EnumDraft) :
    (draft.addEnum nested).enums =
      draft.enums ++ [nested].filter fun added => !draft.hasNestedType added.name := by
  unfold addEnum
  split
  · next htaken => simp [htaken]
  · next hfree => simp [hfree]

/-- A message takes its own name and no other one. -/
theorem hasNestedType_addMessage (draft nested : MessageDraft) (name : String) :
    (draft.addMessage nested).hasNestedType name =
      (draft.hasNestedType name || nested.name == name) := by
  unfold addMessage
  split
  · next htaken => exact or_beq_of_taken htaken name
  · exact Registry.contains_take _ _ _

/-- An enum takes its own name and no other one. -/
theorem hasNestedType_addEnum (draft : MessageDraft) (nested : EnumDraft) (name : String) :
    (draft.addEnum nested).hasNestedType name =
      (draft.hasNestedType name || nested.name == name) := by
  unfold addEnum
  split
  · next htaken => exact or_beq_of_taken htaken name
  · exact Registry.contains_take _ _ _

/-! ### Fields -/

/-- A field takes its own name and no other one. -/
theorem hasField_addField_eq (draft : MessageDraft) (field : FieldDraft) (name : String) :
    (draft.addField field).hasField name = (draft.hasField name || field.name == name) := by
  unfold addField
  split
  · next htaken => exact or_beq_of_taken htaken name
  · exact Registry.contains_take _ _ _

/-- Of fields with different names, a message takes those whose names are free. -/
theorem fields_foldl_addField {added : List FieldDraft} (hadded : (added.map (·.name)).Nodup)
    (draft : MessageDraft) :
    (added.foldl addField draft).fields =
      draft.fields ++ added.filter fun field => !draft.hasField field.name :=
  foldl_takes_free fields_addField hasField_addField_eq hadded draft

/-- A merge takes the fields whose names are free. -/
theorem fields_merge (hother : other.fieldNames.Nodup) :
    (draft.merge other).fields =
      draft.fields ++
        (other.fields.filter fun field => !draft.hasField field.name).map draft.shift := by
  have hnames : ((other.fields.map draft.shift).map (·.name)).Nodup := by
    rw [List.map_map]
    exact hother
  rw [merge_eq, fields_nestAll, fields_foldl_addField hnames, List.filter_map]
  rfl

/-- Fields that are taken do not share names. -/
theorem InStep.nodup_fieldNames_append {added : List FieldDraft} (h : InStep draft)
    (hdraft : draft.fieldNames.Nodup) (hadded : (added.map (·.name)).Nodup) :
    ((draft.fields ++ added.filter fun field => !draft.hasField field.name).map (·.name)).Nodup :=
    by
  rw [List.map_append]
  refine List.nodup_append.mpr ⟨hdraft, hadded.sublist (List.filter_sublist.map _), ?_⟩
  rintro name hname _ hother rfl
  obtain ⟨field, hfield, heq⟩ := List.mem_map.mp hother
  have hfree := (List.mem_filter.mp hfield).2
  rw [heq, h.hasField_iff.mpr hname] at hfree
  cases hfree

end MessageDraft

end Protoscribe
