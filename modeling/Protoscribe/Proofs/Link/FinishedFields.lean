import Mathlib.Algebra.Group.Nat.Defs
import Protoscribe.Proofs.Draft.Enum
import Protoscribe.Proofs.Draft.Nested
import Protoscribe.Proofs.Link.Compiled

/-!
# `Protoscribe.Proofs.Link.FinishedFields`: numbers and groups of finished fields

When a message is finished, a field keeps the number that is stored with it. Where it is optional it
gets a oneof group of its own, the next one behind those that are declared. `mem_buildFields` says
this for one field by the fields that stand before it. The last part says what linking leaves of the
fields in the compiled file.

The stored numbers are those of the places as long as the message is in step with its fields
(`InStep.storedNumber_eq`), so they are 1, 2, 3 and so on (`InStep.numbers_eq`).
-/

set_option autoImplicit false

namespace Protoscribe

namespace MessageDraft

/-- As long as there are numbers, the one at a place is its index and one. -/
theorem toInt_numberAt {place : Nat} (h : place + 1 < 2 ^ 31) :
    (numberAt place).toInt = place + 1 := by
  rw [numberAt, Nat.min_eq_left (by omega)]
  exact Int32.toInt_ofNat_of_lt h

/-- The numbers of the fields in their order. -/
def numbers (draft : MessageDraft) : List Int :=
  draft.numbered.map (·.1.toInt)

/-- The number that is stored with the field at a place. -/
def storedNumber (draft : MessageDraft) (place : Nat) : Int32 :=
  (draft.numbered[place]?.map (·.1)).getD 0

/-- The stored number of a field is that of its place. -/
theorem InStep.storedNumber_eq {draft : MessageDraft} (h : InStep draft) {place : Nat}
    (hplace : place < draft.fields.length) : draft.storedNumber place = numberAt place := by
  rw [storedNumber, h.numbers, renumber, List.getElem?_mapIdx, List.getElem?_eq_getElem hplace]
  rfl

/-- As long as there are numbers, the fields are numbered from 1 without gaps. -/
theorem InStep.numbers_eq {draft : MessageDraft} (h : InStep draft)
    (hshort : draft.fields.length < 2 ^ 31 - 1) :
    draft.numbers =
      (List.range draft.fields.length).map fun (place : Nat) => (place : Int) + 1 := by
  rw [MessageDraft.numbers, h.numbers]
  refine List.ext_getElem (by simp [renumber]) fun place hplace _ => ?_
  have hlt : place < draft.fields.length := by simpa [renumber] using hplace
  simp only [renumber, List.getElem_map, List.getElem_mapIdx, List.getElem_range]
  exact toInt_numberAt (by omega)

/-! ### Finished fields -/

/-- The group that a field gets when the message is finished, where `groups` groups are declared
before. -/
def ownGroup (groups : Nat) (field : FieldDraft) : Option Int32 :=
  if field.isSynthetic then some (Draft.position groups) else none

/-- How many of the fields get groups of their own. -/
def synthetics (fields : List FieldDraft) : Nat :=
  (fields.filter (·.isSynthetic)).length

/-- An optional field makes one more group. -/
theorem synthetics_cons (field : FieldDraft) (rest : List FieldDraft) :
    synthetics (field :: rest) = (if field.isSynthetic then 1 else 0) + synthetics rest := by
  by_cases h : field.isSynthetic = true <;> simp [synthetics, h, Nat.add_comm]

/-- The groups of optional fields are counted through. -/
theorem synthetics_append (fields others : List FieldDraft) :
    synthetics (fields ++ others) = synthetics fields + synthetics others := by
  simp [synthetics]

/-- A field is finished, and the groups behind it are counted on. -/
theorem buildFields_cons (groups : Nat) (entry : Int32 × FieldDraft)
    (rest : List (Int32 × FieldDraft)) :
    buildFields groups (entry :: rest) =
      entry.2.build entry.1 (ownGroup groups entry.2) ::
        buildFields (groups + if entry.2.isSynthetic then 1 else 0) rest := by
  obtain ⟨number, field⟩ := entry
  by_cases h : field.isSynthetic = true <;> simp [buildFields, ownGroup, h]

/-- Finished fields have the names of their drafts. -/
theorem names_buildFields (groups : Nat) (numbered : List (Int32 × FieldDraft)) :
    (buildFields groups numbered).map (·.name) =
      numbered.map fun entry => some entry.2.name := by
  induction numbered generalizing groups with
  | nil => rfl
  | cons entry rest ih =>
    rw [buildFields_cons, List.map_cons, ih]
    rfl

/-- Finished fields keep the numbers that are stored with them. -/
theorem numbers_buildFields (groups : Nat) (numbered : List (Int32 × FieldDraft)) :
    (buildFields groups numbered).map (·.number) = numbered.map fun entry => some entry.1 := by
  induction numbered generalizing groups with
  | nil => rfl
  | cons entry rest ih =>
    rw [buildFields_cons, List.map_cons, ih]
    rfl

/-- A finished field comes from one of the fields; those before it say which group it has. -/
theorem mem_buildFields {groups : Nat} {numbered : List (Int32 × FieldDraft)}
    {built : FieldDescriptor} :
    built ∈ buildFields groups numbered ↔
      ∃ before entry after, numbered = before ++ entry :: after ∧
        built = entry.2.build entry.1
          (ownGroup (groups + synthetics (before.map (·.2))) entry.2) := by
  induction numbered generalizing groups with
  | nil => simp [buildFields]
  | cons first rest ih =>
    -- for all others, the first field stands before
    have hshift : ∀ before : List (Int32 × FieldDraft), ∀ field : FieldDraft,
        ownGroup ((groups + if first.2.isSynthetic then 1 else 0) +
            synthetics (before.map (·.2))) field =
          ownGroup (groups + synthetics ((first :: before).map (·.2))) field := by
      intro before field
      rw [List.map_cons, synthetics_cons, Nat.add_assoc groups]
    rw [buildFields_cons, List.mem_cons, ih]
    constructor
    · rintro (rfl | ⟨before, entry, after, rfl, rfl⟩)
      · exact ⟨[], first, rest, rfl, rfl⟩
      · exact ⟨first :: before, entry, after, rfl, by rw [hshift]⟩
    · rintro ⟨before, entry, after, hsplit, rfl⟩
      cases before with
      | nil =>
        cases hsplit
        exact .inl rfl
      | cons _ before =>
        cases hsplit
        exact .inr ⟨before, entry, after, rfl, by rw [hshift]⟩

/-- The field that has a group of its own is found behind those that stand before it. -/
theorem getElem?_filter_isSynthetic {before after : List FieldDraft} {field : FieldDraft}
    (hfield : field.isSynthetic = true) :
    ((before ++ field :: after).filter (·.isSynthetic))[synthetics before]? = some field := by
  rw [List.filter_append, List.filter_cons_of_pos hfield, synthetics,
    List.getElem?_append_right (Nat.le_refl _), Nat.sub_self]
  rfl

/-- The group of an optional field has an index below their number. -/
theorem synthetics_lt (before after : List FieldDraft) {field : FieldDraft}
    (hfield : field.isSynthetic = true) :
    synthetics before < synthetics (before ++ field :: after) := by
  rw [synthetics_append, synthetics_cons, if_pos hfield]
  omega

/-- Each of the groups is made for some field. -/
theorem exists_of_lt_synthetics {fields : List FieldDraft} {group : Nat}
    (h : group < synthetics fields) :
    ∃ before field after, fields = before ++ field :: after ∧ field.isSynthetic = true ∧
      synthetics before = group := by
  induction fields generalizing group with
  | nil => simp [synthetics] at h
  | cons first rest ih =>
    rw [synthetics_cons] at h
    by_cases hfirst : first.isSynthetic = true
    · rw [if_pos hfirst] at h
      -- group 0 is that of the first field, and the others are behind it
      cases group with
      | zero => exact ⟨[], first, rest, rfl, hfirst, rfl⟩
      | succ group =>
        have hgroup : group < synthetics rest := by omega
        obtain ⟨before, field, after, rfl, hfield, hgroup⟩ := ih hgroup
        refine ⟨first :: before, field, after, rfl, hfield, ?_⟩
        rw [synthetics_cons, if_pos hfirst, hgroup, Nat.add_comm]
    · rw [if_neg hfirst, Nat.zero_add] at h
      obtain ⟨before, field, after, rfl, hfield, hgroup⟩ := ih h
      refine ⟨first :: before, field, after, rfl, hfield, ?_⟩
      rw [synthetics_cons, if_neg hfirst, hgroup, Nat.zero_add]

/-- No two fields have one group. -/
theorem eq_of_synthetics_eq {before before' after after' : List FieldDraft}
    {field field' : FieldDraft} (h : before ++ field :: after = before' ++ field' :: after')
    (hfield : field.isSynthetic = true) (hfield' : field'.isSynthetic = true)
    (hgroup : synthetics before = synthetics before') : before = before' ∧ field = field' := by
  induction before generalizing before' with
  | nil =>
    cases before' with
    | nil =>
      cases h
      exact ⟨rfl, rfl⟩
    | cons first rest =>
      -- the first field is synthetic, and it is one of those before the other
      cases h
      rw [synthetics_cons, if_pos hfield] at hgroup
      simp [synthetics] at hgroup
      omega
  | cons first rest ih =>
    cases before' with
    | nil =>
      cases h
      rw [synthetics_cons, if_pos hfield'] at hgroup
      simp [synthetics] at hgroup
    | cons first' rest' =>
      obtain ⟨rfl, htail⟩ := List.cons.inj h
      rw [synthetics_cons, synthetics_cons, Nat.add_left_cancel_iff] at hgroup
      obtain ⟨rfl, rfl⟩ := ih htail hgroup
      exact ⟨rfl, rfl⟩

/-- The groups of optional fields come behind the declared ones. -/
theorem fields_build_eq (draft : MessageDraft) :
    draft.build.fields = buildFields draft.oneofs.length draft.numbered := by
  cases draft
  rw [build]

end MessageDraft

/-! ### Compiled fields -/

namespace FileDescriptor

/-- What a field of a draft at a path becomes, where `before` stands before it. -/
def linkedField (file : FileDescriptor) (path : List String) (draft : MessageDraft)
    (before : List FieldDraft) (field : FieldDraft) : FieldDescriptor :=
  Link.inField file.typeNames (Link.qualify (Link.fullName file.root path.dropLast) draft.name)
    (field.build (draft.storedNumber before.length)
      (MessageDraft.ownGroup (draft.oneofs.length + MessageDraft.synthetics before) field))

/-- The fields of a linked message are finished first and linked then. -/
theorem fields_linked_eq (file : FileDescriptor) (path : List String) (draft : MessageDraft) :
    (file.linked path draft).fields =
      (MessageDraft.buildFields draft.oneofs.length draft.numbered).map
        (Link.inField file.typeNames
          (Link.qualify (Link.fullName file.root path.dropLast) draft.name)) := by
  rw [linked, Link.inMessage_eq, ← MessageDraft.fields_build_eq, MessageDraft.name_build]
  rfl

/-- A field of a linked message comes from one of the draft, with those in front of it. -/
theorem mem_fields_linked {file : FileDescriptor} {path : List String} {draft : MessageDraft}
    {linked : FieldDescriptor} :
    linked ∈ (file.linked path draft).fields ↔
      ∃ before field after, draft.fields = before ++ field :: after ∧
        linked = file.linkedField path draft before field := by
  rw [fields_linked_eq, List.mem_map]
  constructor
  · rintro ⟨built, hbuilt, rfl⟩
    obtain ⟨before, entry, after, hsplit, rfl⟩ := MessageDraft.mem_buildFields.mp hbuilt
    refine ⟨before.map (·.2), entry.2, after.map (·.2), ?_, ?_⟩
    · rw [MessageDraft.fields, hsplit, List.map_append, List.map_cons]
    · rw [linkedField, MessageDraft.storedNumber, hsplit, List.length_map,
        List.getElem?_append_right (Nat.le_refl _), Nat.sub_self]
      rfl
  · rintro ⟨before, field, after, hsplit, rfl⟩
    -- the field stands with its number behind those of the fields before it
    obtain ⟨front, others, hnumbered, rfl, hothers⟩ := List.map_eq_append_iff.mp hsplit
    obtain ⟨entry, rest, rfl, rfl, rfl⟩ := List.map_eq_cons_iff.mp hothers
    refine ⟨_, MessageDraft.mem_buildFields.mpr ⟨front, entry, rest, hnumbered, rfl⟩, ?_⟩
    rw [linkedField, MessageDraft.storedNumber, hnumbered, List.length_map,
      List.getElem?_append_right (Nat.le_refl _), Nat.sub_self]
    rfl

/-- Linking leaves the groups as they were finished. -/
theorem oneofs_linked (file : FileDescriptor) (path : List String) (draft : MessageDraft) :
    (file.linked path draft).oneofs =
      (MessageDraft.oneofNames draft.oneofs draft.fields).map fun group => ⟨some group⟩ := by
  rw [linked, Link.inMessage_eq]
  exact draft.oneofs_build

/-- The fields keep their names and their order. -/
theorem fieldNames_linked (file : FileDescriptor) (path : List String) (draft : MessageDraft) :
    (file.linked path draft).fields.map (·.name) = draft.fieldNames.map some := by
  rw [fields_linked_eq, List.map_map, MessageDraft.fieldNames, MessageDraft.fields, List.map_map,
    List.map_map]
  exact MessageDraft.names_buildFields _ _

/-- The fields of a compiled message have the numbers that are stored with them. -/
theorem numbers_linked (file : FileDescriptor) (path : List String) (draft : MessageDraft) :
    (file.linked path draft).fields.map (·.number) =
      draft.numbered.map fun entry => some entry.1 := by
  rw [fields_linked_eq, List.map_map, ← MessageDraft.numbers_buildFields]
  rfl

end FileDescriptor

end Protoscribe
