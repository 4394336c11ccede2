import Protoscribe.Proofs.Draft.Nested
import Protoscribe.Proofs.Link.Places

/-!
# `Protoscribe.Proofs.Draft.FieldPlaces`: fields at any depth of a message

A field has a place in its message and in every message around that one, which is told by the names
that lead down to it (`FieldAt`). Operations on a message let members in only where there is nothing
yet (`Vacant`). The lemmas say for a field of the result that it was there before, or that it came
in with what was added and its place was vacant.
-/

set_option autoImplicit false

namespace Protoscribe.MessageDraft

/-- A field of a message, or of a message that is nested in it below the given names. -/
inductive FieldAt : MessageDraft → List String → FieldDraft → Prop
  | here {draft : MessageDraft} {field : FieldDraft} (h : field ∈ draft.fields) :
      FieldAt draft [] field
  | deeper {draft nested : MessageDraft} {path : List String} {field : FieldDraft}
      (hnested : nested ∈ draft.messages) (h : FieldAt nested path field) :
      FieldAt draft (nested.name :: path) field

/-- There is nothing yet where a field would come in: no field of its name or, where it is further
down, no nested type of the next name. -/
def Vacant (draft : MessageDraft) (path : List String) (field : FieldDraft) : Prop :=
  match path with
  | [] => draft.hasField field.name = false
  | name :: _ => draft.hasNestedType name = false

variable {draft other : MessageDraft} {path : List String} {field : FieldDraft}

mutual

/-- A field of a placed message is one of the message around it. -/
theorem exists_fieldAt_of_mem_placed {around : List String} {entry : List String × MessageDraft} :
    ∀ draft : MessageDraft, entry ∈ draft.placed around → field ∈ entry.2.fields →
      ∃ rest, entry.1 = around ++ draft.name :: rest ∧ FieldAt draft rest field
  | ⟨name, comment, numbered, messages, enums, oneofs, takenFields, takenTypes, wrapper⟩ => by
    intro hentry hfield
    rw [placed] at hentry
    rcases List.mem_cons.mp hentry with rfl | hentry
    · exact ⟨[], rfl, .here hfield⟩
    · obtain ⟨nested, hnested, rest, hpath, hat⟩ :=
        exists_fieldAt_of_mem_placedAll messages hentry hfield
      exact ⟨nested.name :: rest, by simp [hpath], .deeper hnested hat⟩

/-- The same for a list of drafts. -/
theorem exists_fieldAt_of_mem_placedAll {around : List String}
    {entry : List String × MessageDraft} :
    ∀ drafts : List MessageDraft, entry ∈ placedAll around drafts → field ∈ entry.2.fields →
      ∃ draft ∈ drafts, ∃ rest, entry.1 = around ++ draft.name :: rest ∧ FieldAt draft rest field
  | [] => by simp [placedAll]
  | draft :: rest => by
    intro hentry hfield
    rw [placedAll] at hentry
    rcases List.mem_append.mp hentry with hentry | hentry
    · exact ⟨draft, List.mem_cons_self .., exists_fieldAt_of_mem_placed draft hentry hfield⟩
    · obtain ⟨nested, hnested, hat⟩ := exists_fieldAt_of_mem_placedAll rest hentry hfield
      exact ⟨nested, List.mem_cons_of_mem _ hnested, hat⟩

end

namespace FieldAt

/-- Only the fields and the nested messages count. -/
theorem of_same (h : FieldAt draft path field) (hfields : other.fields = draft.fields)
    (hmessages : other.messages = draft.messages) : FieldAt other path field := by
  cases h with
  | here h => exact .here (hfields ▸ h)
  | deeper hnested h => exact .deeper (hmessages ▸ hnested) h

/-- An empty message has no fields at any depth. -/
theorem false_of_nil (h : FieldAt draft path field) (hfields : draft.fields = [])
    (hmessages : draft.messages = []) : False := by
  cases h with
  | here h => simp [hfields] at h
  | deeper hnested _ => simp [hmessages] at hnested

/-- After a field is added, every field was there before or is the one that came in. -/
theorem of_addField {added : FieldDraft} (h : FieldAt (draft.addField added) path field) :
    FieldAt draft path field ∨ path = [] ∧ field = added ∧ draft.Vacant [] added := by
  cases h with
  | here h =>
    rw [fields_addField] at h
    refine (List.mem_append.mp h).imp .here fun hadded => ?_
    obtain ⟨hmem, hfree⟩ := List.mem_filter.mp hadded
    cases List.mem_singleton.mp hmem
    exact ⟨rfl, rfl, by simpa [Vacant] using hfree⟩
  | deeper hnested h => exact .inl (.deeper (messages_addField draft added ▸ hnested) h)

/-- After an enum is nested, the fields are those that were there before. -/
theorem of_addEnum {added : EnumDraft} (h : FieldAt (draft.addEnum added) path field) :
    FieldAt draft path field :=
  h.of_same (by simp) (by simp)

/-- After a message is nested, every field was there before or is one of that message. -/
theorem of_addMessage {added : MessageDraft} (h : FieldAt (draft.addMessage added) path field) :
    FieldAt draft path field ∨
      ∃ rest, path = added.name :: rest ∧ FieldAt added rest field ∧ draft.Vacant path field := by
  cases h with
  | here h => exact .inl (.here (fields_addMessage draft added ▸ h))
  | deeper hnested h =>
    rw [messages_addMessage] at hnested
    refine (List.mem_append.mp hnested).imp (.deeper · h) fun hadded => ?_
    obtain ⟨hmem, hfree⟩ := List.mem_filter.mp hadded
    cases List.mem_singleton.mp hmem
    exact ⟨_, rfl, h, by simpa [Vacant] using hfree⟩

/-- After the types of another message are nested, every field was there before or is one of a
nested message of that one. -/
theorem of_nestAll (h : FieldAt (draft.nestAll other.messages other.enums) path field) :
    FieldAt draft path field ∨
      path ≠ [] ∧ FieldAt other path field ∧ draft.Vacant path field := by
  cases h with
  | here h => exact .inl (.here (fields_nestAll ▸ h))
  | deeper hnested h =>
    rw [nestAll, foldl_unchanged messages_addEnum] at hnested
    refine (mem_or_free_of_foldl messages_addMessage hasNestedType_addMessage hnested).imp
      (.deeper · h) ?_
    rintro ⟨hmem, hfree⟩
    exact ⟨by simp, .deeper hmem h, hfree⟩

/-- After a merge, every field was there before or comes from the other message. -/
theorem of_merge (h : FieldAt (draft.merge other) path field) :
    FieldAt draft path field ∨ ∃ original, FieldAt other path original ∧
      draft.Vacant path original ∧ (field = original ∨ field = draft.shift original) := by
  rw [merge_eq] at h
  rcases h.of_nestAll with h | ⟨hdeeper, hother, hvacant⟩
  · cases h with
    | here h =>
      refine (mem_or_free_of_foldl fields_addField hasField_addField_eq h).imp .here ?_
      rintro ⟨hmem, hfree⟩
      obtain ⟨original, horiginal, rfl⟩ := List.mem_map.mp hmem
      exact ⟨original, .here horiginal, hfree, .inr rfl⟩
    | deeper hnested h =>
      rw [foldl_unchanged messages_addField] at hnested
      exact .inl (.deeper hnested h)
  · obtain ⟨name, rest, rfl⟩ := List.exists_cons_of_ne_nil hdeeper
    rw [Vacant, hasNestedType, foldl_unchanged takenTypes_addField] at hvacant
    exact .inr ⟨field, hother, hvacant, .inl rfl⟩

/-- Fields that are moved to the front were there before. -/
theorem of_moveToFront {order : List String} (h : FieldAt (draft.moveToFront order) path field) :
    FieldAt draft path field := by
  cases h with
  | here h => exact .here (mem_fields_moveToFront.mp h)
  | deeper hnested h => exact .deeper hnested h

end FieldAt

end Protoscribe.MessageDraft
