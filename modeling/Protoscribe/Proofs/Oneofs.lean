import Protoscribe.Proofs.Compile.DistinctNames
import Protoscribe.Proofs.Compile.Filled
import Protoscribe.Proofs.Compile.Grouped
import Protoscribe.Proofs.Compile.Linked
import Protoscribe.Proofs.Link.FinishedFields
import Protoscribe.Proofs.Spelling

/-!
# `Protoscribe.Proofs.Oneofs`: oneof groups are valid

A finished message has two kinds of oneof groups. A real one is that of a union, whose variants are
its members. A synthetic one is made for a single optional field, when the message is finished.
`ValidOneofs` says what a reader of the file expects of both. It holds of every compiled message, as
far as there are indices: they have 31 bits, so a message with more groups than that cannot say
which one a field belongs to. `oneofs_valid_iff` states this; messages that were handed in are kept
as they are.
-/

set_option autoImplicit false

namespace Protoscribe

/-! ### Valid groups -/

namespace FieldDescriptor

/-- The field is a member of the oneof group at a place. -/
def MemberOf (field : FieldDescriptor) (place : Nat) : Prop :=
  field.oneofIndex.map Int32.toInt = some (place : Int)

/-- Is the field marked as optional? -/
def isOptional (field : FieldDescriptor) : Bool :=
  field.proto3Optional.getD false

end FieldDescriptor

namespace MessageDescriptor

/-- The field, and no other one, is a member of the group at a place. -/
def OnlyMember (message : MessageDescriptor) (place : Nat) (field : FieldDescriptor) : Prop :=
  ∀ other ∈ message.fields, other.MemberOf place ↔ other = field

/-- The group at a place has been made for an optional field. -/
def IsSynthetic (message : MessageDescriptor) (place : Nat) : Prop :=
  ∃ field ∈ message.fields, field.MemberOf place ∧ field.isOptional = true

/-- The groups of a message and their members fit together. -/
structure ValidOneofs (message : MessageDescriptor) : Prop where
  /-- An index is that of a group. -/
  index : ∀ field ∈ message.fields,
    field.oneofIndex = none ∨ ∃ place < message.oneofs.length, field.MemberOf place
  /-- No group is empty. -/
  inhabited : ∀ place < message.oneofs.length, ∃ field ∈ message.fields, field.MemberOf place
  single : ∀ field ∈ message.fields, ∀ place, field.MemberOf place →
    field.effectiveLabel ≠ .repeated
  /-- An optional field is alone in a group that is named after it, and no other field is. -/
  optional : ∀ field ∈ message.fields, field.isOptional = true ↔
    ∃ place, message.OnlyMember place field ∧
      message.oneofs[place]? = some ⟨some ("_" ++ field.name.getD "")⟩
  /-- Real groups come first. -/
  order : ∀ real < message.oneofs.length, ¬ message.IsSynthetic real →
    ∀ synthetic, message.IsSynthetic synthetic → real < synthetic

/-- Only so many groups have members. -/
theorem ValidOneofs.length_le {message : MessageDescriptor} (h : message.ValidOneofs) :
    message.oneofs.length ≤ 2 ^ 31 := by
  by_contra hlong
  obtain ⟨field, -, hmember⟩ := h.inhabited (2 ^ 31) (by omega)
  obtain ⟨index, -, hindex⟩ := Option.map_eq_some_iff.mp hmember
  have hbound := index.toInt_lt
  omega

end MessageDescriptor

namespace FileDescriptor

variable {file : FileDescriptor} {path : List String} {draft : MessageDraft}

/-! ### Members -/

/-- A field is marked as optional exactly when it has a group of its own. -/
theorem isOptional_linkedField (before : List FieldDraft) (field : FieldDraft) :
    (file.linkedField path draft before field).isOptional = field.isSynthetic := by
  show ((MessageDraft.ownGroup _ field).map fun _ => true).getD false = field.isSynthetic
  unfold MessageDraft.ownGroup
  split
  · next h => exact h.symm
  · next h => simpa using h

/-- A field that is not repeated is not labelled so. -/
theorem effectiveLabel_linkedField (before : List FieldDraft) {field : FieldDraft}
    (h : field.repeated = false) :
    (file.linkedField path draft before field).effectiveLabel ≠ .repeated := by
  have hlabel : (file.linkedField path draft before field).label =
      some FieldLabel.optional.code := by
    show some (if field.repeated then _ else _) = _
    rw [h]
    rfl
  rw [FieldDescriptor.effectiveLabel, hlabel]
  decide

/-! ### Groups -/

/-- A member of a union has no group of its own. -/
theorem isSynthetic_of_union {group : Int32} (hgrouped : Compile.Grouped (some group) draft)
    {field : FieldDraft} (hfield : field ∈ draft.fields) : field.isSynthetic = false := by
  simp [FieldDraft.isSynthetic, hgrouped.members field hfield]

/-- A union declares the only group of its message. -/
theorem oneofs_of_union (file : FileDescriptor) (path : List String)
    (hgrouped : Compile.Grouped (some (Draft.position 0)) draft) :
    ∃ text, (file.linked path draft).oneofs = [⟨some (Identifier.fieldName text)⟩] := by
  obtain ⟨text, hdeclared⟩ : ∃ text, draft.oneofs = [Identifier.fieldName text] := by
    simpa using hgrouped.declared
  have hnone : draft.fields.filter (·.isSynthetic) = [] := by
    rw [List.filter_eq_nil_iff]
    exact fun field hfield => by simp [isSynthetic_of_union hgrouped hfield]
  refine ⟨text, ?_⟩
  rw [oneofs_linked, MessageDraft.oneofNames, hdeclared, hnone]
  rfl

/-- A union has no groups of single fields. -/
theorem not_isSynthetic_of_union {group : Int32} (hgrouped : Compile.Grouped (some group) draft)
    (place : Nat) : ¬ (file.linked path draft).IsSynthetic place := by
  rintro ⟨linked, hlinked, -, hoptional⟩
  obtain ⟨before, field, after, hsplit, rfl⟩ := mem_fields_linked.mp hlinked
  rw [isOptional_linkedField, isSynthetic_of_union hgrouped (by simp [hsplit])] at hoptional
  cases hoptional

/-- Where no group is declared, all groups are made for fields that are optional. -/
theorem oneofs_of_plain (file : FileDescriptor) (path : List String)
    (hgrouped : Compile.Grouped none draft) :
    (file.linked path draft).oneofs =
      (draft.fields.filter (·.isSynthetic)).map fun field => ⟨some ("_" ++ field.name)⟩ := by
  have hnone : draft.oneofs = [] := by simpa using hgrouped.declared
  rw [oneofs_linked, MessageDraft.oneofNames, hnone, List.nil_append, List.map_map]
  rfl

/-! ### Unions -/

/-- In a union, all fields are members of the only group. -/
theorem memberOf_of_union (hgrouped : Compile.Grouped (some (Draft.position 0)) draft)
    {linked : FieldDescriptor} (hlinked : linked ∈ (file.linked path draft).fields)
    (place : Nat) : linked.MemberOf place ↔ place = 0 := by
  obtain ⟨before, field, after, hsplit, rfl⟩ := mem_fields_linked.mp hlinked
  have hindex : (file.linkedField path draft before field).oneofIndex =
      some (Draft.position 0) := by
    show (field.oneof <|> _) = _
    rw [hgrouped.members field (by simp [hsplit])]
    rfl
  rw [FieldDescriptor.MemberOf, hindex, Option.map_some, Option.some_inj,
    show (Draft.position 0).toInt = 0 from rfl]
  omega

/-- A union has one group, with all its fields in it. -/
theorem validOneofs_of_union (hgrouped : Compile.Grouped (some (Draft.position 0)) draft)
    (hfields : draft.fields ≠ []) (hnames : Compile.NamesFields draft) :
    (file.linked path draft).ValidOneofs := by
  obtain ⟨text, honeofs⟩ := oneofs_of_union file path hgrouped
  constructor
  case index =>
    intro linked hlinked
    exact .inr ⟨0, by simp [honeofs], (memberOf_of_union hgrouped hlinked 0).mpr rfl⟩
  case inhabited =>
    intro place hplace
    -- the first field will do, since all fields are in the group
    obtain ⟨field, rest, hsplit⟩ := List.exists_cons_of_ne_nil hfields
    have hlinked : file.linkedField path draft [] field ∈ (file.linked path draft).fields :=
      mem_fields_linked.mpr ⟨[], field, rest, hsplit, rfl⟩
    refine ⟨_, hlinked, (memberOf_of_union hgrouped hlinked place).mpr ?_⟩
    simpa [honeofs] using hplace
  case single =>
    intro linked hlinked place _
    obtain ⟨before, field, after, hsplit, rfl⟩ := mem_fields_linked.mp hlinked
    exact effectiveLabel_linkedField before (hgrouped.single (by simp) field (by simp [hsplit]))
  case optional =>
    intro linked hlinked
    obtain ⟨before, field, after, hsplit, rfl⟩ := mem_fields_linked.mp hlinked
    have hfield : field ∈ draft.fields := by simp [hsplit]
    obtain ⟨fieldText, hname⟩ := hnames field hfield
    have hlinkedName : (file.linkedField path draft before field).name = some field.name := rfl
    rw [isOptional_linkedField, isSynthetic_of_union hgrouped hfield, honeofs, hlinkedName, hname]
    refine iff_of_false (by simp) ?_
    -- a union has no name that begins like that of a synthetic group
    rintro ⟨place, -, hplace⟩
    cases place with
    | zero =>
      simp only [List.getElem?_cons_zero, Option.some_inj, OneofDescriptor.mk.injEq] at hplace
      exact (Identifier.fieldName_guarded text).underscoreGuards.ne_underscore_fieldName _ hplace
    | succ place => simp at hplace
  case order =>
    exact fun _ _ _ synthetic hsynthetic =>
      absurd hsynthetic (not_isSynthetic_of_union hgrouped synthetic)

/-! ### Optional fields -/

/-- Where no group is declared, a field has the index of the group that is made for it, or none. -/
theorem oneofIndex_linkedField (hgrouped : Compile.Grouped none draft)
    (before : List FieldDraft) {field : FieldDraft} (hfield : field ∈ draft.fields) :
    (file.linkedField path draft before field).oneofIndex =
      MessageDraft.ownGroup (MessageDraft.synthetics before) field := by
  have hnone : draft.oneofs = [] := by simpa using hgrouped.declared
  show (field.oneof <|> MessageDraft.ownGroup (draft.oneofs.length + _) field) = _
  rw [hgrouped.members field hfield, hnone, List.length_nil, Nat.zero_add]
  rfl

section

variable (hgrouped : Compile.Grouped none draft)
  (hlength : MessageDraft.synthetics draft.fields ≤ 2 ^ 31)
  {before after : List FieldDraft} {field : FieldDraft}
  (hsplit : draft.fields = before ++ field :: after)

include hgrouped hlength

include hsplit in
/-- A field is in a group if it is optional, and the group is the one behind those of the optional
fields before it. -/
theorem memberOf_linkedField (place : Nat) :
    (file.linkedField path draft before field).MemberOf place ↔
      field.isSynthetic = true ∧ MessageDraft.synthetics before = place := by
  rw [FieldDescriptor.MemberOf, oneofIndex_linkedField hgrouped before (by simp [hsplit]),
    MessageDraft.ownGroup]
  by_cases hfield : field.isSynthetic = true
  · -- there are not more groups than indices, so the index is not cut off
    have hlt := MessageDraft.synthetics_lt before after hfield
    rw [← hsplit] at hlt
    rw [if_pos hfield, Option.map_some, Option.some_inj, Draft.toInt_position (by omega)]
    simp only [hfield, true_and]
    omega
  · simp [hfield]

/-- Every group is made for some field. -/
theorem isSynthetic_of_plain {place : Nat}
    (hplace : place < MessageDraft.synthetics draft.fields) :
    (file.linked path draft).IsSynthetic place := by
  obtain ⟨before, field, after, hsplit, hfield, hgroup⟩ :=
    MessageDraft.exists_of_lt_synthetics hplace
  refine ⟨_, mem_fields_linked.mpr ⟨before, field, after, hsplit, rfl⟩, ?_, ?_⟩
  · exact (memberOf_linkedField hgrouped hlength hsplit place).mpr ⟨hfield, hgroup⟩
  · rw [isOptional_linkedField, hfield]

include hsplit in
/-- An optional field is alone in its group. -/
theorem onlyMember_linkedField (hfield : field.isSynthetic = true) :
    (file.linked path draft).OnlyMember (MessageDraft.synthetics before)
      (file.linkedField path draft before field) := by
  intro other hother
  obtain ⟨before', field', after', hsplit', rfl⟩ := mem_fields_linked.mp hother
  constructor
  · intro hmember
    -- two fields with as many optional ones before them are one field
    obtain ⟨hfield', hgroup⟩ := (memberOf_linkedField hgrouped hlength hsplit' _).mp hmember
    obtain ⟨rfl, rfl⟩ :=
      MessageDraft.eq_of_synthetics_eq (hsplit'.symm.trans hsplit) hfield' hfield hgroup
    rfl
  · intro heq
    rw [heq, memberOf_linkedField hgrouped hlength hsplit]
    exact ⟨hfield, rfl⟩

/-- A message without declared groups has one for each optional field. -/
theorem validOneofs_of_plain : (file.linked path draft).ValidOneofs := by
  have honeofs := oneofs_of_plain file path hgrouped
  have hcount : (file.linked path draft).oneofs.length =
      MessageDraft.synthetics draft.fields := by
    rw [honeofs, List.length_map]
    rfl
  constructor
  case index =>
    intro linked hlinked
    obtain ⟨before, field, after, hsplit, rfl⟩ := mem_fields_linked.mp hlinked
    by_cases hfield : field.isSynthetic = true
    · refine .inr ⟨MessageDraft.synthetics before, ?_, ?_⟩
      · rw [hcount, hsplit]
        exact MessageDraft.synthetics_lt _ _ hfield
      · exact (memberOf_linkedField hgrouped hlength hsplit _).mpr ⟨hfield, rfl⟩
    · refine .inl ?_
      rw [oneofIndex_linkedField hgrouped before (by simp [hsplit]), MessageDraft.ownGroup,
        if_neg hfield]
  case inhabited =>
    intro place hplace
    obtain ⟨linked, hlinked, hmember, -⟩ :=
      isSynthetic_of_plain hgrouped hlength (hcount ▸ hplace)
    exact ⟨linked, hlinked, hmember⟩
  case single =>
    intro linked hlinked place hmember
    obtain ⟨before, field, after, hsplit, rfl⟩ := mem_fields_linked.mp hlinked
    obtain ⟨hfield, -⟩ := (memberOf_linkedField hgrouped hlength hsplit place).mp hmember
    refine effectiveLabel_linkedField before ?_
    simp only [FieldDraft.isSynthetic, Bool.and_eq_true, Bool.not_eq_true'] at hfield
    exact hfield.2
  case optional =>
    intro linked hlinked
    obtain ⟨before, field, after, hsplit, rfl⟩ := mem_fields_linked.mp hlinked
    rw [isOptional_linkedField]
    constructor
    · intro hfield
      refine ⟨_, onlyMember_linkedField hgrouped hlength hsplit hfield, ?_⟩
      rw [honeofs, List.getElem?_map, hsplit, MessageDraft.getElem?_filter_isSynthetic hfield]
      rfl
    · rintro ⟨place, honly, -⟩
      have hmember := (honly _ hlinked).mpr rfl
      exact ((memberOf_linkedField hgrouped hlength hsplit place).mp hmember).1
  case order =>
    -- there are no real groups
    exact fun real hreal hnot =>
      absurd (isSynthetic_of_plain hgrouped hlength (hcount ▸ hreal)) hnot

end

/-- The groups of a compiled message are valid, exactly when there are indices for all of them. -/
theorem validOneofs_linked_iff {group : Option Int32} (hgrouped : Compile.Grouped group draft)
    (hfields : draft.fields ≠ []) (hnames : Compile.NamesFields draft) :
    (file.linked path draft).ValidOneofs ↔ (file.linked path draft).oneofs.length ≤ 2 ^ 31 := by
  refine ⟨fun h => h.length_le, fun hlength => ?_⟩
  rcases hgrouped.declared with ⟨rfl, hnone⟩ | ⟨rfl, -⟩
  · rw [oneofs_linked, List.length_map, MessageDraft.oneofNames, hnone, List.nil_append,
      List.length_map] at hlength
    exact validOneofs_of_plain hgrouped hlength
  · exact validOneofs_of_union hgrouped hfields hnames

end FileDescriptor

namespace Compile

open OpenApi (Document SchemaNode)

/-- The oneof groups of every message of a compiled file are valid, exactly when there are no more
of them than indices, unless the message was handed in. -/
theorem oneofs_valid_iff {document : Document} {config : Config} {out : Output}
    (h : compile document config = .ok out) :
    ∀ path message, (path, message) ∈ out.file.placed →
      (message.ValidOneofs ↔ message.oneofs.length ≤ 2 ^ 31) ∨
        out.file.IsFinished config.additionalMessages path message := by
  obtain ⟨s, -, hs, hfile⟩ := compile_eq_ok h
  rw [hfile]
  intro path message hplaced
  refine (hs.linked_or_finished hplaced).imp_left ?_
  rintro ⟨draft, hdraft, rfl⟩
  obtain ⟨outer, houter, hwithin⟩ := FileDraft.mem_placed.mp hdraft
  have hemitted := hs.justified.messages outer houter
  obtain ⟨group, hgrouped⟩ := hemitted.everywhere_grouped.of_mem_placed hwithin
  exact FileDescriptor.validOneofs_linked_iff hgrouped (hemitted.hasFields.of_mem_placed hwithin)
    (hs.of_mem_placed (namesFields_stable _ s.facts) hdraft)

/-- A text that may be absent. -/
def nullableNode : SchemaNode :=
  .inline { shape := .string none, nullable := true }

/-- A union with two variants of one name and one that is a list, and an object that takes optional
fields from a variant of its own. -/
def postcard : Document :=
  descriptionOf
    [("Motif", .inline
       { shape := .oneOf
           [textNode, .inline { title := some "Photo", shape := .string none },
            .inline { title := some "photo", shape := .boolean },
            .inline { title := some "Album", shape := .array (some textNode) }] }),
     ("Postcard", .inline
       { shape := .allOf
           [objectNode [("greeting", nullableNode), ("stamp", textNode)]]
           [("sender", nullableNode), ("2nd", nullableNode)] [] })]

/-- The oneof groups of the postcard are valid. -/
theorem oneofs_valid_iff_postcard :
    ∃ out, compile postcard {} = .ok out ∧
      ∀ path message, (path, message) ∈ out.file.placed →
        (message.ValidOneofs ↔ message.oneofs.length ≤ 2 ^ 31) ∨
          out.file.IsFinished [] path message := by
  have hcompiles : compilesTo postcard {} (fun _ => true) = true := by decide +kernel
  obtain ⟨out, -, hout, -⟩ := exists_of_compilesTo hcompiles
  exact ⟨out, hout, oneofs_valid_iff hout⟩

end Compile

end Protoscribe
