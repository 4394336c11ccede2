import Protoscribe.Proofs.Comments

/-!
# `Protoscribe.Proofs.PrintedFields`: every field of a message is printed once

The body of a message is printed in parts: a field on its own, or a oneof group with all of its
fields. `partOf` is the part that a field belongs to, told from the field alone. The walk over the
fields (`arrange`) starts a part at its first field and passes over the others, since it remembers
the groups that stand already.

Two facts carry the rest. The parts of a walk are those of its fields (`mem_arrange`), and each of
them stands where its first field does (`place_arrange`), so no part comes twice. Neither depends on
which groups the fields name: groups may be interleaved, not declared, or below zero.
`fields_printed_once` says what follows for the lines of a printed message.
-/

set_option autoImplicit false

namespace Protoscribe.Printer

/-! ### Lines without comments -/

/-- Is the line a statement or a brace? -/
def Line.isCode : Line → Bool
  | .code _ _ => true
  | _ => false

/-- The statements and braces among some lines. -/
def codeOf (lines : List Line) : List Line :=
  lines.filter Line.isCode

/-- The statement of a field. -/
def statement (package : String) (item : FieldDescriptor) : String :=
  let label :=
    if item.effectiveLabel = .repeated then "repeated "
    else if item.proto3Optional.getD false then "optional "
    else ""
  label ++ typeText package item ++ " " ++ item.name.getD "" ++ " = " ++
    toString (item.number.getD 0) ++ ";"

/-- The statements of a part of a message body. The fields of a oneof group stand inside its
braces. -/
def Member.code (package : String) (depth : Nat) (oneofs : List OneofDescriptor) :
    Member → List Line
  | .field _ item => [.code depth (statement package item)]
  | .oneof group items =>
    [.code depth ("oneof " ++ oneofName oneofs group ++ " \x7b")] ++
      (items.map fun item => .code (depth + 1) (statement package item.2)) ++
      [.code depth "\x7d"]

/-- Statements of lines one after the other. -/
theorem codeOf_append (lines others : List Line) :
    codeOf (lines ++ others) = codeOf lines ++ codeOf others :=
  List.filter_append ..

section

variable {around : Surroundings} {depth : Nat} {path : List Int32}

/-- A comment holds no statement. -/
theorem codeOf_comments (around : Surroundings) (depth : Nat) (path : List Int32) :
    codeOf (around.comments depth path) = [] := by
  unfold Surroundings.comments
  split
  · rfl
  · simp [codeOf, List.filter_eq_nil_iff, Line.isCode]

/-- Blank lines between parts are no code. -/
theorem codeOf_separated (parts : List (List Line)) :
    codeOf (separated parts) = codeOf parts.flatten := by
  induction parts with
  | nil => rfl
  | cons part rest ih =>
    cases rest with
    | nil => simp [separated]
    | cons next others =>
      show codeOf (part ++ .blank :: separated (next :: others)) = _
      rw [List.flatten_cons, codeOf_append, codeOf_append, ← ih]
      rfl

/-- A field is printed as one statement. -/
theorem codeOf_field (item : FieldDescriptor) :
    codeOf (field around depth path item) = [.code depth (statement around.package item)] := by
  show codeOf (around.comments depth path ++ [.code depth (statement around.package item)]) = _
  rw [codeOf_append, codeOf_comments]
  rfl

/-- The statements of a part of a message body are those of its fields. -/
theorem codeOf_member (oneofs : List OneofDescriptor) (part : Member) :
    codeOf (member around depth path oneofs part) = part.code around.package depth oneofs := by
  cases part with
  | field index item => exact codeOf_field item
  | oneof group items =>
    have hitems : codeOf (items.flatMap fun item =>
          field around (depth + 1) (child path 2 item.1) item.2) =
        items.map fun item => .code (depth + 1) (statement around.package item.2) := by
      induction items with
      | nil => rfl
      | cons item rest ih => rw [List.flatMap_cons, codeOf_append, ih, codeOf_field]; rfl
    rw [member, codeOf_append, codeOf_append, hitems]
    rfl

/-- The statements of a message body are those of its parts. -/
theorem codeOf_members (oneofs : List OneofDescriptor) (parts : List Member) :
    codeOf (parts.flatMap (member around depth path oneofs)) =
      parts.flatMap (Member.code around.package depth oneofs) := by
  induction parts with
  | nil => rfl
  | cons part rest ih =>
    rw [List.flatMap_cons, List.flatMap_cons, codeOf_append, ih, codeOf_member]

/-- The code of a message: its braces, and between them the code of its types and that of its
fields. -/
theorem codeOf_message (descriptor : MessageDescriptor) :
    codeOf (message around depth path descriptor) =
      [.code depth ("message " ++ descriptor.name.getD "" ++ " \x7b")] ++
        codeOf ((indexed descriptor.enums).flatMap fun item =>
          enum around (depth + 1) (child path 4 item.1) item.2) ++
        codeOf ((indexed descriptor.messages).flatMap fun item =>
          message around (depth + 1) (child path 3 item.1) item.2) ++
        (members descriptor.fields).flatMap
          (Member.code around.package (depth + 1) descriptor.oneofs) ++
        [.code depth "\x7d"] := by
  -- a message without fields has no body, which makes no difference to its code
  have hbody : codeOf (if descriptor.fields.isEmpty then []
        else [(members descriptor.fields).flatMap
          (member around (depth + 1) path descriptor.oneofs)]).flatten =
      (members descriptor.fields).flatMap
        (Member.code around.package (depth + 1) descriptor.oneofs) := by
    cases hfields : descriptor.fields with
    | nil => rfl
    | cons first rest => rw [List.isEmpty_cons, if_neg Bool.false_ne_true, List.flatten_singleton,
        codeOf_members]
  rw [message_eq, codeOf_append, codeOf_append, codeOf_append, codeOf_comments, codeOf_separated,
    List.flatten_append, List.flatten_append, codeOf_append, codeOf_append, hbody,
    ← List.flatMap_def, ← List.flatMap_def, List.nil_append]
  simp only [List.append_assoc]
  rfl

end

/-! ### The walk over the fields -/

/-- A field is in the group that it names, unless it has proto3 presence. -/
theorem group?_eq_some_iff {field : FieldDescriptor} {group : Int32} :
    group? field = some group ↔
      field.proto3Optional.getD false = false ∧ field.oneofIndex = some group := by
  rw [group?]
  cases field.proto3Optional.getD false <;> simp

/-- A field stands alone when it names no group, or has proto3 presence. -/
theorem group?_eq_none_iff {field : FieldDescriptor} :
    group? field = none ↔ field.proto3Optional.getD false = true ∨ field.oneofIndex = none := by
  rw [group?]
  cases field.proto3Optional.getD false <;> simp

/-- The part of a message body that a field is printed in, where `all` are the fields of the
message. -/
def partOf (all : List (Nat × FieldDescriptor)) (entry : Nat × FieldDescriptor) : Member :=
  match group? entry.2 with
  | none => .field entry.1 entry.2
  | some group => .oneof group (fieldsOf group all)

/-- The group of a part that is a oneof group. -/
def Member.group? : Member → Option Int32
  | .field _ _ => none
  | .oneof group _ => some group

/-- The field of a part that is no oneof group. -/
def Member.alone? : Member → Option (Nat × FieldDescriptor)
  | .field index item => some (index, item)
  | .oneof _ _ => none

/-- Where a part stands: the index of its first field. -/
def Member.place (part : Member) : Nat :=
  (part.entries.map (·.1)).headD 0

/-- All groups of some fields have been seen. -/
def Noted (seen : List Int32) (before : List (Nat × FieldDescriptor)) : Prop :=
  ∀ entry ∈ before, ∀ group, group? entry.2 = some group → group ∈ seen

section

variable {all before rest : List (Nat × FieldDescriptor)} {entry : Nat × FieldDescriptor}
  {seen more : List Int32} {group : Int32} {part : Member}

/-- A field of a group is printed with its group. -/
theorem partOf_of_group (h : group? entry.2 = some group) :
    partOf all entry = .oneof group (fieldsOf group all) := by
  rw [partOf, h]

/-- A field without a group is printed on its own. -/
theorem partOf_of_alone (h : group? entry.2 = none) :
    partOf all entry = .field entry.1 entry.2 := by
  rw [partOf, h]

/-- The parts of a walk are those of its fields, but for the groups that have been seen. -/
theorem mem_arrange :
    part ∈ arrange all seen rest ↔
      ∃ entry ∈ rest, part = partOf all entry ∧ ∀ group ∈ group? entry.2, group ∉ seen := by
  fun_induction arrange all seen rest with
  | case1 => simp
  | case2 seen index item rest hgroup ih =>
    have hpart : partOf all (index, item) = .field index item := partOf_of_alone hgroup
    simp [ih, hpart, hgroup]
  | case3 seen index item rest group hgroup hseen ih =>
    have hmem : group ∈ seen := by simpa using hseen
    simp [ih, hgroup, hmem]
  | case4 seen index item rest group hgroup hseen ih =>
    have hnew : group ∉ seen := by simpa using hseen
    have hpart : partOf all (index, item) = .oneof group (fieldsOf group all) :=
      partOf_of_group hgroup
    rw [List.mem_cons, ih, List.exists_mem_cons_iff, hpart]
    constructor
    · rintro (rfl | ⟨entry, hentry, rfl, hfree⟩)
      · exact .inl ⟨rfl, by simpa [hgroup] using hnew⟩
      · exact .inr ⟨entry, hentry, rfl, fun other hother hmem =>
          hfree other hother (List.mem_cons_of_mem _ hmem)⟩
    · rintro (⟨rfl, -⟩ | ⟨entry, hentry, rfl, hfree⟩)
      · exact .inl rfl
      · -- a later field of the same group is in the part that starts here
        by_cases hsame : group? entry.2 = some group
        · exact .inl (partOf_of_group hsame)
        · refine .inr ⟨entry, hentry, rfl, fun other hother => ?_⟩
          rw [List.mem_cons, not_or]
          exact ⟨fun heq => hsame (heq ▸ hother), hfree other hother⟩

/-- The fields without a group stand alone, in their order. -/
theorem alone_arrange (all : List (Nat × FieldDescriptor)) (seen : List Int32)
    (rest : List (Nat × FieldDescriptor)) :
    (arrange all seen rest).filterMap Member.alone? =
      rest.filter fun entry => (group? entry.2).isNone := by
  fun_induction arrange all seen rest with
  | case1 => rfl
  | case2 seen index item rest hgroup ih => simp [Member.alone?, hgroup, ih]
  | case3 seen index item rest group hgroup hseen ih => simp [hgroup, ih]
  | case4 seen index item rest group hgroup hseen ih =>
    simp [List.filterMap_cons, Member.alone?, hgroup, ih]

/-- When the group of one more field is noted, all groups are. -/
theorem Noted.next (h : Noted seen before) (hmore : seen ⊆ more)
    (hentry : ∀ group, group? entry.2 = some group → group ∈ more) :
    Noted more (before ++ [entry]) := by
  intro other hother group hgroup
  rcases List.mem_append.mp hother with hother | hother
  · exact hmore (h other hother group hgroup)
  · cases List.mem_singleton.mp hother
    exact hentry group hgroup

/-- Behind fields that are in other groups, a field is the first one of its group. -/
theorem Noted.fieldsOf_eq (h : Noted seen before) (hnew : group ∉ seen)
    (hgroup : group? entry.2 = some group) :
    fieldsOf group (before ++ entry :: rest) = entry :: fieldsOf group rest := by
  have hnone : before.filter (fun other => group? other.2 == some group) = [] :=
    List.filter_eq_nil_iff.mpr fun other hother hsame =>
      hnew (h other hother group (beq_iff_eq.mp hsame))
  rw [fieldsOf, List.filter_append, hnone, List.filter_cons_of_pos (by simpa using hgroup)]
  rfl

/-- Every part of a walk stands at one of its fields, and the parts follow each other as these
do. -/
theorem place_arrange (hall : all = before ++ rest) (h : Noted seen before) :
    ((arrange all seen rest).map Member.place).Sublist (rest.map (·.1)) := by
  fun_induction arrange all seen rest generalizing before with
  | case1 => exact List.Sublist.slnil
  | case2 seen index item rest hgroup ih =>
    have hnext : Noted seen (before ++ [(index, item)]) :=
      h.next (List.Subset.refl _) fun group hsome => by cases hgroup.symm.trans hsome
    exact (ih (by simp [hall]) hnext).cons_cons _
  | case3 seen index item rest group hgroup hseen ih =>
    have hnext : Noted seen (before ++ [(index, item)]) :=
      h.next (List.Subset.refl _) fun other hsome => by
        cases hgroup.symm.trans hsome
        simpa using hseen
    exact (ih (by simp [hall]) hnext).cons _
  | case4 seen index item rest group hgroup hseen ih =>
    have hnew : group ∉ seen := by simpa using hseen
    have hplace : Member.place (.oneof group (fieldsOf group all)) = index := by
      rw [hall, h.fieldsOf_eq hnew hgroup]
      rfl
    have hnext : Noted (group :: seen) (before ++ [(index, item)]) :=
      h.next (List.subset_cons_self ..) fun other hsome => by
        cases hgroup.symm.trans hsome
        exact List.mem_cons_self ..
    rw [List.map_cons, hplace]
    exact (ih (by simp [hall]) hnext).cons_cons _

end

/-! ### The parts of a message body -/

section

variable {fields : List FieldDescriptor} {entry : Nat × FieldDescriptor} {part : Member}

/-- The places of items are counted from 0. -/
theorem map_fst_indexed {α : Type} (items : List α) :
    (indexed items).map (·.1) = List.range items.length := by
  simp [indexed, Function.comp_def, List.range_eq_range']

/-- No item is listed twice, as each has its place. -/
theorem nodup_indexed {α : Type} (items : List α) : (indexed items).Nodup := by
  have hindices : ((indexed items).map (·.1)).Nodup := map_fst_indexed items ▸ List.nodup_range
  exact hindices.of_map

/-- A part of a message body is the part of one of the fields. -/
theorem mem_members :
    part ∈ members fields ↔ ∃ entry ∈ indexed fields, part = partOf (indexed fields) entry := by
  simp [members, mem_arrange]

/-- The parts stand in the order of their first fields. -/
theorem place_members (fields : List FieldDescriptor) :
    ((members fields).map Member.place).Pairwise (· < ·) := by
  have hnoted : Noted [] [] := fun _ hentry => by cases hentry
  have hplaces : ((members fields).map Member.place).Sublist _ := place_arrange rfl hnoted
  rw [map_fst_indexed] at hplaces
  exact List.pairwise_lt_range.sublist hplaces

/-- No part is printed twice. -/
theorem nodup_members (fields : List FieldDescriptor) : (members fields).Nodup := by
  have hplaces : ((members fields).map Member.place).Nodup :=
    (place_members fields).imp fun hlt => Nat.ne_of_lt hlt
  exact hplaces.of_map

/-- A part is told by any of its fields. -/
theorem eq_partOf_of_mem (hpart : part ∈ members fields) (hentry : entry ∈ part.entries) :
    part = partOf (indexed fields) entry := by
  obtain ⟨first, -, rfl⟩ := mem_members.mp hpart
  cases hgroup : group? first.2 with
  | none =>
    rw [partOf_of_alone hgroup] at hentry
    cases List.mem_singleton.mp hentry
    rfl
  | some group =>
    rw [partOf_of_group hgroup] at hentry ⊢
    have hsame := (List.mem_filter.mp hentry).2
    exact (partOf_of_group (beq_iff_eq.mp hsame)).symm

/-- A field is in the part that it is printed in. -/
theorem mem_entries_partOf (h : entry ∈ indexed fields) :
    entry ∈ (partOf (indexed fields) entry).entries := by
  cases hgroup : group? entry.2 with
  | none =>
    rw [partOf_of_alone hgroup]
    exact List.mem_singleton_self _
  | some group =>
    rw [partOf_of_group hgroup]
    exact List.mem_filter.mpr ⟨h, by simpa using hgroup⟩

/-- No field is twice in a part. -/
theorem nodup_entries (hpart : part ∈ members fields) : part.entries.Nodup := by
  obtain ⟨first, -, rfl⟩ := mem_members.mp hpart
  cases hgroup : group? first.2 with
  | none =>
    rw [partOf_of_alone hgroup]
    exact List.nodup_singleton _
  | some group =>
    rw [partOf_of_group hgroup]
    exact (nodup_indexed fields).filter _

/-- The parts hold every field once. -/
theorem entries_members (fields : List FieldDescriptor) :
    ((members fields).flatMap Member.entries).Perm (indexed fields) := by
  have hnodup : ((members fields).flatMap Member.entries).Nodup := by
    refine List.nodup_flatMap.mpr ⟨fun part => nodup_entries, ?_⟩
    -- two parts with a field in common are the same part
    refine (nodup_members fields).imp_of_mem fun hpart hother hne => ?_
    intro entry hentry hagain
    exact hne ((eq_partOf_of_mem hpart hentry).trans (eq_partOf_of_mem hother hagain).symm)
  refine (List.perm_ext_iff_of_nodup hnodup (nodup_indexed fields)).mpr fun entry => ?_
  rw [List.mem_flatMap]
  constructor
  · rintro ⟨part, hpart, hentry⟩
    exact mem_indexed.mpr (getElem?_of_mem_members hpart hentry)
  · intro hentry
    exact ⟨_, mem_members.mpr ⟨entry, hentry, rfl⟩, mem_entries_partOf hentry⟩

/-- There is one part for a group that has fields, and it holds all of them. -/
theorem filter_group_members (fields : List FieldDescriptor) (group : Int32) :
    (members fields).filter (fun part => part.group? == some group) =
      if (fieldsOf group (indexed fields)).isEmpty then []
      else [.oneof group (fieldsOf group (indexed fields))] := by
  have hgroup : ∀ part ∈ members fields, part.group? = some group ↔
      part = .oneof group (fieldsOf group (indexed fields)) := by
    intro part hpart
    constructor
    · intro hsome
      obtain ⟨entry, -, rfl⟩ := mem_members.mp hpart
      cases hentry : group? entry.2 with
      | none =>
        rw [partOf_of_alone hentry] at hsome
        cases hsome
      | some other =>
        rw [partOf_of_group hentry] at hsome ⊢
        cases hsome
        rfl
    · rintro rfl
      rfl
  cases hfields : fieldsOf group (indexed fields) with
  | nil =>
    refine List.filter_eq_nil_iff.mpr fun part hpart hsome => ?_
    have heq := (hgroup part hpart).mp (beq_iff_eq.mp hsome)
    -- every part has a field
    obtain ⟨entry, hentry, rfl⟩ := mem_members.mp hpart
    have hmem := mem_entries_partOf hentry
    rw [heq, Member.entries, hfields] at hmem
    cases hmem
  | cons first rest =>
    have hfirst : first ∈ fieldsOf group (indexed fields) := hfields ▸ List.mem_cons_self ..
    obtain ⟨hentry, hsome⟩ := List.mem_filter.mp hfirst
    have hpart : .oneof group (fieldsOf group (indexed fields)) ∈ members fields :=
      mem_members.mpr ⟨first, hentry, (partOf_of_group (beq_iff_eq.mp hsome)).symm⟩
    refine List.perm_singleton.mp ((List.perm_ext_iff_of_nodup
      ((nodup_members fields).filter _) (List.nodup_singleton _)).mpr fun part => ?_)
    rw [List.mem_filter, List.mem_singleton, beq_iff_eq, ← hfields]
    constructor
    · exact fun ⟨hmem, hsame⟩ => (hgroup part hmem).mp hsame
    · rintro rfl
      exact ⟨hpart, rfl⟩

end

/-- The fields of a group are those without proto3 presence that name it. -/
theorem fieldsOf_eq (group : Int32) (fields : List (Nat × FieldDescriptor)) :
    fieldsOf group fields = fields.filter fun entry =>
      !entry.2.proto3Optional.getD false && entry.2.oneofIndex == some group := by
  refine List.filter_congr fun entry _ => Bool.eq_iff_iff.mpr ?_
  simp [group?_eq_some_iff]

/-- The statements between the braces of a printed message are those of its types and then those of
the parts of its body. The parts hold every field once, and each part stands where its first field
does. A group is that of the fields without proto3 presence that name it: one that has fields is one
part with all of them in their order, and one that has none is no part. All other fields are parts
on their own, in their order. -/
theorem fields_printed_once (around : Surroundings) (depth : Nat) (path : List Int32)
    (descriptor : MessageDescriptor) :
    ∃ parts : List Member,
      codeOf (message around depth path descriptor) =
        [.code depth ("message " ++ descriptor.name.getD "" ++ " \x7b")] ++
          codeOf ((indexed descriptor.enums).flatMap fun item =>
            enum around (depth + 1) (child path 4 item.1) item.2) ++
          codeOf ((indexed descriptor.messages).flatMap fun item =>
            message around (depth + 1) (child path 3 item.1) item.2) ++
          parts.flatMap (Member.code around.package (depth + 1) descriptor.oneofs) ++
          [.code depth "\x7d"] ∧
      (parts.flatMap Member.entries).Perm (indexed descriptor.fields) ∧
      (parts.map Member.place).Pairwise (· < ·) ∧
      (∀ group, parts.filter (fun part => part.group? == some group) =
        if (fieldsOf group (indexed descriptor.fields)).isEmpty then []
        else [.oneof group (fieldsOf group (indexed descriptor.fields))]) ∧
      (∀ group, fieldsOf group (indexed descriptor.fields) =
        (indexed descriptor.fields).filter fun entry =>
          !entry.2.proto3Optional.getD false && entry.2.oneofIndex == some group) ∧
      parts.filterMap Member.alone? = (indexed descriptor.fields).filter fun entry =>
        entry.2.proto3Optional.getD false || entry.2.oneofIndex.isNone := by
  refine ⟨members descriptor.fields, codeOf_message descriptor, ?_, ?_, ?_, ?_, ?_⟩
  · exact entries_members descriptor.fields
  · exact place_members descriptor.fields
  · exact filter_group_members descriptor.fields
  · exact fun group => fieldsOf_eq group (indexed descriptor.fields)
  · rw [members, alone_arrange]
    refine List.filter_congr fun entry _ => Bool.eq_iff_iff.mpr ?_
    simp [group?_eq_none_iff]

/-- Two groups that are interleaved, one of them not declared, and a field on its own between
them. -/
example :
    (members [{ oneofIndex := some 0 }, { oneofIndex := some (-7) },
      { oneofIndex := some 3, proto3Optional := some true }, { oneofIndex := some 0 },
      { oneofIndex := some (-7) }]).map (fun part => part.entries.map (·.1)) =
      [[0, 3], [1, 4], [2]] := by
  decide

end Protoscribe.Printer
