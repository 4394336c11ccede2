import Protoscribe.Proofs.Compile.Built
import Protoscribe.Proofs.Compile.Grouped
import Protoscribe.Proofs.Draft.Addresses

/-!
# `Protoscribe.Proofs.MergedMessages`: a merge is a union in which the first one wins

A merge keeps a message as it is and puts behind it what is new in another one: the fields whose
names no field has, the nested messages and enums whose names no nested type has, and all oneof
groups. Messages and enums share their names, so a message may keep out an enum, and the other way
round (`messages_merge`, `enums_merge`).

A field names its group by an index, and the groups of the other message come behind those that are
there. So the index is counted on, and it leads to the same group as before (`groupOf?_shift`).
Counting on from two messages one after the other is counting on from both (`shift_merge`). Part by
part, this makes merges associative (`merge_assoc`), and `merge_unites` states the whole.

The variants of a schema are merged in turn. As merges are associative, that is to merge one message
in, which the variants make among themselves (`Compile.Derives.absorbAll_eq`).
-/

set_option autoImplicit false

namespace Protoscribe

/-- As long as there are indices, one is counted on from another. -/
theorem Draft.position_add {index offset : Nat} (h : index + offset < 2 ^ 31) :
    Draft.position index + Draft.position offset = Draft.position (index + offset) := by
  rw [Draft.position, Draft.position, Draft.position, Nat.min_eq_left (by omega),
    Nat.min_eq_left (by omega), Nat.min_eq_left (by omega), Int32.ofNat_add]

namespace MessageDraft

variable {draft other third : MessageDraft}

/-! ### The parts of a merge -/

/-- What stands above the members of a message. -/
def heading (draft : MessageDraft) : String × Option String × Bool :=
  (draft.name, draft.comment, draft.wrapper)

/-- A field leaves name, comment and groups as they are. -/
theorem heading_addField (draft : MessageDraft) (field : FieldDraft) :
    (draft.addField field).heading = draft.heading := by
  unfold addField
  split <;> rfl

/-- A nested message leaves name, comment and groups as they are. -/
theorem heading_addMessage (draft nested : MessageDraft) :
    (draft.addMessage nested).heading = draft.heading := by
  unfold addMessage
  split <;> rfl

/-- A nested enum leaves name, comment and groups as they are. -/
theorem heading_addEnum (draft : MessageDraft) (nested : EnumDraft) :
    (draft.addEnum nested).heading = draft.heading := by
  unfold addEnum
  split <;> rfl

/-- A merged message has name and comment of the first one, and the groups of both. -/
theorem heading_merge (draft other : MessageDraft) :
    (draft.merge other).heading = draft.heading := by
  rw [merge_eq, nestAll, foldl_unchanged heading_addEnum, foldl_unchanged heading_addMessage,
    foldl_unchanged heading_addField]
  rfl

/-- A field takes no name of a type. -/
theorem hasNestedType_addField (draft : MessageDraft) (field : FieldDraft) :
    (draft.addField field).hasNestedType = draft.hasNestedType := by
  unfold hasNestedType
  rw [takenTypes_addField]

/-- The nested messages that come in are those whose names are free. -/
theorem messages_merge (hother : other.typeNames.Nodup) :
    (draft.merge other).messages =
      draft.messages ++ other.messages.filter fun nested => !draft.hasNestedType nested.name := by
  have hnames := (List.nodup_append.mp hother).1
  rw [merge_eq, nestAll, foldl_unchanged messages_addEnum,
    foldl_takes_free messages_addMessage hasNestedType_addMessage hnames,
    foldl_unchanged messages_addField, foldl_unchanged hasNestedType_addField]
  rfl

/-- The nested enums that come in are those whose names are free. The messages that come in before
them do not take their names. -/
theorem enums_merge (hother : other.typeNames.Nodup) :
    (draft.merge other).enums =
      draft.enums ++ other.enums.filter fun nested => !draft.hasNestedType nested.name := by
  obtain ⟨-, hnames, hapart⟩ := List.nodup_append.mp hother
  rw [merge_eq, nestAll, foldl_takes_free enums_addEnum hasNestedType_addEnum hnames,
    foldl_unchanged enums_addMessage, foldl_unchanged enums_addField]
  refine congrArg (draft.enums ++ ·) (List.filter_congr fun nested hnested => ?_)
  have hmessages : (other.messages.any fun message => message.name == nested.name) = false := by
    refine List.any_eq_false.mpr fun message hmessage hname => ?_
    exact hapart _ (List.mem_map_of_mem hmessage) _ (List.mem_map_of_mem hnested)
      (beq_iff_eq.mp hname)
  rw [taken_foldl hasNestedType_addMessage, hmessages, Bool.or_false,
    foldl_unchanged hasNestedType_addField]
  rfl

/-- A merge takes the names of the fields that come in, which are those that the other message has
taken. -/
theorem hasField_merge (draft : MessageDraft) (hother : InStep other) (name : String) :
    (draft.merge other).hasField name = (draft.hasField name || other.hasField name) := by
  have hfields : (draft.merge other).hasField = ((other.fields.map draft.shift).foldl addField
      { draft with oneofs := draft.oneofs ++ other.oneofs }).hasField := by
    unfold hasField
    rw [merge_eq, takenFields_nestAll]
  have hnames : (other.fields.any fun field => field.name == name) = other.hasField name := by
    rw [Bool.eq_iff_iff, hother.hasField_iff]
    simp [fieldNames]
  rw [hfields, taken_foldl hasField_addField_eq, List.any_map, ← hnames]
  rfl

/-- The types of both messages have their names taken. -/
theorem hasNestedType_merge (draft : MessageDraft) (hother : InStep other) (name : String) :
    (draft.merge other).hasNestedType name =
      (draft.hasNestedType name || other.hasNestedType name) := by
  have hnames : ((other.messages.any fun nested => nested.name == name) ||
      other.enums.any fun nested => nested.name == name) = other.hasNestedType name := by
    rw [Bool.eq_iff_iff, hother.hasNestedType_iff]
    simp [typeNames]
  rw [merge_eq, nestAll, taken_foldl hasNestedType_addEnum, taken_foldl hasNestedType_addMessage,
    foldl_unchanged hasNestedType_addField, Bool.or_assoc, hnames]
  rfl

/-! ### Groups -/

/-- The name of the group that a field of a message is in. -/
def groupOf? (draft : MessageDraft) (field : FieldDraft) : Option String :=
  field.oneof.bind (Address.item? draft.oneofs)

/-- Where a field has the index of a group, the message has that group. -/
def ValidGroups (draft : MessageDraft) : Prop :=
  ∀ field ∈ draft.fields, ∀ index ∈ field.oneof,
    0 ≤ index.toInt ∧ index.toInt < draft.oneofs.length

/-- Only the indices that fields have need to be looked at. -/
instance (draft : MessageDraft) : Decidable (ValidGroups draft) :=
  decidable_of_iff
    (draft.fields.all fun field => field.oneof.all fun index =>
      decide (0 ≤ index.toInt ∧ index.toInt < (draft.oneofs.length : Int)))
    (by simp [ValidGroups, Option.all_eq_true])

/-- An index that is valid is that of a place. -/
theorem ValidGroups.exists_place (h : ValidGroups draft) {field : FieldDraft}
    (hfield : field ∈ draft.fields) {index : Int32} (hindex : field.oneof = some index) :
    ∃ place < draft.oneofs.length, place < 2 ^ 31 ∧ Draft.position place = index := by
  obtain ⟨hnonneg, hlt⟩ := h field hfield index hindex
  obtain ⟨place, hplace⟩ := Int.eq_ofNat_of_zero_le hnonneg
  have hbound : place < 2 ^ 31 := by
    have := index.toInt_lt
    omega
  refine ⟨place, by omega, hbound, ?_⟩
  rw [← Int32.toInt_inj, Draft.toInt_position hbound, hplace]

/-- More groups behind those of a message leave its fields in their groups. -/
theorem groupOf?_merge (h : ValidGroups draft) (other : MessageDraft) {field : FieldDraft}
    (hfield : field ∈ draft.fields) :
    (draft.merge other).groupOf? field = draft.groupOf? field := by
  unfold groupOf?
  cases hindex : field.oneof with
  | none => rfl
  | some index =>
    obtain ⟨place, hplace, hbound, rfl⟩ := h.exists_place hfield hindex
    rw [Option.bind_some, Option.bind_some, Address.item?_position hbound,
      Address.item?_position hbound, oneofs_merge, List.getElem?_append_left hplace]

/-- A field that comes in with its index counted on is in the group that it was in. -/
theorem groupOf?_shift (hother : ValidGroups other)
    (hshort : draft.oneofs.length + other.oneofs.length < 2 ^ 31) {field : FieldDraft}
    (hfield : field ∈ other.fields) :
    (draft.merge other).groupOf? (draft.shift field) = other.groupOf? field := by
  unfold groupOf? shift
  cases hindex : field.oneof with
  | none => rfl
  | some index =>
    obtain ⟨place, hplace, hbound, rfl⟩ := hother.exists_place hfield hindex
    have hsum : place + draft.oneofs.length < 2 ^ 31 := by omega
    rw [Option.map_some, Option.bind_some, Option.bind_some, nextOneof, Draft.position_add hsum,
      Address.item?_position hsum, Address.item?_position hbound, oneofs_merge,
      List.getElem?_append_right (Nat.le_add_left ..), Nat.add_sub_cancel]

/-- Fields of the second message stay in their groups, which are counted on. -/
theorem ValidGroups.merge (h : ValidGroups draft) (hother : ValidGroups other)
    (hshort : draft.oneofs.length + other.oneofs.length < 2 ^ 31) :
    ValidGroups (draft.merge other) := by
  intro field hfield index hindex
  rw [oneofs_merge, List.length_append]
  rcases mem_fields_merge hfield with hmem | ⟨original, horiginal, rfl⟩
  · obtain ⟨hnonneg, hlt⟩ := h field hmem index hindex
    omega
  · obtain ⟨before, hbefore, rfl⟩ := Option.map_eq_some_iff.mp hindex
    obtain ⟨place, hplace, -, rfl⟩ := hother.exists_place horiginal hbefore
    have hsum : place + draft.oneofs.length < 2 ^ 31 := by omega
    rw [nextOneof, Draft.position_add hsum, Draft.toInt_position hsum]
    omega

/-! ### Associativity -/

/-- Counting on from two messages, one after the other, is counting on from their merge. -/
theorem shift_merge (hshort : draft.oneofs.length + other.oneofs.length < 2 ^ 31)
    (field : FieldDraft) : (draft.merge other).shift field = draft.shift (other.shift field) := by
  have hnext : other.nextOneof + draft.nextOneof = (draft.merge other).nextOneof := by
    rw [nextOneof, nextOneof, nextOneof, Draft.position_add (by omega), oneofs_merge,
      List.length_append, Nat.add_comm]
  unfold shift
  rw [← hnext, Option.map_map]
  simp only [Function.comp_def, Int32.add_assoc]

/-- What is new behind two messages is new behind the second one and then behind the first. -/
theorem filter_new {α : Type} (taken later : α → Bool) (items : List α) :
    (items.filter fun item => !(taken item || later item)) =
      (items.filter fun item => !later item).filter fun item => !taken item := by
  rw [List.filter_filter]
  simp only [Bool.not_or]

/-- Merging two messages one after the other is merging their merge. -/
theorem merge_assoc (hdraft : InStep draft) (hother : Built other) (hthird : Built third)
    (hshort : draft.oneofs.length + other.oneofs.length < 2 ^ 31) :
    (draft.merge other).merge third = draft.merge (other.merge third) := by
  have hmerged := (hother.merge hthird).distinctNames
  obtain ⟨hotherFields, hotherTypes⟩ := hother.distinctNames
  obtain ⟨hthirdFields, hthirdTypes⟩ := hthird.distinctNames
  have hshift : (draft.merge other).shift = draft.shift ∘ other.shift :=
    funext (shift_merge hshort)
  -- what comes in has the names that it had
  have hnew : ((third.fields.filter fun field => !other.hasField field.name).map
        other.shift).filter (fun field => !draft.hasField field.name) =
      (third.fields.filter fun field => !(draft.merge other).hasField field.name).map
        other.shift := by
    simp only [hasField_merge draft hother.inStep, filter_new]
    exact List.filter_map
  have hheading : ((draft.merge other).merge third).heading =
      (draft.merge (other.merge third)).heading := by
    rw [heading_merge, heading_merge, heading_merge]
  obtain ⟨hname, hcomment, hwrapper⟩ := by simpa only [heading, Prod.mk.injEq] using hheading
  refine ((hdraft.merge other).merge third).eq_of_members (hdraft.merge _) hname hcomment ?_ ?_ ?_
    ?_ hwrapper
  · rw [fields_merge hthirdFields, fields_merge hotherFields, fields_merge hmerged.fields,
      fields_merge hthirdFields, List.append_assoc, List.filter_append, List.map_append, hnew,
      hshift, List.map_map]
  · rw [messages_merge hthirdTypes, messages_merge hotherTypes, messages_merge hmerged.types,
      messages_merge hthirdTypes, List.append_assoc, List.filter_append, ← filter_new]
    simp only [hasNestedType_merge draft hother.inStep]
  · rw [enums_merge hthirdTypes, enums_merge hotherTypes, enums_merge hmerged.types,
      enums_merge hthirdTypes, List.append_assoc, List.filter_append, ← filter_new]
    simp only [hasNestedType_merge draft hother.inStep]
  · rw [oneofs_merge, oneofs_merge, oneofs_merge, oneofs_merge, List.append_assoc]

/-- Messages that are merged into a message in turn may be merged with one another first. -/
theorem foldl_merge (hdraft : InStep draft) {later : List MessageDraft}
    (hother : Built other) (hlater : ∀ message ∈ later, Built message)
    (hshort : draft.oneofs.length + other.oneofs.length +
      (later.flatMap (·.oneofs)).length < 2 ^ 31) :
    later.foldl merge (draft.merge other) = draft.merge (later.foldl merge other) := by
  induction later generalizing other with
  | nil => rfl
  | cons third rest ih =>
    obtain ⟨hthird, hrest⟩ := List.forall_mem_cons.mp hlater
    rw [List.flatMap_cons, List.length_append] at hshort
    have htotal : draft.oneofs.length + (other.merge third).oneofs.length +
        (rest.flatMap (·.oneofs)).length < 2 ^ 31 := by
      rw [oneofs_merge, List.length_append]
      omega
    rw [List.foldl_cons, List.foldl_cons, merge_assoc hdraft hother hthird (by omega)]
    exact ih (hother.merge hthird) hrest htotal

/-! ### Unions -/

/-- What a merge of two messages is. The first message stands as it was, the groups of its fields
included. Behind its members come those of the second message whose names are new, and all of the
groups. A field that comes in differs in its index alone, and it is in the group that it was in. The
numbers go from 1 without gaps. -/
structure Unites (first second merged : MessageDraft) : Prop where
  heading : merged.heading = first.heading
  fields : merged.fields = first.fields ++
    (second.fields.filter fun field => field.name ∉ first.fieldNames).map first.shift
  messages : merged.messages = first.messages ++
    second.messages.filter fun nested => nested.name ∉ first.typeNames
  enums : merged.enums = first.enums ++
    second.enums.filter fun nested => nested.name ∉ first.typeNames
  oneofs : merged.oneofs = first.oneofs ++ second.oneofs
  stays : ∀ field ∈ first.fields, merged.groupOf? field = first.groupOf? field
  follows : ∀ field ∈ second.fields,
    { first.shift field with oneof := field.oneof } = field ∧
      merged.groupOf? (first.shift field) = second.groupOf? field
  groups : ValidGroups merged
  numbers : merged.numbers =
    (List.range merged.fields.length).map fun (place : Nat) => (place : Int) + 1

/-- A merged message has no more fields than both together. -/
theorem length_fields_merge_le (hother : DistinctNames other) :
    (draft.merge other).fields.length ≤ draft.fields.length + other.fields.length := by
  rw [fields_merge hother.fields, List.length_append, List.length_map]
  exact Nat.add_le_add_left (List.length_filter_le ..) _

/-- A merged message unites both, as long as there are numbers and indices. -/
theorem unites_merge (hdraft : InStep draft) (hother : DistinctNames other)
    (hgroups : ValidGroups draft) (hotherGroups : ValidGroups other)
    (hfields : draft.fields.length + other.fields.length < 2 ^ 31 - 1)
    (honeofs : draft.oneofs.length + other.oneofs.length < 2 ^ 31) :
    Unites draft other (draft.merge other) where
  heading := heading_merge draft other
  fields := by
    rw [fields_merge hother.fields]
    simp only [hdraft.hasField_eq, ← decide_not]
  messages := by
    rw [messages_merge hother.types]
    simp only [hdraft.hasNestedType_eq, ← decide_not]
  enums := by
    rw [enums_merge hother.types]
    simp only [hdraft.hasNestedType_eq, ← decide_not]
  oneofs := oneofs_merge
  stays _ hfield := groupOf?_merge hgroups other hfield
  follows _ hfield := ⟨rfl, groupOf?_shift hotherGroups honeofs hfield⟩
  groups := hgroups.merge hotherGroups honeofs
  numbers := (hdraft.merge other).numbers_eq
    (Nat.lt_of_le_of_lt (length_fields_merge_le hother) hfields)

/-- A merge is a union in which the first message wins, and it is associative: it makes no
difference whether two messages that operations have put together are merged into a message one
after the other, or with one another first. -/
theorem merge_unites (hdraft : Built draft) (hother : Built other) (hthird : Built third)
    (hgroups : ValidGroups draft) (hotherGroups : ValidGroups other)
    (hthirdGroups : ValidGroups third)
    (hfields : draft.fields.length + other.fields.length + third.fields.length < 2 ^ 31 - 1)
    (honeofs : draft.oneofs.length + other.oneofs.length + third.oneofs.length < 2 ^ 31 - 1) :
    Unites draft other (draft.merge other) ∧
      Unites draft (other.merge third) (draft.merge (other.merge third)) ∧
      (draft.merge other).merge third = draft.merge (other.merge third) := by
  have hmergedGroups : ValidGroups (other.merge third) :=
    hotherGroups.merge hthirdGroups (by omega)
  have hmergedFields : (other.merge third).fields.length ≤
      other.fields.length + third.fields.length :=
    length_fields_merge_le hthird.distinctNames
  have hmergedOneofs : (other.merge third).oneofs.length =
      other.oneofs.length + third.oneofs.length := by
    rw [oneofs_merge, List.length_append]
  refine ⟨unites_merge hdraft.inStep hother.distinctNames hgroups hotherGroups (by omega)
    (by omega), ?_, merge_assoc hdraft.inStep hother hthird (by omega)⟩
  exact unites_merge hdraft.inStep (hother.merge hthird).distinctNames hgroups hmergedGroups
    (by omega) (by omega)

/-- A message whose nested message has the name of an enum of another one. -/
def dog : MessageDraft :=
  ((MessageDraft.addOneof { name := "Dog" } "call").addField
    { name := "name", type := .string, oneof := some 0 }).addMessage { name := "Kind" }

/-- A message with two fields in a group, of which the first one has a name that is taken. -/
def pet : MessageDraft :=
  (((MessageDraft.addOneof { name := "Pet" } "tag").addField
    { name := "name", type := .int32, oneof := some 0 }).addField
    { name := "chip", type := .int32, oneof := some 0 }).addEnum { name := "Kind" }

/-- A message with an enum and a field of its own. -/
def animal : MessageDraft :=
  (((MessageDraft.addOneof { name := "Animal" } "limb").addField
    { name := "chip", type := .string }).addField
    { name := "legs", type := .int32, oneof := some 0 }).addEnum { name := "Order" }

/-- Of the pet only the chip comes in, in the group that it was in. -/
theorem merge_unites_dog :
    Unites dog pet (dog.merge pet) ∧
      (dog.merge pet).merge animal = dog.merge (pet.merge animal) ∧
      (dog.merge (pet.merge animal)).fieldNames = ["name", "chip", "legs"] ∧
      (dog.merge (pet.merge animal)).fields.map (dog.merge (pet.merge animal)).groupOf? =
        [some "call", some "tag", some "limb"] ∧
      (dog.merge (pet.merge animal)).typeNames = ["Kind", "Order"] := by
  have hdog : Built dog :=
    (((Built.fresh "Dog").addOneof _).addField _).addMessage (.fresh "Kind")
  have hpet : Built pet := ((((Built.fresh "Pet").addOneof _).addField _).addField _).addEnum _
  have hanimal : Built animal :=
    ((((Built.fresh "Animal").addOneof _).addField _).addField _).addEnum _
  obtain ⟨hunites, -, hassoc⟩ := merge_unites hdog hpet hanimal (by decide) (by decide)
    (by decide) (by decide) (by decide)
  exact ⟨hunites, hassoc, by decide, by decide, by decide⟩

end MessageDraft

namespace Compile

open MessageDraft (Built)
open OpenApi (SchemaNode)

variable {job : Job} {facts : Facts}

/-! ### Variants -/

/-- A task to absorb variants merges messages in turn. They have been put together by operations,
and they have no groups, as they come from objects. -/
def Task.Merges (compiled : Option MessageDraft) : Task → Prop
  | .absorb draft _ | .absorbAll draft _ => ∃ variants : List MessageDraft,
    (∀ variant ∈ variants, Built variant ∧ variant.oneofs = []) ∧
      compiled = some (variants.foldl MessageDraft.merge draft)
  | _ => True

/-- What is absorbed is merged in, variant by variant. -/
theorem Derives.merges {task : Task} {compiled : Option MessageDraft}
    (h : Derives job facts task compiled) : task.Merges compiled := by
  induction h with
  | absorbNil => exact ⟨[], by simp, rfl⟩
  | absorbCons _ _ ihfirst ih =>
    obtain ⟨variants, hvariants, heq⟩ := ihfirst
    cases heq
    obtain ⟨later, hlater, rfl⟩ := ih
    refine ⟨variants ++ later, List.forall_mem_append.mpr ⟨hvariants, hlater⟩, ?_⟩
    rw [List.foldl_append]
  | absorbReference _ _ _ ih => exact ih
  | ignored _ => exact ⟨[], by simp, rfl⟩
  | absorbNothing _ _ _ => exact ⟨[], by simp, rfl⟩
  | @merged draft child schema hobject hchild _ =>
    have hbuilt : Built child :=
      (hchild.everywhere (built_stable job facts) trivial (by simp [Task.start?]) _ rfl).here
    obtain ⟨group, hgrouped, hnone⟩ := hchild.grouped none trivial (by simp [Task.start?]) _ rfl
    cases hnone hobject
    have honeofs : child.oneofs = [] := by simpa using hgrouped.declared
    exact ⟨[child], by simpa using ⟨hbuilt, honeofs⟩, rfl⟩
  | _ => trivial

/-- Variants that a message absorbs come in as one message, in which each of them has been merged
into those before it. -/
theorem Derives.absorbAll_eq {draft merged : MessageDraft} {nodes : List SchemaNode}
    (h : Derives job facts (.absorbAll draft nodes) (some merged)) (hdraft : draft.InStep)
    (hgroups : draft.oneofs = []) :
    merged = draft ∨ ∃ (first : MessageDraft) (later : List MessageDraft),
      Built first ∧ (∀ variant ∈ later, Built variant) ∧
      merged = draft.merge (later.foldl MessageDraft.merge first) := by
  obtain ⟨variants, hvariants, heq⟩ := h.merges
  cases heq
  cases variants with
  | nil => exact .inl rfl
  | cons first later =>
    obtain ⟨⟨hfirst, hfirstGroups⟩, hlater⟩ := List.forall_mem_cons.mp hvariants
    have hlaterGroups : later.flatMap (·.oneofs) = [] :=
      List.flatMap_eq_nil_iff.mpr fun variant hvariant => (hlater variant hvariant).2
    refine .inr ⟨first, later, hfirst, fun variant hvariant => (hlater variant hvariant).1, ?_⟩
    refine MessageDraft.foldl_merge hdraft hfirst
      (fun variant hvariant => (hlater variant hvariant).1) ?_
    rw [hgroups, hfirstGroups, hlaterGroups]
    decide

end Compile

end Protoscribe
