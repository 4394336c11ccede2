import Protoscribe.OpenApi.Reading
import Protoscribe.Proofs.Json.Parts
import Protoscribe.Proofs.OpenApi.Alike

/-!
# `Protoscribe.Proofs.OpenApi.Places`: where something stands in a text

`Inside` leads from a text to the parts of it that a description is read from, each in its role, and
`Stands` says that something is read of such a part. Every list, map and record has its items,
entries and fields from parts of its own. The lemmas here say so twice: of what is read as the text
goes, and of values that are read to their end first.

The responses of an operation and the properties of a schema are read from the members of one
object, one from each and in the order of the text: that is `Lists`.
-/

set_option autoImplicit false

namespace Protoscribe.OpenApi

open Json (Written writtenName Cursor Result)
open Json.Cursor (ReadsMember content)
open Json.Result (map_eq_ok)

variable {α β : Type} {root : Written} {role : Role}

/-! ### Parts of a text -/

/-- A part of a text that is read in a role, where the whole text is read as a description. -/
inductive Inside (root : Written) : Role → Written → Prop
  | whole : Inside root .document root
  | member {role : Role} {before behind name : List Char} {members : List (List Char × Written)}
      {part : Written} (h : Inside root role (.object before members behind))
      (hmember : (name, part) ∈ members) : Inside root (role.member (writtenName name)) part
  | element {role : Role} {before behind : List Char} {elements : List Written} {index : Nat}
      {part : Written} (h : Inside root role (.list before elements behind))
      (hindex : elements[index]? = some part) : Inside root (role.element index) part

/-- A part of a well-formed text is well formed. -/
theorem Inside.wellFormed (hroot : root.WellFormed) {part : Written} (h : Inside root role part) :
    part.WellFormed := by
  induction h with
  | whole => exact hroot
  | member _ hmember ih =>
    cases ih with
    | object _ _ _ _ hmembers => exact hmembers _ hmember
  | element _ hindex ih =>
    cases ih with
    | list _ _ _ helements => exact helements _ (List.mem_of_getElem? hindex)

/-- The part that stands for a member of a record is inside the text. -/
theorem Inside.of_member? {name : String} (hname : name ∈ role.names) {text part : Written}
    (h : Inside root role text) (hpart : text.member? role.names name = some part) :
    Inside root (role.member (some name)) part := by
  have hrecord : role.members ≠ [] := by
    intro hnil
    rw [Role.names, hnil] at hname
    cases hname
  cases text with
  | leaf => cases hpart
  | list before elements behind =>
    have hindex : role.names.idxOf name < role.names.length := List.idxOf_lt_length_of_mem hname
    have hplace : role.names[role.names.idxOf name]? = some name := by
      rw [List.getElem?_eq_getElem hindex, List.getElem_idxOf]
    rw [Role.member_eq_element hrecord hplace]
    exact h.element hpart
  | object before members behind =>
    obtain ⟨⟨text, own⟩, hfind, rfl⟩ := Option.map_eq_some_iff.mp hpart
    have hown : writtenName text = some name := by simpa using List.find?_some hfind
    exact hown ▸ h.member (List.mem_of_find?_eq_some hfind)

/-- Something that is read of a part of a text in a role. -/
def Stands (root : Written) (role : Role) (read : Cursor → Result α) (it : α) : Prop :=
  ∃ part room, Inside root role part ∧ read ⟨room, part.tree⟩ = .ok it

/-- Entries are read from members of an object: one from each, in the same order. -/
def Lists (read : Cursor → Result α) (members : List (List Char × Written))
    (entries : List (String × α)) : Prop :=
  ∃ room, List.Forall₂ (ReadsMember read room) members entries

/-- The members of the object that stands for a member of a record. -/
def membersUnder (role : Role) (name : String) (text : Written) : List (List Char × Written) :=
  ((text.member? role.names name).map Written.members).getD []

/-! ### Lists, maps and records that are read as the text goes -/

section

variable {read : Cursor → Result α}

/-- The items of a list stand where its elements do. -/
theorem Stands.of_list (hroot : root.WellFormed) {items : List α}
    (h : Stands root (.list role) (Cursor.list read) items) {item : α} (hitem : item ∈ items) :
    Stands root role read item := by
  obtain ⟨part, room, hinside, hread⟩ := h
  cases part with
  | leaf text =>
    rw [Cursor.list_leaf (hinside.wellFormed hroot).isLeaf_tree hread] at hitem
    cases hitem
  | object => cases hread
  | list before elements behind =>
    obtain ⟨inner, -, hitems⟩ := Cursor.list_eq_ok.mp hread
    obtain ⟨index, hindex, rfl⟩ := List.mem_iff_getElem.mp hitem
    have helement : index < elements.length := hitems.length_eq ▸ hindex
    exact ⟨elements[index], inner, hinside.element (List.getElem?_eq_getElem helement),
      hitems.get helement hindex⟩

/-- The entries of a map are read from its members, one from each and in the order of the text. -/
theorem lists_of_entries {part : Written} (hpart : part.WellFormed) {wanted : Json.Wanted}
    {room : Nat} {entries : List (String × α)}
    (h : Cursor.entries wanted read ⟨room, part.tree⟩ = .ok entries) :
    Lists read part.members entries := by
  cases part with
  | leaf text =>
    rw [Cursor.entries_leaf hpart.isLeaf_tree h]
    exact ⟨0, .nil⟩
  | list => cases h
  | object before members behind =>
    obtain ⟨inner, -, hfound⟩ := Cursor.entries_eq_ok.mp h
    exact ⟨inner, hfound⟩

/-- What is read from the members of an object stands in the text. -/
theorem Lists.stands {part : Written} {entries : List (String × α)}
    (h : Lists read part.members entries) {own : Role} (hown : ∀ name, own.member name = role)
    (hinside : Inside root own part) {entry : String × α} (hentry : entry ∈ entries) :
    Stands root role read entry.2 := by
  obtain ⟨room, hmembers⟩ := h
  obtain ⟨index, hindex, rfl⟩ := List.mem_iff_getElem.mp hentry
  have hmember : index < part.members.length := hmembers.length_eq ▸ hindex
  have hread := (hmembers.get hmember hindex).2
  cases part with
  | leaf | list => cases hmember
  | object before members behind =>
    have hpart := hinside.member (List.getElem_mem hmember)
    rw [hown] at hpart
    exact ⟨_, room, hpart, hread⟩

/-- What is read from the members of an object under a name stands in the text. -/
theorem Lists.stands_under {entry : Role} {name : String}
    (hmember : role.member (some name) = .ordered entry) (hname : name ∈ role.names)
    {text : Written} (hinside : Inside root role text)
    {entries : List (String × α)} (h : Lists read (membersUnder role name text) entries)
    {own : String × α} (hown : own ∈ entries) : Stands root entry read own.2 := by
  unfold membersUnder at h
  cases hpart : text.member? role.names name with
  | none =>
    rw [hpart] at h
    obtain ⟨_, hread⟩ := h
    rw [List.forall₂_nil_left_iff.mp hread] at hown
    cases hown
  | some part =>
    rw [hpart] at h
    have hordered := hinside.of_member? hname hpart
    rw [hmember] at hordered
    exact h.stands (fun _ => rfl) hordered hown

/-- Entries in order stand where the members do. -/
theorem Stands.of_ordered (hroot : root.WellFormed) {entries : List (String × α)}
    (h : Stands root (.ordered role) (Cursor.entries .orderedMap read) entries)
    {entry : String × α} (hentry : entry ∈ entries) : Stands root role read entry.2 := by
  obtain ⟨part, room, hinside, hread⟩ := h
  exact (lists_of_entries (hinside.wellFormed hroot) hread).stands (fun _ => rfl) hinside hentry

/-- The entries of a table stand where the members do that they were read from. -/
theorem Stands.of_table (hroot : root.WellFormed) {entries : Table α}
    (h : Stands root (.map role) (table (m := Result) read) entries) {entry : String × α}
    (hentry : entry ∈ entries.entries) : Stands root role read entry.2 := by
  obtain ⟨part, room, hinside, hread⟩ := h
  obtain ⟨found, hfound, rfl⟩ := map_eq_ok.mp hread
  exact (lists_of_entries (hinside.wellFormed hroot) hfound).stands (fun _ => rfl) hinside
    (Table.mem_of_mem_ofList hentry)

/-- What is not `null` stands where it may be absent. -/
theorem Stands.of_optional {it : α} (h : Stands root role (Cursor.optional read) (some it)) :
    Stands root role read it := by
  obtain ⟨part, room, hinside, hread⟩ := h
  unfold Cursor.optional at hread
  split at hread
  · cases hread
  · obtain ⟨value, hvalue, hsome⟩ := map_eq_ok.mp hread
    cases hsome
    exact ⟨part, room, hinside, hvalue⟩

end

/-- A field of a record has its default value, or stands in the text. -/
theorem Stands.of_field (hroot : root.WellFormed) {known : List (Member Cursor Result α)}
    (hnames : known.map (·.name) = role.names) (hdistinct : role.names.Nodup) {start : α}
    {title : String} {it : α} (h : Stands root role (Source.recordFrom start title known) it)
    {name : String} {get : α → β} {read : Cursor → Result β}
    (hfield : Cursor.Field known name get read) :
    get it = get start ∨ Stands root (role.member (some name)) read (get it) := by
  obtain ⟨part, room, hinside, hread⟩ := h
  have hget := hfield.get_eq (hnames ▸ hdistinct) (hinside.wellFormed hroot) hread
  rw [hnames] at hget
  cases hpart : part.member? role.names name with
  | none =>
    rw [hpart] at hget
    exact .inl hget
  | some own =>
    rw [hpart] at hget
    obtain ⟨inner, hown⟩ := hget
    have hname : name ∈ role.names := by
      obtain ⟨set, hfind, -⟩ := hfield.sets
      rw [← hnames]
      exact List.mem_map.mpr ⟨_, List.mem_of_find?_eq_some hfind, rfl⟩
    exact .inr ⟨own, inner, hinside.of_member? hname hpart, hown⟩

/-! ### Values that are read to their end -/

/-- A value that a part of the text has. -/
abbrev Held (root : Written) (role : Role) (value : Value) : Prop :=
  Stands root role content value

/-- What is read from a value stands where the value is held. -/
theorem stands_interpreted {read : Value → Option α} {it : α} :
    Stands root role (Source.interpreted read : Cursor → Result α) it ↔
      ∃ value, Held root role value ∧ read value = some it := by
  constructor
  · rintro ⟨part, room, hinside, hread⟩
    obtain ⟨value, hvalue, hsome⟩ := Cursor.interpreted_eq_ok.mp hread
    exact ⟨value, ⟨part, room, hinside, hvalue⟩, hsome⟩
  · rintro ⟨value, ⟨part, room, hinside, hvalue⟩, hsome⟩
    exact ⟨part, room, hinside, Cursor.interpreted_eq_ok.mpr ⟨value, hvalue, hsome⟩⟩

/-- The value of a field stands in the text. -/
theorem Held.of_lookup (hroot : root.WellFormed) {value : Value} (h : Held root role value)
    {fields : Value.Fields} (hfields : value.fields? role.names = some fields) {name : String}
    (hname : name ∈ role.names) {field : Value} (hlookup : fields.lookup name = some field) :
    Held root (role.member (some name)) field := by
  obtain ⟨part, room, hinside, hvalue⟩ := h
  have hpart := Cursor.lookup_fields? hname (hinside.wellFormed hroot) hvalue hfields
  cases hown : part.member? role.names name with
  | none =>
    rw [hown] at hpart
    cases hpart.symm.trans hlookup
  | some own =>
    rw [hown] at hpart
    obtain ⟨inner, held, hheld, hsame⟩ := hpart
    cases hsame.symm.trans hlookup
    exact ⟨own, inner, hinside.of_member? hname hown, hheld⟩

/-- The items of a value are held by the elements of its part. -/
theorem Held.of_items (hroot : root.WellFormed) {value : Value} (h : Held root (.list role) value)
    {items : List Value} (hitems : value.items? = some items) {item : Value}
    (hitem : item ∈ items) : Held root role item := by
  obtain ⟨part, room, hinside, hvalue⟩ := h
  -- only a list has items, or brackets with nothing in them
  cases part with
  | leaf text =>
    rcases Cursor.content_leaf (hinside.wellFormed hroot).isLeaf_tree hvalue with
      rfl | rfl | hscalar
    · cases hitems
      cases hitem
    · cases hitems
    · rw [Value.items?_eq_none hscalar] at hitems
      cases hitems
  | object =>
    obtain ⟨_, -, _, -, rfl⟩ := Cursor.value_object.mp hvalue
    cases hitems
  | list before elements behind =>
    obtain ⟨inner, -, _, hread, rfl⟩ := Cursor.value_list.mp hvalue
    cases hitems
    obtain ⟨index, hindex, rfl⟩ := List.mem_iff_getElem.mp hitem
    have helement : index < elements.length := hread.length_eq ▸ hindex
    exact ⟨elements[index], inner, hinside.element (List.getElem?_eq_getElem helement),
      hread.get helement hindex⟩

/-- The entries of a map that is read to its end are read from its members. -/
theorem lists_of_pairs {part : Written} (hpart : part.WellFormed) {room : Nat} {value : Value}
    (hvalue : content ⟨room, part.tree⟩ = .ok value) {key? : Value → Option String}
    (hkey : ∀ text, key? (.text text) = some text) {read : Value → Option α}
    {entries : List (String × α)}
    (h : (value.pairs? key?).bind (·.mapM (named read)) = some entries) :
    Lists (Source.interpreted read) part.members entries := by
  cases part with
  | leaf text =>
    rcases Cursor.content_leaf hpart.isLeaf_tree hvalue with rfl | rfl | hscalar
    · cases h
    · cases h
      exact ⟨0, .nil⟩
    · rw [Value.pairs?_eq_none hscalar] at h
      cases h
  | list =>
    obtain ⟨_, -, _, -, rfl⟩ := Cursor.value_list.mp hvalue
    cases h
  | object before members behind =>
    obtain ⟨inner, -, pairs, hpairs, rfl⟩ := Cursor.value_object.mp hvalue
    have hread : pairs.mapM (named read) = some entries := by
      rwa [← Value.ofPairs, Value.pairs?_ofPairs hkey] at h
    refine ⟨inner, ?_⟩
    -- The pairs are taken one by one, so the induction goes along the members they are read from.
    clear h hvalue hpart
    induction hpairs generalizing entries with
    | nil =>
      cases hread
      exact .nil
    | @cons member pair _ _ hmember _ ih =>
      rw [List.mapM_cons] at hread
      obtain ⟨entry, hentry, hread⟩ := Option.bind_eq_some_iff.mp hread
      obtain ⟨others, hothers, hread⟩ := Option.bind_eq_some_iff.mp hread
      cases hread
      obtain ⟨it, hit, rfl⟩ := Option.map_eq_some_iff.mp hentry
      exact .cons ⟨hmember.1, Cursor.interpreted_eq_ok.mpr ⟨pair.2, hmember.2, hit⟩⟩ (ih hothers)

end Protoscribe.OpenApi
