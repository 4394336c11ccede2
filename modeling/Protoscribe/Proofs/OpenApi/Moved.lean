import Mathlib.Data.List.Pairwise
import Protoscribe.OpenApi.Reading
import Protoscribe.Proofs.Json.Reading
import Protoscribe.Proofs.OpenApi.Alike

/-!
# `Protoscribe.Proofs.OpenApi.Moved`: what is read of a text with moved members

`Role.Keeps` says of a reader that it reads the same of a text and of one in which the members of an
object are moved. The readers of a description are put together from a few others, and `Keeps` is
proved for these: `keeps_interpreted` for values that are read to their end, `keeps_list`,
`keeps_table` and `keeps_ordered` for lists and maps, and `keeps_recordFrom` for records. A record
is read the same because the changes that its members make are independent of each other, and
because no known member may occur twice. `Document.keeps_read` is the result for a whole
description.
-/

set_option autoImplicit false

namespace Protoscribe

/-- A pairing may be split at one of the items. -/
theorem forall₂_append_cons {α β : Type} {R : α → β → Prop} {front back : List α} {item : α}
    {others : List β} : List.Forall₂ R (front ++ item :: back) others ↔
      ∃ front' item' back', others = front' ++ item' :: back' ∧ List.Forall₂ R front front' ∧
        R item item' ∧ List.Forall₂ R back back' := by
  induction front generalizing others with
  | nil =>
    rw [List.nil_append, List.forall₂_cons_left_iff]
    constructor
    · rintro ⟨item', back', hitem, hback, rfl⟩
      exact ⟨[], item', back', rfl, .nil, hitem, hback⟩
    · rintro ⟨_, item', back', rfl, hfront, hitem, hback⟩
      cases hfront
      exact ⟨item', back', hitem, hback, rfl⟩
  | cons first rest ih =>
    rw [List.cons_append, List.forall₂_cons_left_iff]
    constructor
    · rintro ⟨first', _, hfirst, hrest, rfl⟩
      obtain ⟨front', item', back', rfl, hfront, hitem, hback⟩ := ih.mp hrest
      exact ⟨first' :: front', item', back', rfl, .cons hfirst hfront, hitem, hback⟩
    · rintro ⟨_, item', back', rfl, hfront, hitem, hback⟩
      cases hfront with
      | @cons _ first' _ front' hfirst hfront =>
        exact ⟨first', _, hfirst, ih.mpr ⟨front', item', back', rfl, hfront, hitem, hback⟩, rfl⟩

namespace OpenApi

open Json (Written writtenName Cursor Result Wanted)
open Json.Cursor (ReadsMember ReadsElement content enter)
open Json.Result (bind_eq_ok map_eq_ok pure_eq_ok)

variable {role : Role} {text moved : Written} {α β : Type}

/-! ### Values that are read to their end -/

/-- A plain part has no members to move. -/
theorem not_moved_plain : ¬ Moved .plain text moved := by
  intro h
  generalize hrole : Role.plain = role at h
  induction h with
  | members hunordered _ _ =>
    subst hrole
    cases hunordered
  | member _ ih =>
    subst hrole
    exact ih rfl
  | element _ ih =>
    subst hrole
    exact ih rfl

/-- Members of different names are read to entries of different names. -/
theorem distinct_names {read : Cursor → Result α} {room : Nat}
    {members : List (List Char × Written)} {entries : List (String × α)}
    (h : List.Forall₂ (ReadsMember read room) members entries)
    (hdistinct : (members.map fun member => writtenName member.1).Nodup) :
    (entries.map (·.1)).Nodup := by
  have hnames : members.map (fun member => writtenName member.1) =
      (entries.map (·.1)).map some := by
    clear hdistinct
    induction h with
    | nil => rfl
    | cons hmember _ ih => rw [List.map_cons, List.map_cons, List.map_cons, hmember.1, ih]
  exact .of_map _ (hnames ▸ hdistinct)

/-- The values of a text and of one with moved members are read alike. -/
theorem Moved.exists_alike (h : Moved role text moved) {room : Nat} {value : Value}
    (hvalue : content ⟨room, text.tree⟩ = .ok value) :
    ∃ other, content ⟨room, moved.tree⟩ = .ok other ∧ role.Alike value other := by
  induction h generalizing room value with
  | members hrole hdistinct hperm =>
    obtain ⟨inner, henter, pairs, hpairs, rfl⟩ := Cursor.value_object.mp hvalue
    -- Each member is read on its own, so the moved members give the same pairs in another order.
    obtain ⟨others, hothers, hperm'⟩ := List.perm_comp_forall₂ hperm.symm hpairs
    refine ⟨_, Cursor.value_object.mpr ⟨inner, henter, others, hothers, rfl⟩, ?_, rfl, rfl⟩
    exact Role.ofValue?_of_perm hrole (distinct_names hpairs hdistinct) hperm'.symm
  | @member role before behind name front back part moved h ih =>
    obtain ⟨inner, henter, pairs, hpairs, rfl⟩ := Cursor.value_object.mp hvalue
    obtain ⟨front', ⟨own, held⟩, back', rfl, hfront, ⟨hname, hpart⟩, hback⟩ :=
      forall₂_append_cons.mp hpairs
    obtain ⟨other, hother, halike⟩ := ih hpart
    have hothers : List.Forall₂ (ReadsMember content inner) (front ++ (name, moved) :: back)
        (front' ++ (own, other) :: back') :=
      forall₂_append_cons.mpr ⟨front', (own, other), back', rfl, hfront, ⟨hname, hother⟩, hback⟩
    refine ⟨_, Cursor.value_object.mpr ⟨inner, henter, _, hothers, rfl⟩, ?_, rfl, rfl⟩
    simp only at hname
    rw [hname] at halike
    exact Role.ofValue?_of_member halike front' back'
  | @element role before behind front back part moved h ih =>
    obtain ⟨inner, henter, items, hitems, rfl⟩ := Cursor.value_list.mp hvalue
    obtain ⟨front', item, back', rfl, hfront, hpart, hback⟩ := forall₂_append_cons.mp hitems
    obtain ⟨other, hother, halike⟩ := ih hpart
    have hothers := forall₂_append_cons.mpr ⟨front', other, back', rfl, hfront, hother, hback⟩
    refine ⟨_, Cursor.value_list.mpr ⟨inner, henter, _, hothers, rfl⟩, ?_, rfl, rfl⟩
    rw [hfront.length_eq] at halike
    exact Role.ofValue?_of_element halike back'

/-! ### Readers that keep what they read -/

namespace Role

/-- What is read of a text in a role stays the same when the members of an object in it are
moved. -/
def Keeps (role : Role) (read : Cursor → Result α) : Prop :=
  ∀ text moved, Moved role text moved → ∀ room result,
    read ⟨room, text.tree⟩ = .ok result → read ⟨room, moved.tree⟩ = .ok result

/-- Nothing is moved inside a plain value. -/
theorem keeps_plain (read : Cursor → Result α) : Role.plain.Keeps read :=
  fun _ _ h => absurd h not_moved_plain

/-- What becomes of the result afterwards does not see the order. -/
theorem Keeps.map {read : Cursor → Result α} (h : role.Keeps read) (f : α → β) :
    role.Keeps fun cursor => f <$> read cursor := by
  intro text moved hmoved room result hresult
  obtain ⟨value, hvalue, rfl⟩ := map_eq_ok.mp hresult
  exact map_eq_ok.mpr ⟨value, h _ _ hmoved _ _ hvalue, rfl⟩

/-- Values that are alike are taken for the same. -/
theorem keeps_interpreted {read : Value → Option α}
    (hread : ∀ value other, role.Alike value other → read value = read other) :
    role.Keeps (Source.interpreted read : Cursor → Result α) := by
  intro text moved hmoved room result hresult
  obtain ⟨value, hvalue, hsome⟩ := Cursor.interpreted_eq_ok.mp hresult
  obtain ⟨other, hother, halike⟩ := hmoved.exists_alike hvalue
  exact Cursor.interpreted_eq_ok.mpr ⟨other, hother, hread value other halike ▸ hsome⟩

/-- A list or an object is no `null`. -/
theorem keeps_optional {read : Cursor → Result α} (h : role.Keeps read) :
    role.Keeps (Cursor.optional read) := by
  intro text moved hmoved room result hresult
  have hkept := h.map some _ _ hmoved room result
  cases hmoved with
  | members | member | element => exact hkept hresult

/-- A list is read element by element, and each of them may have its members moved. -/
theorem keeps_list {read : Cursor → Result α} (h : role.Keeps read) :
    (Role.list role).Keeps (Cursor.list read) := by
  intro text moved hmoved room result hresult
  cases hmoved with
  | members hrole => cases hrole
  | member => cases hresult
  | element hmoved =>
    obtain ⟨inner, henter, hitems⟩ := Cursor.list_eq_ok.mp hresult
    obtain ⟨front', item, back', rfl, hfront, hpart, hback⟩ := forall₂_append_cons.mp hitems
    have hothers := forall₂_append_cons.mpr
      ⟨front', item, back', rfl, hfront, h _ _ hmoved _ _ hpart, hback⟩
    exact Cursor.list_eq_ok.mpr ⟨inner, henter, hothers⟩

/-- Entries stay the same when something moves inside one of them. -/
theorem entries_of_moved {read : Cursor → Result α} (h : role.Keeps read) {wanted : Wanted}
    {name : List Char} {front back : List (List Char × Written)} {part moved : Written}
    (hmoved : Moved role part moved) {room : Nat} {result : List (String × α)}
    (hresult : Cursor.entries wanted read
      ⟨room, .object (Written.memberTrees (front ++ (name, part) :: back)) none⟩ = .ok result) :
    Cursor.entries wanted read
      ⟨room, .object (Written.memberTrees (front ++ (name, moved) :: back)) none⟩ = .ok result := by
  obtain ⟨inner, henter, hfound⟩ := Cursor.entries_eq_ok.mp hresult
  obtain ⟨front', entry, back', rfl, hfront, ⟨hname, hpart⟩, hback⟩ :=
    forall₂_append_cons.mp hfound
  have hothers : List.Forall₂ (ReadsMember read inner) (front ++ (name, moved) :: back)
      (front' ++ entry :: back') :=
    forall₂_append_cons.mpr
      ⟨front', entry, back', rfl, hfront, ⟨hname, h _ _ hmoved _ _ hpart⟩, hback⟩
  exact Cursor.entries_eq_ok.mpr ⟨inner, henter, hothers⟩

/-- Entries in order are read one by one, and each of them may have its members moved. -/
theorem keeps_ordered {read : Cursor → Result α} (h : role.Keeps read) :
    (Role.ordered role).Keeps (Cursor.entries .orderedMap read) := by
  intro text moved hmoved room result hresult
  cases hmoved with
  | members hrole => cases hrole
  | member hmoved => exact entries_of_moved h hmoved hresult
  | element => cases hresult

/-- Entries that are sorted by key may stand in any order if their keys are distinct. -/
theorem keeps_table {read : Cursor → Result α} (h : role.Keeps read) :
    (Role.map role).Keeps fun cursor => Table.ofList <$> Cursor.entries .map read cursor := by
  intro text moved hmoved room result hresult
  obtain ⟨entries, hentries, rfl⟩ := map_eq_ok.mp hresult
  cases hmoved with
  | members _ hdistinct hperm =>
    obtain ⟨inner, henter, hfound⟩ := Cursor.entries_eq_ok.mp hentries
    obtain ⟨others, hothers, hperm'⟩ := List.perm_comp_forall₂ hperm.symm hfound
    refine map_eq_ok.mpr ⟨others, Cursor.entries_eq_ok.mpr ⟨inner, henter, hothers⟩, ?_⟩
    exact (Table.ofList_eq_of_perm hperm'.symm (distinct_names hfound hdistinct)).symm
  | member hmoved => exact map_eq_ok.mpr ⟨entries, entries_of_moved h hmoved hentries, rfl⟩
  | element => cases hentries

/-! ### Records -/

/-- Two members of a record change it independently of each other. -/
def Commute (own other : Member Cursor Result α) : Prop :=
  ∀ cursor cursor' change change', own.read cursor = .ok change →
    other.read cursor' = .ok change' → ∀ it, change (change' it) = change' (change it)

instance : Std.Symm (Commute (α := α)) where
  symm _ _ h cursor cursor' change change' hread hread' it :=
    (h cursor' cursor change' change hread' hread it).symm

/-- What a record is read from: its members keep what they read, and change it independently. -/
structure KeepsMembers (role : Role) (known : List (Member Cursor Result α)) : Prop where
  unordered : role.isUnordered = true
  names : known.map (·.name) = role.names
  keeps : ∀ own ∈ known, (role.member (some own.name)).Keeps own.read
  commute : known.Pairwise Commute

variable {known : List (Member Cursor Result α)}

/-- A change that is made comes from a member that the record knows. -/
theorem exists_of_mem_made {room : Nat} {members : List (List Char × Written)}
    {outcomes : List (Option (String × (α → α)))}
    (h : List.Forall₂ (Cursor.Makes known room) members outcomes) {change : String × (α → α)}
    (hchange : change ∈ Cursor.made outcomes) :
    ∃ own ∈ known, own.name = change.1 ∧ ∃ cursor, own.read cursor = .ok change.2 := by
  obtain ⟨name, change⟩ := change
  have houtcome : some (name, change) ∈ outcomes := by simpa [Cursor.made] using hchange
  clear hchange
  induction h with
  | nil => cases houtcome
  | cons hmakes _ ih =>
    rcases List.mem_cons.mp houtcome with rfl | hrest
    · cases hmakes with
      | @change _ _ _ own _ _ hfind hread =>
        have hname : own.name = name := by simpa using List.find?_some hfind
        exact ⟨own, List.mem_of_find?_eq_some hfind, hname, _, hread⟩
    · exact ih hrest

/-- The changes that distinct members make may be made in any order. -/
theorem KeepsMembers.foldl_eq (h : role.KeepsMembers known) {room : Nat}
    {members : List (List Char × Written)} {outcomes others : List (Option (String × (α → α)))}
    (hmakes : List.Forall₂ (Cursor.Makes known room) members outcomes)
    (hdistinct : ((Cursor.made outcomes).map (·.1)).Nodup) (hperm : outcomes.Perm others)
    (start : α) :
    ((Cursor.made outcomes).map (·.2)).foldl (fun it change => change it) start =
      ((Cursor.made others).map (·.2)).foldl (fun it change => change it) start := by
  refine ((hperm.filterMap id).map _).foldl_eq' ?_ start
  intro _ hchange _ hchange' it
  obtain ⟨first, hfirst, rfl⟩ := List.mem_map.mp hchange
  obtain ⟨second, hsecond, rfl⟩ := List.mem_map.mp hchange'
  -- Two equal changes commute; two different ones are made by members of different names, which
  -- are therefore different members.
  by_cases hsame : first = second
  · rw [hsame]
  · obtain ⟨own, hown, hname, cursor, hread⟩ := exists_of_mem_made hmakes hfirst
    obtain ⟨other, hother, hname', cursor', hread'⟩ := exists_of_mem_made hmakes hsecond
    have hne : own ≠ other := by
      rintro rfl
      exact hsame (List.inj_on_of_nodup_map hdistinct hfirst hsecond (hname.symm.trans hname'))
    exact (h.commute.forall hown hother hne _ _ _ _ hread hread' it).symm

/-- A part that is passed over may have its members moved. -/
theorem skip_of_moved {part moved : Written} (h : Moved role part moved) :
    Cursor.skip moved.tree = .ok () := by
  cases h <;> rfl

/-- A member still makes its change when something moves inside it. -/
theorem KeepsMembers.makes (h : role.KeepsMembers known) {room : Nat} {name : List Char}
    {part moved : Written} (hmoved : Moved (role.member (writtenName name)) part moved)
    {outcome : Option (String × (α → α))} (hmakes : Cursor.Makes known room (name, part) outcome) :
    Cursor.Makes known room (name, moved) outcome := by
  cases hmakes with
  | pass hname hfind _ => exact .pass hname hfind (skip_of_moved hmoved)
  | @change _ _ text own _ hname hfind hread =>
    have hown : own.name = text := by simpa using List.find?_some hfind
    have hkeeps := h.keeps own (List.mem_of_find?_eq_some hfind)
    rw [hown, ← hname] at hkeeps
    exact .change hname hfind (hkeeps _ _ hmoved _ _ hread)

/-- An element still makes its change when something moves inside it. -/
theorem KeepsMembers.makesInPlace (h : role.KeepsMembers known) {room : Nat}
    {front back : List Written} {part moved : Written}
    (hmoved : Moved (role.element front.length) part moved) {changes : List (α → α)}
    (hlength : (front ++ part :: back).length ≤ known.length)
    (hmakes : List.Forall₂ (Cursor.MakesInPlace room) (known.zip (front ++ part :: back)) changes) :
    List.Forall₂ (Cursor.MakesInPlace room) (known.zip (front ++ moved :: back)) changes := by
  have hindex : front.length < known.length := by
    rw [List.length_append, List.length_cons] at hlength
    omega
  rw [zip_append_cons hindex] at hmakes ⊢
  obtain ⟨front', change, back', rfl, hfront, hread, hback⟩ := forall₂_append_cons.mp hmakes
  refine forall₂_append_cons.mpr ⟨front', change, back', rfl, hfront, ?_, hback⟩
  have hname : role.names[front.length]? = some known[front.length].name := by
    rw [← h.names, List.getElem?_map, List.getElem?_eq_getElem hindex, Option.map_some]
  have hrecord : role.members ≠ [] := by
    intro hnil
    rw [Role.names, hnil] at hname
    cases hname
  have hkeeps := h.keeps _ (List.getElem_mem hindex)
  rw [member_eq_element hrecord hname] at hkeeps
  exact hkeeps _ _ hmoved _ _ hread

/-- A record is read the same when its members, or those of an object in it, are moved. -/
theorem keeps_recordFrom (h : role.KeepsMembers known) (start : α) (title : String) :
    role.Keeps (Source.recordFrom start title known) := by
  intro text moved hmoved room result hresult
  obtain ⟨changes, hchanges, rfl⟩ := map_eq_ok.mp hresult
  cases hmoved with
  | members _ _ hperm =>
    obtain ⟨inner, henter, outcomes, hmakes, hdistinct, rfl⟩ := Cursor.record_object.mp hchanges
    obtain ⟨others, hothers, hperm'⟩ := List.perm_comp_forall₂ hperm.symm hmakes
    have hdistinct' : ((Cursor.made others).map (·.1)).Nodup :=
      (((hperm'.filterMap id).map _).nodup_iff).mpr hdistinct
    refine map_eq_ok.mpr ⟨_, Cursor.record_object.mpr
      ⟨inner, henter, others, hothers, hdistinct', rfl⟩, ?_⟩
    exact (h.foldl_eq hmakes hdistinct hperm'.symm start).symm
  | member hmoved =>
    obtain ⟨inner, henter, outcomes, hmakes, hdistinct, rfl⟩ := Cursor.record_object.mp hchanges
    obtain ⟨front', outcome, back', rfl, hfront, hpart, hback⟩ := forall₂_append_cons.mp hmakes
    have hothers := forall₂_append_cons.mpr
      ⟨front', outcome, back', rfl, hfront, h.makes hmoved hpart, hback⟩
    exact map_eq_ok.mpr ⟨_, Cursor.record_object.mpr
      ⟨inner, henter, _, hothers, hdistinct, rfl⟩, rfl⟩
  | element hmoved =>
    obtain ⟨inner, henter, hlength, hmakes⟩ := Cursor.record_list.mp hchanges
    have hothers := h.makesInPlace hmoved hlength hmakes
    refine map_eq_ok.mpr ⟨changes, Cursor.record_list.mpr ⟨inner, henter, ?_, hothers⟩, rfl⟩
    simpa using hlength

/-- Two members commute when their settings do. -/
@[simp] theorem commute_member {β γ : Type} {own other : String} {read : Cursor → Result β}
    {read' : Cursor → Result γ} {set : β → α → α} {set' : γ → α → α}
    (h : ∀ value value' it, set value (set' value' it) = set' value' (set value it)) :
    Commute (Source.member own read set) (Source.member other read' set') := by
  intro cursor cursor' change change' hread hread' it
  obtain ⟨value, -, rfl⟩ := map_eq_ok.mp hread
  obtain ⟨value', -, rfl⟩ := map_eq_ok.mp hread'
  exact h value value' it

end Role

/-! ### A whole description -/

open Role

/-- An operation may list its members in any order. -/
theorem Operation.keepsMembers : Role.operation.KeepsMembers Operation.members where
  unordered := rfl
  names := rfl
  keeps := by
    simp only [Operation.members, List.forall_mem_cons, List.not_mem_nil, false_implies,
      implies_true, and_true]
    refine ⟨keeps_plain _, keeps_plain _, keeps_plain _, keeps_plain _, ?_, ?_, ?_⟩
    · exact (keeps_list (keeps_interpreted fun _ _ halike => halike.eq)).map _
    · exact (keeps_optional (keeps_interpreted fun _ _ halike => halike.eq)).map _
    · exact (keeps_ordered (keeps_interpreted fun _ _ halike => halike.eq)).map _
  commute := by simp [Operation.members]

/-- A path may list its members in any order. -/
theorem PathItem.keepsMembers : Role.pathItem.KeepsMembers PathItem.members where
  unordered := rfl
  names := rfl
  keeps := by
    have hoperation : Role.operation.Keeps (Cursor.optional Operation.read) :=
      keeps_optional (keeps_recordFrom Operation.keepsMembers _ _)
    simp only [PathItem.members, List.forall_mem_cons, List.not_mem_nil, false_implies,
      implies_true, and_true]
    refine ⟨keeps_plain _, keeps_plain _, ?_, hoperation.map _, hoperation.map _,
      hoperation.map _, hoperation.map _, hoperation.map _, hoperation.map _, hoperation.map _,
      hoperation.map _⟩
    exact (keeps_list (keeps_interpreted fun _ _ halike => halike.eq)).map _
  commute := by simp [PathItem.members]

/-- The components may list their members in any order. -/
theorem Components.keepsMembers : Role.components.KeepsMembers Components.members where
  unordered := rfl
  names := rfl
  keeps := by
    simp only [Components.members, List.forall_mem_cons, List.not_mem_nil, false_implies,
      implies_true, and_true]
    refine ⟨?_, ?_, ?_, ?_⟩
    all_goals exact (keeps_table (keeps_interpreted fun _ _ halike => halike.eq)).map _
  commute := by simp [Components.members]

/-- The title page may list its members in any order. -/
theorem Info.keepsMembers : Role.info.KeepsMembers Info.members where
  unordered := rfl
  names := rfl
  keeps := by
    simp only [Info.members, List.forall_mem_cons, List.not_mem_nil, false_implies,
      implies_true, and_true]
    exact ⟨keeps_plain _, keeps_plain _, keeps_plain _⟩
  commute := by simp [Info.members]

/-- A description may list its members in any order. -/
theorem Document.keepsMembers : Role.document.KeepsMembers Document.members where
  unordered := rfl
  names := rfl
  keeps := by
    simp only [Document.members, List.forall_mem_cons, List.not_mem_nil, false_implies,
      implies_true, and_true]
    refine ⟨keeps_plain _, ?_, ?_, ?_⟩
    · exact (keeps_recordFrom Info.keepsMembers _ _).map _
    · exact (keeps_table (keeps_recordFrom PathItem.keepsMembers _ _)).map _
    · exact (keeps_recordFrom Components.keepsMembers _ _).map _
  commute := by simp [Document.members]

/-- A description is read the same when the members of an object in it are moved. -/
theorem Document.keeps_read : Role.document.Keeps (Document.read (m := Result)) :=
  keeps_recordFrom Document.keepsMembers {} "Document"

end OpenApi

end Protoscribe
