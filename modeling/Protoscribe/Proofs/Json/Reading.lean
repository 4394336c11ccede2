import Mathlib.Data.List.Perm.Basic
import Protoscribe.Json.Source
import Protoscribe.Proofs.Json.Written

/-!
# `Protoscribe.Proofs.Json.Reading`: what is read of the parts of a text

A list, a map or a record is read from a text exactly when each of its parts is read, and what comes
out is put together from what is read of the parts. So every reader is given here as a relation
between the parts of a text and their readings, part by part: `value_list` and `value_object` for
values, `list_eq_ok` and `entries_eq_ok` for lists and maps, `record_object` and `record_list` for
the changes that the members of a record make.
-/

set_option autoImplicit false

namespace Protoscribe.Json

variable {α β : Type}

/-! ### Steps that succeed -/

namespace Result

/-- Two readers succeed when both do, one after the other. -/
theorem bind_eq_ok {step : Result α} {next : α → Result β} {result : β} :
    step >>= next = .ok result ↔ ∃ value, step = .ok value ∧ next value = .ok result := by
  cases step with
  | error cause =>
    constructor
    · intro h
      cases h
    · rintro ⟨_, h, -⟩
      cases h
  | ok value =>
    constructor
    · exact fun h => ⟨value, rfl, h⟩
    · rintro ⟨_, h, hnext⟩
      cases h
      exact hnext

/-- What becomes of a result afterwards. -/
theorem map_eq_ok {step : Result α} {f : α → β} {result : β} :
    f <$> step = .ok result ↔ ∃ value, step = .ok value ∧ f value = result := by
  cases step with
  | error cause =>
    constructor
    · intro h
      cases h
    · rintro ⟨_, h, -⟩
      cases h
  | ok value =>
    constructor
    · intro h
      cases h
      exact ⟨value, rfl, rfl⟩
    · rintro ⟨_, h, rfl⟩
      cases h
      rfl

/-- A result that is given back at once. -/
theorem pure_eq_ok {value result : α} : (pure value : Result α) = .ok result ↔ value = result :=
  ⟨fun h => Except.ok.inj h, fun h => congrArg Except.ok h⟩

/-- Items are read exactly when each of them is. -/
theorem mapM_eq_ok {read : α → Result β} {items : List α} {results : List β} :
    items.mapM read = .ok results ↔
      List.Forall₂ (fun item result => read item = .ok result) items results := by
  induction items generalizing results with
  | nil =>
    rw [List.mapM_nil, pure_eq_ok, List.forall₂_nil_left_iff]
    exact eq_comm
  | cons item rest ih =>
    rw [List.mapM_cons, List.forall₂_cons_left_iff]
    simp only [bind_eq_ok, pure_eq_ok, ih]
    constructor
    · rintro ⟨first, hfirst, others, hothers, rfl⟩
      exact ⟨first, others, hfirst, hothers, rfl⟩
    · rintro ⟨first, others, hfirst, hothers, rfl⟩
      exact ⟨first, hfirst, others, hothers, rfl⟩

end Result

open Result

/-! ### Lists and maps -/

namespace Cursor

/-- A value of any kind, as it is read at a cursor. -/
def content (cursor : Cursor) : Result Value :=
  value cursor.room cursor.tree

/-- A member of an object is read under its name. -/
def ReadsMember (read : Cursor → Result α) (room : Nat) (member : List Char × Written)
    (entry : String × α) : Prop :=
  writtenName member.1 = some entry.1 ∧ read ⟨room, member.2.tree⟩ = .ok entry.2

/-- An element of a list is read. -/
def ReadsElement (read : Cursor → Result α) (room : Nat) (element : Written) (item : α) : Prop :=
  read ⟨room, element.tree⟩ = .ok item

/-- A key is read when the name is complete. -/
theorem key_eq_ok {name : Option String} {text : String} :
    key name = .ok text ↔ name = some text := by
  cases name with
  | none =>
    constructor <;> intro h <;> cases h
  | some own =>
    constructor <;> intro h <;> cases h <;> rfl

variable {room : Nat} {elements : List Written} {members : List (List Char × Written)}

/-- The elements of a list are read to their end one by one. -/
theorem values_eq_ok {items : List Value} :
    values room (Written.trees elements) = .ok items ↔
      List.Forall₂ (ReadsElement content room) elements items := by
  induction elements generalizing items with
  | nil =>
    rw [Written.trees, values, List.forall₂_nil_left_iff]
    exact ⟨fun h => (Except.ok.inj h).symm, fun h => congrArg Except.ok h.symm⟩
  | cons element rest ih =>
    rw [Written.trees, values, List.forall₂_cons_left_iff]
    simp only [bind_eq_ok, pure_eq_ok, ih]
    constructor
    · rintro ⟨first, hfirst, others, hothers, rfl⟩
      exact ⟨first, others, hfirst, hothers, rfl⟩
    · rintro ⟨first, others, hfirst, hothers, rfl⟩
      exact ⟨first, hfirst, others, hothers, rfl⟩

/-- The members of an object are read to their end one by one. -/
theorem valueEntries_eq_ok {entries : List (Value × Value)} :
    valueEntries room (Written.memberTrees members) = .ok entries ↔
      ∃ pairs, List.Forall₂ (ReadsMember content room) members pairs ∧
        entries = pairs.map fun pair => (.text pair.1, pair.2) := by
  induction members generalizing entries with
  | nil =>
    simp only [Written.memberTrees, valueEntries, List.forall₂_nil_left_iff, exists_eq_left,
      List.map_nil]
    exact ⟨fun h => (Except.ok.inj h).symm, fun h => congrArg Except.ok h.symm⟩
  | cons member rest ih =>
    obtain ⟨text, part⟩ := member
    rw [Written.memberTrees, valueEntries]
    simp only [bind_eq_ok, pure_eq_ok, ih, key_eq_ok, List.forall₂_cons_left_iff]
    constructor
    · rintro ⟨name, hname, item, hitem, _, ⟨pairs, hpairs, rfl⟩, rfl⟩
      exact ⟨_, ⟨(name, item), pairs, ⟨hname, hitem⟩, hpairs, rfl⟩, rfl⟩
    · rintro ⟨_, ⟨⟨name, item⟩, pairs, ⟨hname, hitem⟩, hpairs, rfl⟩, rfl⟩
      exact ⟨name, hname, item, hitem, _, ⟨pairs, hpairs, rfl⟩, rfl⟩

/-- The value of a list in a text. -/
theorem value_list {result : Value} :
    value room (.list (Written.trees elements) none) = .ok result ↔
      ∃ inner, enter room = .ok inner ∧
        ∃ items, List.Forall₂ (ReadsElement content inner) elements items ∧
          result = .list items := by
  rw [value]
  simp only [bind_eq_ok, pure_eq_ok, values_eq_ok, close]
  constructor
  · rintro ⟨inner, henter, items, hitems, _, -, rfl⟩
    exact ⟨inner, henter, items, hitems, rfl⟩
  · rintro ⟨inner, henter, items, hitems, rfl⟩
    exact ⟨inner, henter, items, hitems, (), trivial, rfl⟩

/-- The value of an object in a text. -/
theorem value_object {result : Value} :
    value room (.object (Written.memberTrees members) none) = .ok result ↔
      ∃ inner, enter room = .ok inner ∧
        ∃ pairs, List.Forall₂ (ReadsMember content inner) members pairs ∧
          result = .map (pairs.map fun pair => (.text pair.1, pair.2)) := by
  rw [value]
  simp only [bind_eq_ok, pure_eq_ok, valueEntries_eq_ok, close]
  constructor
  · rintro ⟨inner, henter, _, ⟨pairs, hpairs, rfl⟩, _, -, rfl⟩
    exact ⟨inner, henter, pairs, hpairs, rfl⟩
  · rintro ⟨inner, henter, pairs, hpairs, rfl⟩
    exact ⟨inner, henter, _, ⟨pairs, hpairs, rfl⟩, (), trivial, rfl⟩

/-- A value that is read to its end is taken for what it is. -/
theorem interpreted_eq_ok {read : Value → Option α} {cursor : Cursor} {result : α} :
    Source.interpreted read cursor = (.ok result : Result α) ↔
      ∃ value, content cursor = .ok value ∧ read value = some result := by
  rw [Source.interpreted, bind_eq_ok]
  refine exists_congr fun value => and_congr_right fun _ => ?_
  cases read value with
  | none =>
    constructor <;> intro h <;> cases h
  | some own =>
    rw [pure_eq_ok, Option.some_inj]

/-- A list is read element by element, one level further in. -/
theorem list_eq_ok {read : Cursor → Result α} {items : List α} :
    list read ⟨room, .list (Written.trees elements) none⟩ = .ok items ↔
      ∃ inner, enter room = .ok inner ∧
        List.Forall₂ (ReadsElement read inner) elements items := by
  simp only [list, Written.trees_eq, List.mapM_map, bind_eq_ok, pure_eq_ok,
    mapM_eq_ok, close, Function.comp_apply]
  constructor
  · rintro ⟨inner, henter, items, hitems, _, -, rfl⟩
    exact ⟨inner, henter, hitems⟩
  · rintro ⟨inner, henter, hitems⟩
    exact ⟨inner, henter, items, hitems, (), trivial, rfl⟩

/-- Entries are read member by member, one level further in. -/
theorem entries_eq_ok {read : Cursor → Result α} {wanted : Wanted}
    {found : List (String × α)} :
    entries wanted read ⟨room, .object (Written.memberTrees members) none⟩ = .ok found ↔
      ∃ inner, enter room = .ok inner ∧
        List.Forall₂ (ReadsMember read inner) members found := by
  have hmember (inner : Nat) (member : List Char × Written) (entry : String × α) :
      (do let name ← key (writtenName member.1)
          pure (name, ← read ⟨inner, member.2.tree⟩)) = Except.ok entry ↔
        ReadsMember read inner member entry := by
    obtain ⟨name, result⟩ := entry
    simp only [bind_eq_ok, pure_eq_ok, key_eq_ok, Prod.mk.injEq, ReadsMember]
    constructor
    · rintro ⟨_, hname, _, hresult, rfl, rfl⟩
      exact ⟨hname, hresult⟩
    · rintro ⟨hname, hresult⟩
      exact ⟨name, hname, result, hresult, rfl, rfl⟩
  simp only [entries, Written.memberTrees_eq, List.mapM_map, bind_eq_ok, pure_eq_ok,
    mapM_eq_ok, close, Function.comp_apply, hmember]
  constructor
  · rintro ⟨inner, henter, found, hfound, _, -, rfl⟩
    exact ⟨inner, henter, hfound⟩
  · rintro ⟨inner, henter, hfound⟩
    exact ⟨inner, henter, found, hfound, (), trivial, rfl⟩

/-! ### Records -/

section

variable {known : List (Member Cursor Result α)} {title : String}

/-- A member of an object makes a change to the record under its name if the record knows it, and is
passed over if not. -/
inductive Makes (known : List (Member Cursor Result α)) (room : Nat) :
    List Char × Written → Option (String × (α → α)) → Prop
  | change {text : List Char} {part : Written} {name : String} {member : Member Cursor Result α}
      {change : α → α} (hname : writtenName text = some name)
      (hfind : known.find? (·.name == name) = some member)
      (hread : member.read ⟨room, part.tree⟩ = .ok change) :
      Makes known room (text, part) (some (name, change))
  | pass {text : List Char} {part : Written} {name : String} (hname : writtenName text = some name)
      (hfind : known.find? (·.name == name) = none) (hskip : skip part.tree = .ok ()) :
      Makes known room (text, part) none

/-- The changes that are made, with the names of the members that make them. -/
def made (outcomes : List (Option (String × (α → α)))) : List (String × (α → α)) :=
  outcomes.filterMap id

/-- The members of a record are read one by one, and none that it knows comes twice. -/
theorem changes_eq_ok {seen : List String} {result : List (α → α)} :
    changes room known seen (Written.memberTrees members) = .ok result ↔
      ∃ outcomes, List.Forall₂ (Makes known room) members outcomes ∧
        ((made outcomes).map (·.1)).Nodup ∧ (∀ change ∈ made outcomes, change.1 ∉ seen) ∧
        result = (made outcomes).map (·.2) := by
  -- The names seen so far grow with each known member, so they are kept general.
  induction members generalizing seen result with
  | nil =>
    simp only [Written.memberTrees, changes, List.forall₂_nil_left_iff, exists_eq_left, made,
      List.filterMap_nil, List.map_nil, List.nodup_nil, List.not_mem_nil, false_implies,
      implies_true, true_and]
    exact ⟨fun h => (Except.ok.inj h).symm, fun h => congrArg Except.ok h.symm⟩
  | cons member rest ih =>
    obtain ⟨text, part⟩ := member
    rw [Written.memberTrees, changes]
    simp only [bind_eq_ok, key_eq_ok, List.forall₂_cons_left_iff]
    constructor
    · rintro ⟨name, hname, h⟩
      split at h
      · next hfind =>
        obtain ⟨_, hskip, h⟩ := bind_eq_ok.mp h
        obtain ⟨outcomes, hmakes, hdistinct, hseen, rfl⟩ := ih.mp h
        exact ⟨none :: outcomes, ⟨none, outcomes, .pass hname hfind hskip, hmakes, rfl⟩, hdistinct,
          hseen, rfl⟩
      · next own hfind =>
        split at h
        · cases h
        · next hunseen =>
          simp only [bind_eq_ok, pure_eq_ok] at h
          obtain ⟨change, hread, _, hothers, rfl⟩ := h
          obtain ⟨outcomes, hmakes, hdistinct, hseen, rfl⟩ := ih.mp hothers
          refine ⟨some (name, change) :: outcomes,
            ⟨_, outcomes, .change hname hfind hread, hmakes, rfl⟩, ?_, ?_, rfl⟩
          · refine List.nodup_cons.mpr ⟨fun hmem => ?_, hdistinct⟩
            obtain ⟨other, hother, heq⟩ := List.mem_map.mp hmem
            exact hseen other hother (heq ▸ List.mem_cons_self ..)
          · refine List.forall_mem_cons.mpr ⟨by simpa using hunseen, fun other hother hmem => ?_⟩
            exact hseen other hother (List.mem_cons_of_mem _ hmem)
    · rintro ⟨_, ⟨outcome, outcomes, hmake, hmakes, rfl⟩, hdistinct, hseen, rfl⟩
      cases hmake with
      | pass hname hfind hskip =>
        refine ⟨_, hname, ?_⟩
        rw [hfind]
        exact bind_eq_ok.mpr ⟨(), hskip, ih.mpr ⟨outcomes, hmakes, hdistinct, hseen, rfl⟩⟩
      | @change _ _ name own change hname hfind hread =>
        refine ⟨_, hname, ?_⟩
        obtain ⟨hunseen, hseen⟩ := List.forall_mem_cons.mp hseen
        obtain ⟨hnew, hdistinct⟩ := List.nodup_cons.mp hdistinct
        rw [hfind]
        simp only
        rw [if_neg (by simpa using hunseen)]
        refine bind_eq_ok.mpr ⟨change, hread, bind_eq_ok.mpr ⟨_, ih.mpr ⟨outcomes, hmakes,
          hdistinct, ?_, rfl⟩, rfl⟩⟩
        intro other hother hmem
        rcases List.mem_cons.mp hmem with heq | hmem
        · exact hnew (List.mem_map.mpr ⟨other, hother, heq⟩)
        · exact hseen other hother hmem

/-- The changes that an object in a text makes to a record. -/
theorem record_object {result : List (α → α)} :
    record title known ⟨room, .object (Written.memberTrees members) none⟩ = .ok result ↔
      ∃ inner, enter room = .ok inner ∧
        ∃ outcomes, List.Forall₂ (Makes known inner) members outcomes ∧
          ((made outcomes).map (·.1)).Nodup ∧ result = (made outcomes).map (·.2) := by
  simp only [record, bind_eq_ok, pure_eq_ok, changes_eq_ok, close, List.not_mem_nil,
    not_false_eq_true, implies_true, true_and]
  constructor
  · rintro ⟨inner, henter, _, ⟨outcomes, hmakes, hdistinct, rfl⟩, _, -, rfl⟩
    exact ⟨inner, henter, outcomes, hmakes, hdistinct, rfl⟩
  · rintro ⟨inner, henter, outcomes, hmakes, hdistinct, rfl⟩
    exact ⟨inner, henter, _, ⟨outcomes, hmakes, hdistinct, rfl⟩, (), rfl⟩

/-- An element of a list makes the change of the member in its place. -/
def MakesInPlace (room : Nat) (place : Member Cursor Result α × Written) (change : α → α) : Prop :=
  place.1.read ⟨room, place.2.tree⟩ = .ok change

/-- The elements of a list stand for the first members of a record, each in its place. -/
theorem changesInOrder_eq_ok {result : List (α → α)} :
    changesInOrder room known (Written.trees elements) = .ok result ↔
      elements.length ≤ known.length ∧
        List.Forall₂ (MakesInPlace room) (known.zip elements) result := by
  induction elements generalizing known result with
  | nil =>
    rw [Written.trees, List.zip_nil_right, List.forall₂_nil_left_iff]
    cases known <;> simp [changesInOrder, eq_comm]
  | cons element rest ih =>
    cases known with
    | nil =>
      rw [Written.trees, changesInOrder]
      constructor
      · intro h
        cases h
      · rintro ⟨hlength, -⟩
        cases hlength
    | cons own known =>
      rw [Written.trees, changesInOrder, List.zip_cons_cons, List.forall₂_cons_left_iff]
      simp only [bind_eq_ok, pure_eq_ok, ih, List.length_cons, Nat.add_le_add_iff_right]
      constructor
      · rintro ⟨change, hread, others, ⟨hlength, hothers⟩, rfl⟩
        exact ⟨hlength, change, others, hread, hothers, rfl⟩
      · rintro ⟨hlength, change, others, hread, hothers, rfl⟩
        exact ⟨change, hread, others, ⟨hlength, hothers⟩, rfl⟩

/-- The changes that a list in a text makes to a record. -/
theorem record_list {result : List (α → α)} :
    record title known ⟨room, .list (Written.trees elements) none⟩ = .ok result ↔
      ∃ inner, enter room = .ok inner ∧ elements.length ≤ known.length ∧
        List.Forall₂ (MakesInPlace inner) (known.zip elements) result := by
  simp only [record, bind_eq_ok, pure_eq_ok, changesInOrder_eq_ok, close]
  constructor
  · rintro ⟨inner, henter, _, ⟨hlength, hmakes⟩, _, -, rfl⟩
    exact ⟨inner, henter, hlength, hmakes⟩
  · rintro ⟨inner, henter, hlength, hmakes⟩
    exact ⟨inner, henter, result, ⟨hlength, hmakes⟩, (), trivial, rfl⟩

end

end Cursor

end Protoscribe.Json
