import Mathlib.Data.List.Nodup
import Protoscribe.Proofs.Json.Reading
import Protoscribe.Proofs.OpenApi.Fields
import Protoscribe.Proofs.Table

/-!
# `Protoscribe.Proofs.Json.Parts`: the part of a text that a field is read from

`Written.member?` is the part of a text that stands for a member of a record: what is written under
its name in an object, and what stands in its place in a list. A field of a record is read from
this part and nothing else, or keeps its default value where there is no such part. `Field.get_eq`
says so of records that are read as the text goes, and `lookup_fields?` of the values that are read
to their end first.
-/

set_option autoImplicit false

namespace Protoscribe.Json

variable {α β : Type}

namespace Written

/-- The members of an object, in the order of the text. Other texts have none. -/
def members : Written → List (List Char × Written)
  | .object _ members _ => members
  | _ => []

/-- The part of a text that stands for a member of a record with members of the given names. -/
def member? (names : List String) (name : String) : Written → Option Written
  | .leaf _ => none
  | .list _ elements _ => elements[names.idxOf name]?
  | .object _ members _ =>
    (members.find? fun member => writtenName member.1 == some name).map (·.2)

/-- The part of a member is well formed. -/
theorem WellFormed.of_member? {names : List String} {name : String} {text part : Written}
    (h : text.WellFormed) (hpart : text.member? names name = some part) : part.WellFormed := by
  cases h with
  | leaf => cases hpart
  | list _ _ _ helements => exact helements _ (List.mem_of_getElem? hpart)
  | object _ _ _ _ hmembers =>
    obtain ⟨member, hfind, rfl⟩ := Option.map_eq_some_iff.mp hpart
    exact hmembers _ (List.mem_of_find?_eq_some hfind)

/-- A leaf has the tree of a leaf. -/
theorem WellFormed.isLeaf_tree {text : List Char} (h : WellFormed (.leaf text)) :
    (Written.leaf text).tree.isLeaf = true := by
  cases h with
  | leaf htext => exact htext.2

/-- The first member of an object is the one of its name. -/
theorem member?_object_cons (names : List String) (name : String) {before behind text : List Char}
    {part : Written} {rest : List (List Char × Written)} :
    (Written.object before ((text, part) :: rest) behind).member? names name =
      if writtenName text = some name then some part
      else (Written.object before rest behind).member? names name := by
  rw [member?, member?, List.find?_cons]
  by_cases h : writtenName text = some name
  · rw [if_pos h, h, beq_self_eq_true]
    rfl
  · rw [if_neg h, beq_eq_false_iff_ne.mpr h]

/-- A member of another name is passed over. -/
theorem member?_object_other {names : List String} {own name : String}
    {before behind text : List Char} {part : Written} {rest : List (List Char × Written)}
    (hown : writtenName text = some own) (hne : own ≠ name) :
    (Written.object before ((text, part) :: rest) behind).member? names name =
      (Written.object before rest behind).member? names name := by
  rw [member?_object_cons, hown, if_neg fun heq => hne (Option.some.inj heq)]

end Written

/-- A numeral stands for an integer or for a double. -/
theorem Numeral.integer_or_float {numeral : Numeral} {value : Value}
    (h : numeral.value? = some value) :
    (∃ integer, value = .integer integer) ∨ ∃ double, value = .float double := by
  unfold value? at h
  dsimp only at h
  split at h
  · cases h
    exact .inl ⟨_, rfl⟩
  · split at h
    · cases h
      exact .inl ⟨_, rfl⟩
    · obtain ⟨double, -, rfl⟩ := Option.map_eq_some_iff.mp h
      exact .inr ⟨double, rfl⟩

namespace Cursor

/-! ### Texts without parts -/

section

variable {room : Nat} {tree : Tree}

/-- What is not wanted is an error. -/
theorem unwanted_ne_ok (wanted : Wanted) (tree : Tree) (result : α) :
    unwanted wanted tree ≠ .ok result := by
  intro h
  unfold unwanted at h
  split at h <;> first | cases h | (split at h <;> cases h)

/-- A list without parts is empty. -/
theorem list_leaf (hleaf : tree.isLeaf = true) {read : Cursor → Result α} {items : List α}
    (h : list read ⟨room, tree⟩ = .ok items) : items = [] := by
  unfold Tree.isLeaf at hleaf
  split at hleaf
  case h_5 =>
    have hempty : list read ⟨room, .list (Written.trees []) none⟩ = .ok items := h
    obtain ⟨_, -, hitems⟩ := list_eq_ok.mp hempty
    exact List.forall₂_nil_left_iff.mp hitems
  case h_7 => cases hleaf
  all_goals simp only [list, unwanted_ne_ok] at h

/-- An object without parts is empty. -/
theorem entries_leaf (hleaf : tree.isLeaf = true) {wanted : Wanted} {read : Cursor → Result α}
    {found : List (String × α)} (h : entries wanted read ⟨room, tree⟩ = .ok found) :
    found = [] := by
  unfold Tree.isLeaf at hleaf
  split at hleaf
  case h_6 =>
    have hempty : entries wanted read ⟨room, .object (Written.memberTrees []) none⟩ = .ok found := h
    obtain ⟨_, -, hfound⟩ := entries_eq_ok.mp hempty
    exact List.forall₂_nil_left_iff.mp hfound
  case h_7 => cases hleaf
  all_goals simp only [entries, unwanted_ne_ok] at h

/-- A value without parts makes no change to a record. -/
theorem record_leaf (hleaf : tree.isLeaf = true) {known : List (Member Cursor Result α)}
    {title : String} {result : List (α → α)} (h : record title known ⟨room, tree⟩ = .ok result) :
    result = [] := by
  unfold Tree.isLeaf at hleaf
  split at hleaf
  case h_5 =>
    have hempty : record title known ⟨room, .list (Written.trees []) none⟩ = .ok result := h
    obtain ⟨_, -, -, hmakes⟩ := record_list.mp hempty
    rw [List.zip_nil_right] at hmakes
    exact List.forall₂_nil_left_iff.mp hmakes
  case h_6 =>
    have hempty : record title known ⟨room, .object (Written.memberTrees []) none⟩ = .ok result := h
    obtain ⟨_, -, outcomes, hmakes, -, rfl⟩ := record_object.mp hempty
    rw [List.forall₂_nil_left_iff.mp hmakes]
    rfl
  case h_7 => cases hleaf
  all_goals simp only [record, unwanted_ne_ok] at h

/-- The value of a text without parts is neither a list nor a map with something in it. -/
theorem content_leaf (hleaf : tree.isLeaf = true) {value : Value}
    (h : content ⟨room, tree⟩ = .ok value) :
    value = .list [] ∨ value = .map [] ∨ value.isCompound = false := by
  -- empty brackets are read as an empty list or map, any other leaf as a scalar
  unfold Tree.isLeaf at hleaf
  split at hleaf
  case h_3 numeral =>
    simp only [content, Cursor.value] at h
    split at h
    · next own hnumber =>
      cases h
      rcases numeral.integer_or_float hnumber with ⟨_, rfl⟩ | ⟨_, rfl⟩ <;> exact .inr (.inr rfl)
    · cases h
  case h_4 text =>
    cases text with
    | none => cases h
    | some text =>
      cases h
      exact .inr (.inr rfl)
  case h_5 =>
    have hempty : Cursor.value room (.list (Written.trees []) none) = .ok value := h
    obtain ⟨_, -, _, hitems, rfl⟩ := value_list.mp hempty
    rw [List.forall₂_nil_left_iff.mp hitems]
    exact .inl rfl
  case h_6 =>
    have hempty : Cursor.value room (.object (Written.memberTrees []) none) = .ok value := h
    obtain ⟨_, -, _, hpairs, rfl⟩ := value_object.mp hempty
    rw [List.forall₂_nil_left_iff.mp hpairs]
    exact .inr (.inl rfl)
  case h_7 => cases hleaf
  all_goals
    cases h
    exact .inr (.inr rfl)

end

/-! ### Records that are read as the text goes -/

/-- The changes that a text makes to a record, each under the name of the member that makes it, come
from the parts that stand for the members. -/
structure Changes (known : List (Member Cursor Result α)) (room : Nat) (text : Written)
    (entries : List (String × (α → α))) : Prop where
  sound : ∀ entry ∈ entries, ∃ own part, known.find? (·.name == entry.1) = some own ∧
    text.member? (known.map (·.name)) entry.1 = some part ∧
    own.read ⟨room, part.tree⟩ = .ok entry.2
  complete : ∀ name own part, known.find? (·.name == name) = some own →
    text.member? (known.map (·.name)) name = some part → name ∈ entries.map (·.1)

variable {known : List (Member Cursor Result α)} {room : Nat}

/-- An object makes the changes of its members, each in the part of the member. -/
theorem changes_object {before behind : List Char} {members : List (List Char × Written)}
    {outcomes : List (Option (String × (α → α)))}
    (hmakes : List.Forall₂ (Makes known room) members outcomes)
    (hdistinct : ((made outcomes).map (·.1)).Nodup) :
    Changes known room (.object before members behind) (made outcomes) := by
  induction hmakes with
  | nil => exact ⟨nofun, nofun⟩
  | @cons member outcome members outcomes hmake hmakes ih =>
    cases hmake with
    | @pass text _ name hname hfind _ =>
      obtain ⟨hsound, hcomplete⟩ := ih hdistinct
      -- no member of the record has the name that is passed over
      have hne {other : String} {own : Member Cursor Result α}
          (hown : known.find? (·.name == other) = some own) : name ≠ other := by
        rintro rfl
        cases hfind.symm.trans hown
      constructor
      · intro entry hentry
        obtain ⟨own, part, hown, hpart, hread⟩ := hsound entry hentry
        exact ⟨own, part, hown, (Written.member?_object_other hname (hne hown)).trans hpart, hread⟩
      · intro other own part hown hpart
        rw [Written.member?_object_other hname (hne hown)] at hpart
        exact hcomplete other own part hown hpart
    | @change text part name own change hname hfind hread =>
      obtain ⟨hnew, hdistinct⟩ := List.nodup_cons.mp hdistinct
      obtain ⟨hsound, hcomplete⟩ := ih hdistinct
      constructor
      · intro entry hentry
        rcases List.mem_cons.mp hentry with rfl | hrest
        · exact ⟨own, part, hfind, by rw [Written.member?_object_cons, if_pos hname], hread⟩
        · obtain ⟨other, held, hother, hheld, hread'⟩ := hsound entry hrest
          have hne : name ≠ entry.1 := by
            rintro rfl
            exact hnew (List.mem_map.mpr ⟨entry, hrest, rfl⟩)
          exact ⟨other, held, hother, (Written.member?_object_other hname hne).trans hheld, hread'⟩
      · intro other own' part' hown hpart
        by_cases hsame : name = other
        · exact hsame ▸ List.mem_cons_self ..
        · rw [Written.member?_object_other hname hsame] at hpart
          exact List.mem_cons_of_mem _ (hcomplete other own' part' hown hpart)

/-- The member at a place is found by its name, as no two have the same one. -/
theorem find?_getElem (hnames : (known.map (·.name)).Nodup) {index : Nat}
    (hindex : index < known.length) :
    known.find? (·.name == known[index].name) = some known[index] := by
  cases hfind : known.find? (·.name == known[index].name) with
  | none =>
    have hne := List.find?_eq_none.mp hfind known[index] (List.getElem_mem hindex)
    exact absurd (beq_self_eq_true _) hne
  | some own =>
    have hname : own.name = known[index].name := by simpa using List.find?_some hfind
    rw [List.inj_on_of_nodup_map hnames (List.mem_of_find?_eq_some hfind)
      (List.getElem_mem hindex) hname]

/-- A list makes the changes of the members at its places. -/
theorem changes_list {before behind : List Char} {elements : List Written}
    {changes : List (α → α)} (hnames : (known.map (·.name)).Nodup)
    (hlength : elements.length ≤ known.length)
    (hmakes : List.Forall₂ (MakesInPlace room) (known.zip elements) changes) :
    Changes known room (.list before elements behind) ((known.map (·.name)).zip changes) := by
  have hchanges : changes.length = elements.length := by
    rw [← hmakes.length_eq, List.length_zip, Nat.min_eq_right hlength]
  have hzip : ((known.map (·.name)).zip changes).length = elements.length := by
    rw [List.length_zip, List.length_map, hchanges, Nat.min_eq_right hlength]
  -- what the element at an index makes belongs to the name at this index
  constructor
  · intro entry hentry
    obtain ⟨index, hindex, rfl⟩ := List.mem_iff_getElem.mp hentry
    have helement : index < elements.length := hzip ▸ hindex
    have hknown : index < known.length := Nat.lt_of_lt_of_le helement hlength
    have hread := hmakes.get (by rwa [List.length_zip, Nat.min_eq_right hlength])
      (by rwa [hchanges])
    simp only [List.get_eq_getElem, List.getElem_zip, List.getElem_map] at hread ⊢
    refine ⟨known[index], elements[index], find?_getElem hnames hknown, ?_, hread⟩
    have hplace : (known.map (·.name)).idxOf known[index].name = index := by
      have hidx := hnames.idxOf_getElem index (by rwa [List.length_map])
      rwa [List.getElem_map] at hidx
    rw [Written.member?, hplace, List.getElem?_eq_getElem helement]
  · intro name own part hown hpart
    obtain ⟨hindex, -⟩ := List.getElem?_eq_some_iff.mp hpart
    have hentry := List.getElem_mem (hzip.symm ▸ hindex)
    refine List.mem_map.mpr ⟨_, hentry, ?_⟩
    rw [List.getElem_zip]
    exact List.getElem_idxOf _

/-- A record is read exactly from the parts that stand for its members. -/
theorem exists_changes (hnames : (known.map (·.name)).Nodup) {title : String} {text : Written}
    (htext : text.WellFormed) {result : List (α → α)}
    (h : record title known ⟨room, text.tree⟩ = .ok result) :
    ∃ inner entries, Changes known inner text entries ∧ result = entries.map (·.2) := by
  cases text with
  | leaf text =>
    have hresult : result = [] := record_leaf htext.isLeaf_tree h
    exact ⟨0, [], ⟨nofun, nofun⟩, hresult⟩
  | list before elements behind =>
    obtain ⟨inner, -, hlength, hmakes⟩ := record_list.mp h
    refine ⟨inner, _, changes_list hnames hlength hmakes, ?_⟩
    rw [List.map_snd_zip]
    rw [← hmakes.length_eq, List.length_zip, List.length_map]
    exact Nat.min_le_left _ _
  | object before members behind =>
    obtain ⟨inner, -, outcomes, hmakes, hdistinct, rfl⟩ := record_object.mp h
    exact ⟨inner, _, changes_object hmakes hdistinct, rfl⟩

/-- A member of a record leaves a field as it is. -/
def Leaves {γ : Type} (own : Member Cursor Result α) (get : α → γ) : Prop :=
  ∀ cursor change, own.read cursor = .ok change → ∀ it, get (change it) = get it

/-- A member has the name that it is made with. -/
@[simp] theorem name_member (name : String) (read : Cursor → Result β) (set : β → α → α) :
    (Source.member name read set).name = name :=
  rfl

/-- A member leaves what its setting leaves. -/
@[simp] theorem leaves_member {γ : Type} {name : String} {read : Cursor → Result β}
    {set : β → α → α} {get : α → γ} (h : ∀ value it, get (set value it) = get it) :
    Leaves (Source.member name read set) get := by
  intro cursor change hread it
  obtain ⟨value, -, rfl⟩ := Result.map_eq_ok.mp hread
  exact h value it

/-- A field of a record: only the member of the given name sets it. -/
structure Field (known : List (Member Cursor Result α)) (name : String) (get : α → β)
    (read : Cursor → Result β) : Prop where
  sets : ∃ set, known.find? (·.name == name) = some (Source.member name read set) ∧
    ∀ value it, get (set value it) = value
  keeps : ∀ own ∈ known, own.name ≠ name → Leaves own get

variable {name : String} {get : α → β} {read : Cursor → Result β}

/-- After some changes a field has the value that one of them sets, or that of the start. -/
theorem get_foldl (entries : List (String × (α → α)))
    (hkeeps : ∀ entry ∈ entries, entry.1 ≠ name → ∀ it, get (entry.2 it) = get it)
    (hsets : ∀ entry ∈ entries, entry.1 = name → ∃ value, ∀ it, get (entry.2 it) = value)
    (start : α) :
    let it := (entries.map (·.2)).foldl (fun it change => change it) start
    (name ∉ entries.map (·.1) ∧ get it = get start) ∨
      ∃ entry ∈ entries, entry.1 = name ∧ ∀ other, get it = get (entry.2 other) := by
  induction entries generalizing start with
  | nil => exact .inl ⟨nofun, rfl⟩
  | cons entry rest ih =>
    obtain ⟨hkeep, hkeeps⟩ := List.forall_mem_cons.mp hkeeps
    obtain ⟨hset, hsets⟩ := List.forall_mem_cons.mp hsets
    rcases ih hkeeps hsets (entry.2 start) with ⟨hrest, hget⟩ | ⟨other, hother, hname, hget⟩
    · by_cases hname : entry.1 = name
      · obtain ⟨value, hvalue⟩ := hset hname
        refine .inr ⟨entry, List.mem_cons_self .., hname, fun other => ?_⟩
        exact hget.trans ((hvalue start).trans (hvalue other).symm)
      · refine .inl ⟨?_, hget.trans (hkeep hname start)⟩
        rw [List.map_cons, List.mem_cons, not_or]
        exact ⟨fun heq => hname heq.symm, hrest⟩
    · exact .inr ⟨other, List.mem_cons_of_mem _ hother, hname, hget⟩

/-- A field of a record is read from the part that stands for its member. Where there is no such
part, it has its default value. -/
theorem Field.get_eq (h : Field known name get read) (hnames : (known.map (·.name)).Nodup)
    {start : α} {title : String} {text : Written} (htext : text.WellFormed) {it : α}
    (hread : Source.recordFrom start title known ⟨room, text.tree⟩ = (.ok it : Result α)) :
    match text.member? (known.map (·.name)) name with
    | none => get it = get start
    | some part => ∃ inner, read ⟨inner, part.tree⟩ = .ok (get it) := by
  obtain ⟨set, hfind, hget⟩ := h.sets
  obtain ⟨_, hrecord, rfl⟩ := Result.map_eq_ok.mp hread
  obtain ⟨inner, entries, ⟨hsound, hcomplete⟩, rfl⟩ := exists_changes hnames htext hrecord
  -- changes under the name set what was read, and all others leave it alone
  have hown (entry : String × (α → α)) (hentry : entry ∈ entries) (hname : entry.1 = name) :
      ∃ part value, text.member? (known.map (·.name)) name = some part ∧
        read ⟨inner, part.tree⟩ = .ok value ∧ ∀ it, get (entry.2 it) = value := by
    obtain ⟨own, part, hown, hpart, hread⟩ := hsound entry hentry
    rw [hname] at hown hpart
    cases hfind.symm.trans hown
    obtain ⟨value, hvalue, hchange⟩ := Result.map_eq_ok.mp hread
    exact ⟨part, value, hpart, hvalue, fun it => by rw [← hchange, hget]⟩
  have hkeeps (entry : String × (α → α)) (hentry : entry ∈ entries) (hname : entry.1 ≠ name)
      (it : α) : get (entry.2 it) = get it := by
    obtain ⟨own, part, hown, -, hread⟩ := hsound entry hentry
    have hownName : own.name = entry.1 := by simpa using List.find?_some hown
    exact h.keeps own (List.mem_of_find?_eq_some hown) (hownName ▸ hname) _ _ hread it
  have hsets (entry : String × (α → α)) (hentry : entry ∈ entries) (hname : entry.1 = name) :
      ∃ value, ∀ it, get (entry.2 it) = value := by
    obtain ⟨_, value, -, -, hvalue⟩ := hown entry hentry hname
    exact ⟨value, hvalue⟩
  rcases get_foldl entries hkeeps hsets start with ⟨hnone, hstart⟩ | ⟨entry, hentry, hname, hvalue⟩
  · split
    · exact hstart
    · next part hpart => exact absurd (hcomplete name _ part hfind hpart) hnone
  · obtain ⟨part, value, hpart, hread, hget⟩ := hown entry hentry hname
    rw [hpart]
    exact ⟨inner, by rw [hread, hvalue start, hget]⟩

/-! ### Values that are read to their end -/

/-- What stands in a list for a name is found at the place of the name. -/
theorem lookup_zip {names : List String} {items : List α} (hname : name ∈ names) :
    (names.zip items).lookup name = items[names.idxOf name]? := by
  induction names generalizing items with
  | nil => cases hname
  | cons own rest ih =>
    cases items with
    | nil => rfl
    | cons item items =>
      rw [List.zip_cons_cons, lookup_cons_eq]
      by_cases hsame : name = own
      · rw [if_pos hsame, hsame, List.idxOf_cons_self]
        rfl
      · have hrest : name ∈ rest := (List.mem_cons.mp hname).resolve_left hsame
        rw [if_neg hsame, ih hrest, List.idxOf_cons_ne _ (Ne.symm hsame)]
        rfl

/-- Members that are not known stand in nobody's way. -/
theorem lookup_filter {names : List String} {pairs : List (String × α)} (hname : name ∈ names) :
    (pairs.filter fun pair => names.contains pair.1).lookup name = pairs.lookup name := by
  induction pairs with
  | nil => rfl
  | cons pair rest ih =>
    obtain ⟨own, value⟩ := pair
    rw [List.filter_cons, lookup_cons_eq]
    by_cases hsame : name = own
    · subst hsame
      rw [if_pos (by simpa using hname), lookup_cons_eq]
      simp
    · rw [if_neg hsame]
      split
      · rw [lookup_cons_eq, if_neg hsame, ih]
      · exact ih

/-- The fields of an object are its known members. -/
theorem fields?_ofPairs {names : List String} {pairs : List (String × Value)}
    {fields : Value.Fields} (h : (Value.ofPairs pairs).fields? names = some fields) :
    fields = pairs.filter fun pair => names.contains pair.1 := by
  have hfield : (fun pair : String × Value => Value.field? names (.text pair.1, pair.2)) =
      fun pair => some (if names.contains pair.1 then some pair else none) := by
    funext pair
    rw [Value.field?, Value.memberName?]
    split <;> rfl
  have hfound : pairs.mapM (fun pair => some (if names.contains pair.1 then some pair else none)) =
      some (pairs.map fun pair => if names.contains pair.1 then some pair else none) :=
    List.mapM_pure
  rw [Value.ofPairs, Value.fields?, List.mapM_map, Function.comp_def, hfield, hfound,
    Option.bind_eq_bind, Option.bind_some] at h
  dsimp only at h
  split at h
  · cases h
    rw [List.filterMap_map, ← List.filterMap_eq_filter]
    rfl
  · cases h

/-- Of the elements that stand for fields, the one in the place of the name is the field. -/
theorem lookup_zip_elements {names : List String} (hname : name ∈ names)
    {before behind : List Char} {elements : List Written} {items : List Value}
    (hitems : List.Forall₂ (ReadsElement content room) elements items) :
    match (Written.list before elements behind).member? names name with
    | none => (names.zip items).lookup name = none
    | some part => ∃ inner field, content ⟨inner, part.tree⟩ = .ok field ∧
        (names.zip items).lookup name = some field := by
  rw [lookup_zip hname, Written.member?]
  cases helement : elements[names.idxOf name]? with
  | none =>
    rw [List.getElem?_eq_none_iff, hitems.length_eq] at helement
    exact List.getElem?_eq_none helement
  | some part =>
    obtain ⟨hindex, rfl⟩ := List.getElem?_eq_some_iff.mp helement
    have hitem : names.idxOf name < items.length := hitems.length_eq ▸ hindex
    exact ⟨room, _, hitems.get hindex hitem, List.getElem?_eq_getElem hitem⟩

/-- Of the members of an object, the first one under the name is the field. -/
theorem lookup_members {names : List String} {before behind : List Char}
    {members : List (List Char × Written)} {pairs : List (String × Value)}
    (hpairs : List.Forall₂ (ReadsMember content room) members pairs) :
    match (Written.object before members behind).member? names name with
    | none => pairs.lookup name = none
    | some part => ∃ inner field, content ⟨inner, part.tree⟩ = .ok field ∧
        pairs.lookup name = some field := by
  induction hpairs with
  | nil => rfl
  | @cons member pair members pairs hpair hpairs ih =>
    obtain ⟨text, part⟩ := member
    obtain ⟨own, held⟩ := pair
    obtain ⟨hown, hheld⟩ := hpair
    rw [lookup_cons_eq]
    by_cases hsame : name = own
    · rw [Written.member?_object_cons, if_pos hsame, if_pos (hsame ▸ hown)]
      exact ⟨room, held, hheld, rfl⟩
    · rw [Written.member?_object_other hown (Ne.symm hsame), if_neg hsame]
      exact ih

/-- A field of a value that is read to its end is the value of the part that stands for the member.
Where there is no such part, there is no such field. -/
theorem lookup_fields? {names : List String} (hname : name ∈ names) {text : Written}
    (htext : text.WellFormed) {value : Value} (hvalue : content ⟨room, text.tree⟩ = .ok value)
    {fields : Value.Fields} (h : value.fields? names = some fields) :
    match text.member? names name with
    | none => fields.lookup name = none
    | some part => ∃ inner field, content ⟨inner, part.tree⟩ = .ok field ∧
        fields.lookup name = some field := by
  -- a list gives its elements to the names in order, and an object has them by key
  cases text with
  | leaf text =>
    have hnone : fields = [] := by
      rcases content_leaf htext.isLeaf_tree hvalue with rfl | rfl | hscalar
      · rw [Value.fields?, List.zip_nil_right] at h
        exact (Option.some.inj h).symm
      · exact fields?_ofPairs (show (Value.ofPairs []).fields? names = some fields from h)
      · cases value <;> first | cases h | cases hscalar
    rw [hnone]
    rfl
  | list before elements behind =>
    obtain ⟨inner, -, items, hitems, rfl⟩ := value_list.mp hvalue
    have hfields : fields = names.zip items := by
      rw [Value.fields?] at h
      split at h
      · exact (Option.some.inj h).symm
      · cases h
    rw [hfields]
    exact lookup_zip_elements hname hitems
  | object before members behind =>
    obtain ⟨inner, -, pairs, hpairs, rfl⟩ := value_object.mp hvalue
    rw [fields?_ofPairs h, lookup_filter hname]
    exact lookup_members hpairs

end Cursor

end Protoscribe.Json
