import Mathlib.Data.List.Nodup
import Protoscribe.Proofs.Link.FinishedFields

/-!
# `Protoscribe.Proofs.Draft.Addresses`: the paths of what is drafted

A comment is stored under the path of the element that it stands above. A path goes down from the
file and names, step by step, a list by its tag and a place in the list by its index. Here the paths
are taken apart from the comments: `FileDraft.parts` lists everything that is drafted for a file
with its path, and `FileDraft.partAt` goes down a path. The comments are stored under the paths of
the parts (`FileDraft.locations_eq`).

An index is a number of 32 bits, and all places beyond the largest one share it. So the parts have
paths of their own exactly when no list is longer than there are indices
(`FileDraft.nodup_parts_iff`), and then a path leads to the part that it belongs to
(`FileDraft.mem_parts_iff`).
-/

set_option autoImplicit false

namespace Protoscribe

/-- Something in a file that has a path of its own. -/
inductive Part where
  | package (name : String) (comment : Option String)
  | message (draft : MessageDraft)
  | finished (descriptor : MessageDescriptor)
  | field (draft : FieldDraft)
  | enum (draft : EnumDraft)
  | service (draft : ServiceDraft)
  | method (draft : MethodDraft)

/-- The comment of a part. A finished message has none. -/
def Part.comment : Part → Option String
  | .package _ comment => comment
  | .message draft => draft.comment
  | .finished _ => none
  | .field draft => draft.comment
  | .enum draft => draft.comment
  | .service draft => draft.comment
  | .method draft => draft.comment

namespace Address

/-! ### Indices -/

section

variable {α : Type} {items : List α}

/-- The item with a 32-bit index. -/
def item? (items : List α) (index : Int32) : Option α :=
  if index < 0 then none else items[index.toNatClampNeg]?

/-- As long as there are indices, a place can be read off its index. -/
theorem toNatClampNeg_position {index : Nat} (h : index < 2 ^ 31) :
    (Draft.position index).toNatClampNeg = index := by
  rw [Int32.toNatClampNeg, Draft.toInt_position h, Int.toNat_natCast]

/-- As long as there are indices, the index of a place leads to the item there. -/
theorem item?_position {index : Nat} (h : index < 2 ^ 31) :
    item? items (Draft.position index) = items[index]? := by
  have hsign : ¬ Draft.position index < 0 := by
    rw [Int32.lt_iff_toInt_lt, Draft.toInt_position h]
    simp
  rw [item?, if_neg hsign, toNatClampNeg_position h]

/-- An index leads to what is built of the item that it leads to. -/
theorem item?_map {β : Type} (build : α → β) (items : List α) (index : Int32) :
    item? (items.map build) index = (item? items index).map build := by
  unfold item?
  split
  · rfl
  · exact List.getElem?_map ..

/-- What an index leads to has that index. -/
theorem exists_of_item? {index : Int32} {a : α} (h : item? items index = some a) :
    ∃ place < 2 ^ 31, items[place]? = some a ∧ Draft.position place = index := by
  unfold item? at h
  split at h
  · cases h
  · next hsign =>
    have hnonneg : 0 ≤ index.toInt := by simpa [Int32.lt_iff_toInt_lt] using hsign
    have hlt : index.toNatClampNeg < 2 ^ 31 := by
      have := index.toInt_lt
      rw [Int32.toNatClampNeg]
      omega
    refine ⟨_, hlt, h, ?_⟩
    rw [← Int32.toInt_inj, Draft.toInt_position hlt, Int32.toNatClampNeg,
      Int.toNat_of_nonneg hnonneg]

end

/-! ### Paths below a list -/

section

variable {α β : Type} {tag : Int32}

/-- What is below the items of a list with a tag, where each item brings what is below it. -/
def below (tag : Int32) (items : List (List (List Int32 × α))) : List (List Int32 × α) :=
  (items.mapIdx fun index parts =>
    parts.map fun part => (tag :: Draft.position index :: part.1, part.2)).flatten

/-- The paths below a tag go on with the place of an item and then with a path inside it. -/
theorem mem_below {items : List (List (List Int32 × α))} {path : List Int32} {a : α} :
    (path, a) ∈ below tag items ↔ ∃ index parts rest, items[index]? = some parts ∧
      (rest, a) ∈ parts ∧ path = tag :: Draft.position index :: rest := by
  simp only [below, List.mem_flatten, List.mem_mapIdx]
  constructor
  · rintro ⟨_, ⟨index, hindex, rfl⟩, hmem⟩
    obtain ⟨⟨rest, _⟩, hrest, heq⟩ := List.mem_map.mp hmem
    obtain ⟨rfl, rfl⟩ := Prod.mk.inj heq
    exact ⟨index, _, rest, List.getElem?_eq_getElem hindex, hrest, rfl⟩
  · rintro ⟨index, parts, rest, hparts, hrest, rfl⟩
    obtain ⟨hindex, rfl⟩ := List.getElem?_eq_some_iff.mp hparts
    exact ⟨_, ⟨index, hindex, rfl⟩, List.mem_map.mpr ⟨(rest, a), hrest, rfl⟩⟩

/-- As long as there are indices, different places have different ones. -/
theorem position_inj {index other : Nat} (h : index < 2 ^ 31) (hother : other < 2 ^ 31)
    (heq : Draft.position index = Draft.position other) : index = other := by
  rw [← toNatClampNeg_position h, heq, toNatClampNeg_position hother]

/-- The paths below a tag, item by item. -/
theorem map_fst_below (items : List (List (List Int32 × α))) :
    (below tag items).map Prod.fst = (items.mapIdx fun index parts =>
      (parts.map Prod.fst).map fun rest => tag :: Draft.position index :: rest).flatten := by
  rw [below, List.map_flatten]
  refine congrArg List.flatten (List.ext_getElem? fun index => ?_)
  simp [Function.comp_def]

/-- The paths below a list differ exactly when there is an index for each item, and they differ
below each item. An item has a path of its own. -/
theorem nodup_below_iff {items : List (List (List Int32 × α))}
    (hroot : ∀ parts ∈ items, [] ∈ parts.map Prod.fst) :
    ((below tag items).map Prod.fst).Nodup ↔
      items.length ≤ 2 ^ 31 ∧ ∀ parts ∈ items, (parts.map Prod.fst).Nodup := by
  have hinjective : ∀ index, Function.Injective
      fun rest : List Int32 => tag :: Draft.position index :: rest := by
    intro index rest other heq
    simpa using heq
  rw [map_fst_below, List.nodup_flatten, List.pairwise_iff_getElem]
  simp only [List.length_mapIdx, List.getElem_mapIdx, List.forall_mem_iff_getElem,
    List.nodup_map_iff (hinjective _)]
  constructor
  · rintro ⟨hitems, hdisjoint⟩
    refine ⟨Nat.not_lt.mp fun hlong => ?_, hitems⟩
    -- the items behind the largest index share it
    refine hdisjoint (2 ^ 31 - 1) (2 ^ 31) (by omega) hlong (by omega)
      (List.mem_map_of_mem (hroot _ (List.getElem_mem _))) ?_
    exact List.mem_map_of_mem (hroot _ (List.getElem_mem _))
  · rintro ⟨hlength, hitems⟩
    refine ⟨hitems, fun i j hi hj hlt => ?_⟩
    -- a path below two of the items would have the indices of both
    rintro path hpath hother
    obtain ⟨rest, -, rfl⟩ := List.mem_map.mp hpath
    obtain ⟨other, -, heq⟩ := List.mem_map.mp hother
    have hsame := position_inj (by omega) (by omega) (List.cons.inj (List.cons.inj heq).2).1
    omega

/-- A path below a tag has the tag and an index at least. -/
theorem exists_of_mem_below {items : List (List (List Int32 × α))} {path : List Int32}
    (h : path ∈ (below tag items).map Prod.fst) :
    ∃ index rest, path = tag :: index :: rest := by
  obtain ⟨⟨_, a⟩, hmem, rfl⟩ := List.mem_map.mp h
  obtain ⟨_, _, _, -, -, rfl⟩ := mem_below.mp hmem
  exact ⟨_, _, rfl⟩

/-- No path below a tag is shorter than that. -/
theorem not_mem_below_of_length {path : List Int32} (h : path.length < 2)
    (tag : Int32) (items : List (List (List Int32 × α))) :
    path ∉ (below tag items).map Prod.fst := by
  intro hmem
  obtain ⟨_, _, rfl⟩ := exists_of_mem_below hmem
  exact absurd h (by simp)

/-- Paths below lists with different tags differ. -/
theorem disjoint_below {other : Int32} (htag : tag ≠ other)
    (items others : List (List (List Int32 × α))) :
    List.Disjoint ((below tag items).map Prod.fst) ((below other others).map Prod.fst) := by
  intro path hpath hother
  obtain ⟨_, _, rfl⟩ := exists_of_mem_below hpath
  obtain ⟨_, _, heq⟩ := exists_of_mem_below hother
  exact htag (List.cons.inj heq).1

/-- Below lists with different tags, paths differ when they do below each of the lists. -/
theorem nodup_cons_below_iff {second third : Int32} (hsecond : tag ≠ second) (hthird : tag ≠ third)
    (hlast : second ≠ third) {root : List Int32} (hroot : root.length < 2) (a : α)
    (items others lasts : List (List (List Int32 × α))) :
    (((root, a) :: (below tag items ++ below second others ++ below third lasts)).map
      Prod.fst).Nodup ↔
      ((below tag items).map Prod.fst).Nodup ∧ ((below second others).map Prod.fst).Nodup ∧
        ((below third lasts).map Prod.fst).Nodup := by
  rw [List.map_cons, List.nodup_cons, List.map_append, List.map_append, List.nodup_append',
    List.nodup_append']
  simp only [List.mem_append, not_mem_below_of_length hroot, List.disjoint_append_left,
    disjoint_below hsecond, disjoint_below hthird, disjoint_below hlast]
  simp only [or_self, not_false_eq_true, true_and, and_true, and_assoc]

/-- Items without parts have paths of their own as long as there are indices. -/
theorem nodup_leaves_iff (items : List β) (wrap : β → α) :
    ((below tag (items.map fun item => [([], wrap item)])).map Prod.fst).Nodup ↔
      items.length ≤ 2 ^ 31 := by
  rw [nodup_below_iff (by simp)]
  simp

/-- What is stored for the parts below a tag, item by item. -/
theorem flatMap_below (items : List (List (List Int32 × α)))
    (store : List Int32 × α → List β) :
    (below tag items).flatMap store = (items.mapIdx fun index parts =>
      parts.flatMap fun part => store (tag :: Draft.position index :: part.1, part.2)).flatten := by
  rw [below, List.flatMap_def, List.map_flatten, List.flatten_flatten, List.map_map]
  refine congrArg List.flatten (List.ext_getElem? fun index => ?_)
  simp [List.flatMap_def, Function.comp_def]

/-- What is stored for built items is what is stored for the items, if it is so for each. -/
theorem flatten_mapIdx_map {γ : Type} {items : List α} {build : α → γ} {store : Nat → γ → List β}
    {other : Nat → α → List β}
    (h : ∀ index, ∀ item ∈ items, store index (build item) = other index item) :
    ((items.map build).mapIdx store).flatten = (items.mapIdx other).flatten := by
  refine congrArg List.flatten (List.ext_getElem? fun index => ?_)
  simp only [List.getElem?_mapIdx, List.getElem?_map, Option.map_map]
  exact Option.map_congr fun item hitem => h index item (List.mem_of_getElem? hitem)

/-- What is stored for items without parts, one by one. -/
theorem flatMap_leaves {γ : Type} {items : List γ} {wrap : γ → α}
    {store : List Int32 × α → List β} {other : Nat → γ → List β}
    (h : ∀ index item, store ([tag, Draft.position index], wrap item) = other index item) :
    (below tag (items.map fun item => [([], wrap item)])).flatMap store =
      (items.mapIdx other).flatten := by
  rw [flatMap_below]
  refine flatten_mapIdx_map fun index item _ => ?_
  rw [List.flatMap_singleton, h]

/-- Where each item knows what its paths lead to, the list does too. -/
theorem mem_below_map_iff {items : List β} {parts : β → List (List Int32 × α)}
    {partAt : β → List Int32 → Option α} (hlength : items.length ≤ 2 ^ 31)
    (hitems : ∀ item ∈ items, ∀ rest a, (rest, a) ∈ parts item ↔ partAt item rest = some a)
    {path : List Int32} {a : α} :
    (path, a) ∈ below tag (items.map parts) ↔ ∃ index rest, path = tag :: index :: rest ∧
      ((item? items index).bind fun item => partAt item rest) = some a := by
  rw [mem_below]
  constructor
  · rintro ⟨place, _, rest, hplace, hmem, rfl⟩
    rw [List.getElem?_map, Option.map_eq_some_iff] at hplace
    obtain ⟨item, hitem, rfl⟩ := hplace
    have hlt : place < 2 ^ 31 :=
      Nat.lt_of_lt_of_le (List.getElem?_eq_some_iff.mp hitem).1 hlength
    refine ⟨_, rest, rfl, ?_⟩
    rw [item?_position hlt, hitem, Option.bind_some]
    exact (hitems item (List.mem_of_getElem? hitem) rest a).mp hmem
  · rintro ⟨index, rest, rfl, hfound⟩
    obtain ⟨item, hitem, hpart⟩ := Option.bind_eq_some_iff.mp hfound
    obtain ⟨place, -, hplace, rfl⟩ := exists_of_item? hitem
    refine ⟨place, parts item, rest, by rw [List.getElem?_map, hplace]; rfl, ?_, rfl⟩
    exact (hitems item (List.mem_of_getElem? hplace) rest a).mpr hpart

end

/-- A path with two steps or more starts with a tag and an index. -/
theorem exists_path_iff {tag index other : Int32} {rest : List Int32}
    {P : Int32 → List Int32 → Prop} :
    (∃ index' rest', other :: index :: rest = tag :: index' :: rest' ∧ P index' rest') ↔
      other = tag ∧ P index rest := by
  constructor
  · rintro ⟨_, _, heq, h⟩
    cases heq
    exact ⟨rfl, h⟩
  · rintro ⟨rfl, h⟩
    exact ⟨_, _, rfl, h⟩

/-- Where a path leads from something that has nothing below it. -/
def leafAt {α : Type} (leaf : α) : List Int32 → Option α
  | [] => some leaf
  | _ :: _ => none

/-- Only the empty path leads to a leaf. -/
theorem leafAt_eq_some_iff {α : Type} {leaf found : α} {path : List Int32} :
    leafAt leaf path = some found ↔ path = [] ∧ leaf = found := by
  cases path <;> simp [leafAt]

/-- The one part of a leaf is where its path leads. -/
theorem mem_leaf_iff {α : Type} {leaf found : α} {path : List Int32} :
    (path, found) ∈ [([], leaf)] ↔ leafAt leaf path = some found := by
  rw [leafAt_eq_some_iff, List.mem_singleton, Prod.mk.injEq, @eq_comm _ found]

end Address

open Address

/-! ### Messages -/

namespace MessageDraft

mutual

/-- A message and all parts in it, with their paths from the message. -/
def parts : MessageDraft → List (List Int32 × Part)
  | ⟨name, comment, numbered, messages, enums, oneofs, takenFields, takenTypes, wrapper⟩ =>
    -- the tags are those of fields, nested messages and nested enums
    ([], .message
      ⟨name, comment, numbered, messages, enums, oneofs, takenFields, takenTypes, wrapper⟩) ::
      (below 2 ((numbered.map (·.2)).map fun field => [([], .field field)]) ++
        below 3 (partsAll messages) ++
        below 4 (enums.map fun nested => [([], .enum nested)]))

/-- The parts of each message of a list. -/
def partsAll : List MessageDraft → List (List (List Int32 × Part))
  | [] => []
  | draft :: rest => parts draft :: partsAll rest

end

/-- The parts of several messages, message by message. -/
theorem partsAll_eq_map (drafts : List MessageDraft) : partsAll drafts = drafts.map parts := by
  induction drafts with
  | nil => rfl
  | cons draft rest ih => rw [partsAll, ih, List.map_cons]

/-- A message has itself, its fields, the parts of its messages and its enums. -/
theorem parts_eq (draft : MessageDraft) :
    draft.parts = ([], .message draft) ::
      (below 2 (draft.fields.map fun field => [([], .field field)]) ++
        below 3 (draft.messages.map parts) ++
        below 4 (draft.enums.map fun nested => [([], .enum nested)])) := by
  cases draft
  rw [parts, partsAll_eq_map]
  rfl

mutual

/-- What holds for a message when it holds for the messages nested in it, holds for all. -/
theorem induction_nested {P : MessageDraft → Prop}
    (step : ∀ draft, (∀ nested ∈ draft.messages, P nested) → P draft) :
    ∀ draft : MessageDraft, P draft
  | ⟨_, _, _, messages, _, _, _, _, _⟩ => step _ (induction_nestedAll step messages)

/-- The induction over nested messages, for a list of them. -/
theorem induction_nestedAll {P : MessageDraft → Prop}
    (step : ∀ draft, (∀ nested ∈ draft.messages, P nested) → P draft) :
    ∀ drafts : List MessageDraft, ∀ nested ∈ drafts, P nested
  | [] => fun _ hnested => nomatch hnested
  | draft :: rest =>
    List.forall_mem_cons.mpr ⟨induction_nested step draft, induction_nestedAll step rest⟩

end

/-- Where a path leads from a message. -/
def partAt (draft : MessageDraft) : List Int32 → Option Part
  | [] => some (.message draft)
  | [_] => none
  | tag :: index :: rest =>
    if tag = 2 then (item? draft.fields index).bind fun field => leafAt (.field field) rest
    else if tag = 3 then (item? draft.messages index).bind fun nested => nested.partAt rest
    else if tag = 4 then (item? draft.enums index).bind fun nested => leafAt (.enum nested) rest
    else none

/-- Tag 2 leads to a field. -/
theorem partAt_field (draft : MessageDraft) (index : Int32) (rest : List Int32) :
    draft.partAt (2 :: index :: rest) =
      (item? draft.fields index).bind fun field => leafAt (.field field) rest := by
  rw [partAt, if_pos rfl]

/-- Tag 3 leads into a nested message. -/
theorem partAt_message (draft : MessageDraft) (index : Int32) (rest : List Int32) :
    draft.partAt (3 :: index :: rest) =
      (item? draft.messages index).bind fun nested => nested.partAt rest := by
  rw [partAt, if_neg (by decide), if_pos rfl]

/-- Tag 4 leads to a nested enum. -/
theorem partAt_enum (draft : MessageDraft) (index : Int32) (rest : List Int32) :
    draft.partAt (4 :: index :: rest) =
      (item? draft.enums index).bind fun nested => leafAt (.enum nested) rest := by
  rw [partAt, if_neg (by decide), if_neg (by decide), if_pos rfl]

/-- In a message and in all messages nested in it, there is an index for each element. -/
inductive Fits : MessageDraft → Prop
  | intro {draft : MessageDraft} (fields : draft.fields.length ≤ 2 ^ 31)
      (messages : draft.messages.length ≤ 2 ^ 31) (enums : draft.enums.length ≤ 2 ^ 31)
      (nested : ∀ nested ∈ draft.messages, Fits nested) : Fits draft

/-- The message itself stands at the empty path. -/
theorem root_mem_parts (draft : MessageDraft) : [] ∈ draft.parts.map Prod.fst := by
  rw [parts_eq]
  exact List.mem_cons_self ..

/-- The parts of a message have paths of their own exactly when there are indices for all of them.
-/
theorem nodup_parts_iff (draft : MessageDraft) :
    (draft.parts.map Prod.fst).Nodup ↔ draft.Fits := by
  induction draft using induction_nested with
  | step draft ih =>
    have hnested : ((below 3 (draft.messages.map parts)).map Prod.fst).Nodup ↔
        draft.messages.length ≤ 2 ^ 31 ∧ ∀ nested ∈ draft.messages, nested.Fits := by
      rw [nodup_below_iff (List.forall_mem_map.mpr fun nested _ => nested.root_mem_parts),
        List.length_map, List.forall_mem_map]
      exact and_congr_right' (forall₂_congr ih)
    rw [parts_eq, nodup_cons_below_iff (by decide) (by decide) (by decide) (by decide),
      nodup_leaves_iff, hnested, nodup_leaves_iff]
    constructor
    · rintro ⟨hfields, ⟨hmessages, hall⟩, henums⟩
      exact .intro hfields hmessages henums hall
    · rintro ⟨hfields, hmessages, henums, hall⟩
      exact ⟨hfields, ⟨hmessages, hall⟩, henums⟩

/-- A path leads to the part that it belongs to, and to no other one. -/
theorem mem_parts_iff {draft : MessageDraft} (h : draft.Fits) {path : List Int32} {part : Part} :
    (path, part) ∈ draft.parts ↔ draft.partAt path = some part := by
  induction h generalizing path part with
  | @intro draft fields messages enums nested ih =>
    rw [parts_eq, List.mem_cons, List.mem_append, List.mem_append,
      mem_below_map_iff fields fun _ _ _ _ => mem_leaf_iff,
      mem_below_map_iff messages fun nested hnested _ _ => ih nested hnested,
      mem_below_map_iff enums fun _ _ _ _ => mem_leaf_iff]
    -- by the tag of the list and the index in it
    cases path with
    | nil =>
      simp only [partAt, Prod.mk.injEq, true_and, reduceCtorEq, false_and, exists_false, or_false,
        Option.some.injEq]
      exact eq_comm
    | cons tag path =>
      cases path with
      | nil => simp [partAt]
      | cons index rest =>
        rw [exists_path_iff, exists_path_iff, exists_path_iff, partAt]
        by_cases hfields : tag = 2
        · simp [hfields]
        · by_cases hmessages : tag = 3
          · simp [hmessages]
          · by_cases henums : tag = 4
            · simp [henums]
            · simp [hfields, hmessages, henums]

/-- The comments of nested messages are stored message by message, under the place of each. -/
theorem locationsFrom_eq (path : List Int32) (start : Nat) (drafts : List MessageDraft) :
    locationsFrom path start drafts = (drafts.mapIdx fun index draft =>
      draft.locations (Draft.pathBelow path 3 (start + index))).flatten := by
  induction drafts generalizing start with
  | nil => rfl
  | cons draft rest ih =>
    rw [locationsFrom, ih, List.mapIdx_cons, List.flatten_cons]
    simp only [Nat.add_zero, Nat.add_assoc, Nat.add_comm 1]

/-- The comments in a message are stored under the paths of its parts. -/
theorem locations_eq (draft : MessageDraft) (path : List Int32) :
    draft.locations path =
      draft.parts.flatMap fun part => Draft.located (path ++ part.1) part.2.comment := by
  induction draft using induction_nested generalizing path with
  | step draft ih =>
    have hnested : ∀ index, ∀ nested ∈ draft.messages,
        (nested.parts.flatMap fun part => Draft.located
          (path ++ 3 :: Draft.position index :: part.1) part.2.comment) =
        nested.locations (Draft.pathBelow path 3 (0 + index)) := by
      intro index nested hnested
      rw [ih nested hnested, Nat.zero_add]
      simp [Draft.pathBelow]
    rw [parts_eq, List.flatMap_cons, List.flatMap_append, List.flatMap_append,
      flatMap_leaves fun _ _ => rfl, flatMap_below, flatten_mapIdx_map hnested,
      flatMap_leaves fun _ _ => rfl]
    cases draft
    rw [locations, locationsFrom_eq]
    simp [Part.comment, Draft.pathBelow, EnumDraft.locations]

end MessageDraft

/-! ### Services -/

namespace ServiceDraft

/-- A service and its methods, with their paths from the service. -/
def parts (draft : ServiceDraft) : List (List Int32 × Part) :=
  ([], .service draft) :: below 2 (draft.methods.map fun method => [([], .method method)])

/-- Where a path leads from a service. -/
def partAt (draft : ServiceDraft) : List Int32 → Option Part
  | [] => some (.service draft)
  | [_] => none
  | tag :: index :: rest =>
    if tag = 2 then (item? draft.methods index).bind fun method => leafAt (.method method) rest
    else none

/-- Tag 2 of a service leads to a method. -/
theorem partAt_method (draft : ServiceDraft) (index : Int32) (rest : List Int32) :
    draft.partAt (2 :: index :: rest) =
      (item? draft.methods index).bind fun method => leafAt (.method method) rest := by
  rw [partAt, if_pos rfl]

/-- There is an index for each method of the service. -/
def Fits (draft : ServiceDraft) : Prop :=
  draft.methods.length ≤ 2 ^ 31

/-- The parts of a service have paths of their own exactly when there are indices for its
methods. -/
theorem nodup_parts_iff (draft : ServiceDraft) :
    (draft.parts.map Prod.fst).Nodup ↔ draft.Fits := by
  have hroot : ([] : List Int32).length < 2 := by decide
  rw [parts, List.map_cons, List.nodup_cons, nodup_leaves_iff]
  exact and_iff_right (not_mem_below_of_length hroot _ _)

/-- If there are, a path leads to the part that it belongs to. -/
theorem mem_parts_iff {draft : ServiceDraft} (h : draft.Fits) {path : List Int32} {part : Part} :
    (path, part) ∈ draft.parts ↔ draft.partAt path = some part := by
  rw [parts, List.mem_cons, mem_below_map_iff h fun _ _ _ _ => mem_leaf_iff]
  cases path with
  | nil =>
    simp only [partAt, Prod.mk.injEq, true_and, reduceCtorEq, false_and, exists_false, or_false,
      Option.some.injEq]
    exact eq_comm
  | cons tag path =>
    cases path with
    | nil => simp [partAt]
    | cons index rest =>
      rw [exists_path_iff, partAt]
      by_cases htag : tag = 2 <;> simp [htag]

/-- The comments of a service are stored under the paths of its parts. -/
theorem locations_eq (draft : ServiceDraft) (path : List Int32) :
    draft.locations path =
      draft.parts.flatMap fun part => Draft.located (path ++ part.1) part.2.comment := by
  rw [parts, List.flatMap_cons, flatMap_leaves fun _ _ => rfl, locations]
  simp [Part.comment, Draft.pathBelow]

end ServiceDraft

/-! ### Files -/

namespace FileMessage

/-- What is drafted of a message of the file. The inside of a finished message is not. -/
def parts : FileMessage → List (List Int32 × Part)
  | .drafted draft => draft.parts
  | .finished descriptor => [([], .finished descriptor)]

/-- Where a path leads from a message of the file. -/
def partAt : FileMessage → List Int32 → Option Part
  | .drafted draft, path => draft.partAt path
  | .finished descriptor, path => leafAt (.finished descriptor) path

/-- There is an index for each element of the message, if it is drafted. -/
def Fits : FileMessage → Prop
  | .drafted draft => draft.Fits
  | .finished _ => True

/-- The message itself stands at the empty path, also when it is finished. -/
theorem root_mem_parts (message : FileMessage) : [] ∈ message.parts.map Prod.fst := by
  cases message with
  | drafted draft => exact draft.root_mem_parts
  | finished descriptor => exact List.mem_singleton_self _

/-- A finished message is one part. Any other has the parts that its draft has. -/
theorem nodup_parts_iff (message : FileMessage) :
    (message.parts.map Prod.fst).Nodup ↔ message.Fits := by
  cases message with
  | drafted draft => exact draft.nodup_parts_iff
  | finished descriptor => exact iff_of_true (List.nodup_singleton _) trivial

/-- A path leads to the part of a message that it belongs to. -/
theorem mem_parts_iff {message : FileMessage} (h : message.Fits) {path : List Int32} {part : Part} :
    (path, part) ∈ message.parts ↔ message.partAt path = some part := by
  cases message with
  | drafted draft => exact MessageDraft.mem_parts_iff h
  | finished descriptor => exact mem_leaf_iff

/-- The comments of a message are stored under the paths of its parts. A finished message has
none. -/
theorem locations_eq (message : FileMessage) (path : List Int32) :
    message.locations path =
      message.parts.flatMap fun part => Draft.located (path ++ part.1) part.2.comment := by
  cases message with
  | drafted draft => exact draft.locations_eq path
  | finished descriptor => rfl

end FileMessage

namespace FileDraft

/-- Everything that is drafted for a file, with its path. Enums and services stand where they do in
the finished file. -/
def parts (file : FileDraft) : List (List Int32 × Part) :=
  -- the tags are those of the package, messages, enums and services
  ([2], .package file.package file.packageComment) ::
    (below 4 (file.messages.map FileMessage.parts) ++
      below 5 (file.sortedEnums.map fun enum => [([], .enum enum)]) ++
      below 6 (file.sortedServices.map ServiceDraft.parts))

/-- Where a path leads in a file. -/
def partAt (file : FileDraft) : List Int32 → Option Part
  | [] => none
  | [tag] => if tag = 2 then some (.package file.package file.packageComment) else none
  | tag :: index :: rest =>
    if tag = 4 then (item? file.messages index).bind fun message => message.partAt rest
    else if tag = 5 then (item? file.sortedEnums index).bind fun enum => leafAt (.enum enum) rest
    else if tag = 6 then
      (item? file.sortedServices index).bind fun service => service.partAt rest
    else none

/-- Tag 4 of a file leads into a message. -/
theorem partAt_message (file : FileDraft) (index : Int32) (rest : List Int32) :
    file.partAt (4 :: index :: rest) =
      (item? file.messages index).bind fun message => message.partAt rest := by
  rw [partAt, if_pos rfl]

/-- Tag 5 leads to an enum, in the order of the names. -/
theorem partAt_enum (file : FileDraft) (index : Int32) (rest : List Int32) :
    file.partAt (5 :: index :: rest) =
      (item? file.sortedEnums index).bind fun enum => leafAt (.enum enum) rest := by
  rw [partAt, if_neg (by decide), if_pos rfl]

/-- Tag 6 leads into a service, in the order of the names. -/
theorem partAt_service (file : FileDraft) (index : Int32) (rest : List Int32) :
    file.partAt (6 :: index :: rest) =
      (item? file.sortedServices index).bind fun service => service.partAt rest := by
  rw [partAt, if_neg (by decide), if_neg (by decide), if_pos rfl]

/-- There is an index for each element of the file. -/
structure Fits (file : FileDraft) : Prop where
  messages : file.messages.length ≤ 2 ^ 31
  enums : file.enums.length ≤ 2 ^ 31
  services : file.services.length ≤ 2 ^ 31
  inMessages : ∀ message ∈ file.messages, message.Fits
  inServices : ∀ service ∈ file.services, service.Fits

/-- Sorting keeps all enums. -/
theorem length_sortedEnums (file : FileDraft) : file.sortedEnums.length = file.enums.length :=
  (perm_sortByName _ _).length_eq

/-- Sorting keeps all services. -/
theorem length_sortedServices (file : FileDraft) :
    file.sortedServices.length = file.services.length :=
  (perm_sortByName _ _).length_eq

/-- Sorting neither brings nor loses a service. -/
theorem mem_sortedServices {file : FileDraft} {service : ServiceDraft} :
    service ∈ file.sortedServices ↔ service ∈ file.services :=
  mem_sortByName

/-- The parts of a file have paths of their own exactly when there are indices for all of them. -/
theorem nodup_parts_iff (file : FileDraft) : (file.parts.map Prod.fst).Nodup ↔ file.Fits := by
  have hmessages : ((below 4 (file.messages.map FileMessage.parts)).map Prod.fst).Nodup ↔
      file.messages.length ≤ 2 ^ 31 ∧ ∀ message ∈ file.messages, message.Fits := by
    rw [nodup_below_iff (List.forall_mem_map.mpr fun message _ => message.root_mem_parts),
      List.length_map, List.forall_mem_map]
    exact and_congr_right' (forall₂_congr fun message _ => message.nodup_parts_iff)
  have hservices : ((below 6 (file.sortedServices.map ServiceDraft.parts)).map Prod.fst).Nodup ↔
      file.services.length ≤ 2 ^ 31 ∧ ∀ service ∈ file.services, service.Fits := by
    rw [nodup_below_iff (List.forall_mem_map.mpr fun _ _ => List.mem_cons_self ..),
      List.length_map, List.forall_mem_map, length_sortedServices]
    refine and_congr_right' (forall_congr' fun service => ?_)
    rw [mem_sortedServices, service.nodup_parts_iff]
  rw [parts, nodup_cons_below_iff (by decide) (by decide) (by decide) (by decide), hmessages,
    nodup_leaves_iff, length_sortedEnums, hservices]
  constructor
  · rintro ⟨⟨hmessages, hinMessages⟩, henums, hservices, hinServices⟩
    exact ⟨hmessages, henums, hservices, hinMessages, hinServices⟩
  · rintro ⟨hmessages, henums, hservices, hinMessages, hinServices⟩
    exact ⟨⟨hmessages, hinMessages⟩, henums, hservices, hinServices⟩

/-- A path leads to the part that it belongs to, and to no other one. -/
theorem mem_parts_iff {file : FileDraft} (h : file.Fits) {path : List Int32} {part : Part} :
    (path, part) ∈ file.parts ↔ file.partAt path = some part := by
  have henums : file.sortedEnums.length ≤ 2 ^ 31 := file.length_sortedEnums ▸ h.enums
  have hservices : file.sortedServices.length ≤ 2 ^ 31 := file.length_sortedServices ▸ h.services
  rw [parts, List.mem_cons, List.mem_append, List.mem_append,
    mem_below_map_iff h.messages fun message hmessage _ _ =>
      FileMessage.mem_parts_iff (h.inMessages message hmessage),
    mem_below_map_iff henums fun _ _ _ _ => mem_leaf_iff,
    mem_below_map_iff hservices fun service hservice _ _ =>
      ServiceDraft.mem_parts_iff (h.inServices service (mem_sortedServices.mp hservice))]
  cases path with
  | nil => simp [partAt]
  | cons tag path =>
    cases path with
    | nil => by_cases htag : tag = 2 <;> simp [partAt, htag, eq_comm]
    | cons index rest =>
      rw [exists_path_iff, exists_path_iff, exists_path_iff, partAt]
      by_cases hmessages : tag = 4
      · simp [hmessages]
      · by_cases henums : tag = 5
        · simp [henums]
        · by_cases hservices : tag = 6
          · simp [hservices]
          · simp [hmessages, henums, hservices]

/-- The comments of a file are stored under the paths of its parts. -/
theorem locations_eq (file : FileDraft) :
    file.locations = file.parts.flatMap fun part => Draft.located part.1 part.2.comment := by
  have hmessages : ∀ index, ∀ message ∈ file.messages,
      (message.parts.flatMap fun part =>
        Draft.located (4 :: Draft.position index :: part.1) part.2.comment) =
      message.locations (Draft.pathBelow [] 4 index) := by
    intro index message _
    rw [message.locations_eq]
    rfl
  have hservices : ∀ index, ∀ service ∈ file.sortedServices,
      (service.parts.flatMap fun part =>
        Draft.located (6 :: Draft.position index :: part.1) part.2.comment) =
      service.locations (Draft.pathBelow [] 6 index) := by
    intro index service _
    rw [service.locations_eq]
    rfl
  rw [parts, List.flatMap_cons, List.flatMap_append, List.flatMap_append, flatMap_below,
    flatten_mapIdx_map hmessages, flatMap_leaves fun _ _ => rfl, flatMap_below,
    flatten_mapIdx_map hservices, locations]
  simp [Part.comment, Draft.pathBelow, EnumDraft.locations]

end FileDraft

end Protoscribe
