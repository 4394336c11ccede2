import Protoscribe.Proofs.OpenApi.SchemaPlaces

/-!
# `Protoscribe.Proofs.OpenApi.Counted`: the parts of a text that count

Not everything in a text gets into the description that is read of it. A member that is `null` is as
good as absent, a reference hides what stands beside it, and of equal keys in a map the last counts.
In a schema one keyword decides, and the nodes under the weaker ones are dropped. `Counts` leads
from a text to the parts that are left, and `Decides` says which keyword of a schema they are under.
Both look at the text alone.

What a schema is read as agrees with that. `keywords_of_read` opens the schema, and the lemmas of
`Keywords.ReadFrom` say what the keywords are for a text that has or lacks them, up to
`properties?_of_isObject`: a text that describes an object is read as one with all its properties.
-/

set_option autoImplicit false

namespace Protoscribe.OpenApi

open Json (Written Cursor Result writtenName)
open Json.Cursor (content ReadsElement)

/-! ### What the text says -/

/-- The part is a reference: an object with one text under `$ref`. -/
def IsReference (part : Written) : Prop :=
  ∃ own text, part.members.filter (fun member => writtenName member.1 == some "$ref") = [own] ∧
    own.2.tree = .text (some text)

/-- A keyword of a schema is absent, or `null`. -/
def Lacks (part : Written) (name : String) : Prop :=
  ∀ own, part.member? Keywords.names name = some own → own.tree = .null

/-- A schema does not describe the members that it does not name. It may say whether there are
some. -/
def LeavesOthers (part : Written) : Prop :=
  ∀ own, part.member? Keywords.names "additionalProperties" = some own →
    own.tree = .null ∨ ∃ value, own.tree = .bool value

/-- The text that a part stands for. -/
def string? (part : Written) : Option String :=
  match part.tree with
  | .text text => text
  | _ => none

/-- The type that a schema gives: the only one, or the first of a list that is not `null`. -/
def givenType? (part : Written) : Option String :=
  match part.member? Keywords.names "type" with
  | none => none
  | some (.list _ elements _) => (elements.filterMap string?).find? (· ≠ "null")
  | some own => string? own

/-- A schema describes an object with named properties: its own ones beside those of `allOf`, or
because its type is `object`, or because it has properties and no type. -/
structure IsObject (part : Written) : Prop where
  others : LeavesOthers part
  enum : Lacks part "enum"
  oneOf : Lacks part "oneOf"
  anyOf : Lacks part "anyOf"
  object : ¬ Lacks part "allOf" ∨ givenType? part = some "object" ∨
    givenType? part = none ∧ membersUnder .schema "properties" part ≠ []

/-- The keyword under which the nodes of a schema count. The first of these that is there decides: a
schema for other members, literals, `oneOf`, `anyOf`, `allOf`, the type. -/
inductive Decides (part : Written) : String → Prop
  | additionalProperties (hothers : ¬ LeavesOthers part) : Decides part "additionalProperties"
  | oneOf (hothers : LeavesOthers part) (henum : Lacks part "enum") : Decides part "oneOf"
  | anyOf (hothers : LeavesOthers part) (henum : Lacks part "enum") (honeOf : Lacks part "oneOf") :
      Decides part "anyOf"
  | allOf (hothers : LeavesOthers part) (henum : Lacks part "enum") (honeOf : Lacks part "oneOf")
      (hanyOf : Lacks part "anyOf") : Decides part "allOf"
  | items (hothers : LeavesOthers part) (henum : Lacks part "enum") (honeOf : Lacks part "oneOf")
      (hanyOf : Lacks part "anyOf") (hallOf : Lacks part "allOf")
      (htype : givenType? part = some "array") : Decides part "items"
  | properties (h : IsObject part) : Decides part "properties"

/-- May a reference stand in the place of the part? -/
def Role.mayRefer : Role → Bool
  | .parameter | .requestBody | .response | .schema => true
  | _ => false

/-- A part of a text that counts for the description. -/
inductive Counts (root : Written) : Role → Written → Prop
  | whole : Counts root .document root
  /-- A member of a record that is not `null`. The record is no reference, and a schema has to have
  it under the keyword that decides. -/
  | member {role : Role} {part own : Written} {name : String} (h : Counts root role part)
      (hname : name ∈ role.names) (hown : part.member? role.names name = some own)
      (hnull : own.tree ≠ .null) (hnode : role.mayRefer = true → ¬ IsReference part)
      (hschema : role = .schema → Decides part name) : Counts root (role.member (some name)) own
  /-- An entry of a map, the last one of its key. -/
  | entry {role : Role} {before behind name : List Char} {front back : List (List Char × Written)}
      {own : Written}
      (h : Counts root (.map role) (.object before (front ++ (name, own) :: back) behind))
      (hlast : ∀ other ∈ back, writtenName other.1 ≠ writtenName name) : Counts root role own
  /-- Any entry where the order counts. -/
  | ordered {role : Role} {part : Written} {member : List Char × Written}
      (h : Counts root (.ordered role) part) (hmember : member ∈ part.members) :
      Counts root role member.2
  | element {role : Role} {before behind : List Char} {elements : List Written} {own : Written}
      (h : Counts root (.list role) (.list before elements behind)) (hown : own ∈ elements) :
      Counts root role own

/-- The only entry of a map counts. -/
theorem Counts.of_only {root own : Written} {role : Role} {before behind name : List Char}
    (h : Counts root (.map role) (.object before [(name, own)] behind)) : Counts root role own := by
  have hsplit : Counts root (.map role) (.object before ([] ++ (name, own) :: []) behind) := h
  exact hsplit.entry nofun

/-- What counts is inside the text. -/
theorem Counts.inside {root part : Written} {role : Role} (h : Counts root role part) :
    Inside root role part := by
  induction h with
  | whole => exact .whole
  | member _ hname hown _ _ _ ih => exact ih.of_member? hname hown
  | entry _ _ ih => exact ih.member (List.mem_append_right _ (List.mem_cons_self ..))
  | @ordered role part member _ hmember ih =>
    cases part with
    | leaf | list => cases hmember
    | object => exact ih.member hmember
  | element _ hown ih =>
    obtain ⟨index, hindex⟩ := List.mem_iff_getElem?.mp hown
    exact ih.element hindex

/-! ### Values -/

/-- The value of a text is `null`, a truth value or a text exactly when this is what is written. -/
theorem content_literal_iff {room : Nat} {tree : Json.Tree} {value : Value}
    (h : content ⟨room, tree⟩ = .ok value) :
    (value = .null ↔ tree = .null) ∧ (∀ flag, value = .bool flag ↔ tree = .bool flag) ∧
      ∀ text, value = .text text ↔ tree = .text (some text) := by
  have h : Cursor.value room tree = .ok value := h
  -- a number is read as a number, and what has parts as a list or a map
  cases tree with
  | null | bool =>
    cases h
    simp
  | number numeral =>
    rw [Cursor.value] at h
    split at h
    · next own hnumber =>
      cases h
      rcases numeral.integer_or_float hnumber with ⟨_, rfl⟩ | ⟨_, rfl⟩ <;> simp
    · cases h
  | text text =>
    cases text with
    | none => cases h
    | some text =>
      cases h
      simp
  | list | object =>
    simp only [Cursor.value, Json.Result.bind_eq_ok] at h
    obtain ⟨_, -, _, -, _, -, h⟩ := h
    cases h
    simp
  | broken => cases h

/-- The text of a value is the one that is written. -/
theorem text?_eq_string? {room : Nat} {part : Written} {value : Value}
    (h : content ⟨room, part.tree⟩ = .ok value) : value.text? = string? part := by
  refine Option.ext fun text => ?_
  have hvalue : value.text? = some text ↔ value = .text text := by
    cases value <;> simp [Value.text?]
  rw [hvalue, (content_literal_iff h).2.2 text, string?]
  cases part.tree <;> simp

/-- The texts among the elements of a list are those that are written. -/
theorem filterMap_text?_eq {room : Nat} {elements : List Written} {items : List Value}
    (h : List.Forall₂ (ReadsElement content room) elements items) :
    items.filterMap Value.text? = elements.filterMap string? := by
  induction h with
  | nil => rfl
  | cons hfirst _ ih => rw [List.filterMap_cons, List.filterMap_cons, text?_eq_string? hfirst, ih]

/-! ### References -/

/-- The members of one name have the values of the pairs of this name. -/
theorem readsMember_filter {room : Nat} {members : List (List Char × Written)}
    {pairs : List (String × Value)}
    (h : List.Forall₂ (Cursor.ReadsMember content room) members pairs) (name : String) :
    List.Forall₂ (Cursor.ReadsMember content room)
      (members.filter fun member => writtenName member.1 == some name)
      (pairs.filter fun pair => [name].contains pair.1) := by
  induction h with
  | nil => exact .nil
  | @cons member pair _ _ hfirst _ ih =>
    have hsame : (writtenName member.1 == some name) = [name].contains pair.1 := by
      simp [hfirst.1, Bool.beq_eq_decide_eq]
    rw [List.filter_cons, List.filter_cons, hsame]
    split
    · exact .cons hfirst ih
    · exact ih

/-- A record whose members all have one name has one of them at most. -/
theorem eq_singleton_of_lookup {name : String} {fields : Value.Fields} {field : Value}
    (hname : ∀ pair ∈ fields, pair.1 = name) (hdistinct : (fields.map (·.1)).Nodup)
    (hlookup : fields.lookup name = some field) : fields = [(name, field)] := by
  match fields with
  | [] => cases hlookup
  | [(own, held)] =>
    obtain rfl : own = name := hname _ (List.mem_singleton_self _)
    rw [lookup_cons_eq, if_pos rfl] at hlookup
    rw [Option.some.inj hlookup]
  | first :: second :: rest =>
    simp [hname first (by simp), hname second (by simp)] at hdistinct

/-- What is read as a reference is one. -/
theorem isReference_of_reference? {room : Nat} {part : Written} (hpart : part.WellFormed)
    {value : Value} (hvalue : content ⟨room, part.tree⟩ = .ok value) {reference : String}
    (h : value.reference? = some reference) : IsReference part := by
  rw [Value.reference?_eq] at h
  cases part with
  | leaf text =>
    rcases Cursor.content_leaf hpart.isLeaf_tree hvalue with rfl | rfl | hscalar
    · cases h
    · cases h
    · cases value <;> first | cases h | cases hscalar
  | list =>
    obtain ⟨_, -, _, -, rfl⟩ := Cursor.value_list.mp hvalue
    cases h
  | object before members behind =>
    obtain ⟨inner, -, pairs, hpairs, rfl⟩ := Cursor.value_object.mp hvalue
    obtain ⟨fields, hfields, hreference⟩ := Option.bind_eq_some_iff.mp h
    obtain ⟨field, hlookup, htext⟩ := Option.bind_eq_some_iff.mp hreference
    -- only one name was asked for, so all fields have it
    have hname : ∀ pair ∈ fields, pair.1 = "$ref" := by
      intro pair hpair
      rw [Cursor.fields?_ofPairs hfields] at hpair
      simpa using (List.mem_filter.mp hpair).2
    have hfilter := readsMember_filter hpairs "$ref"
    rw [← Cursor.fields?_ofPairs hfields,
      eq_singleton_of_lookup hname (Value.nodup_of_fields?_map hfields) hlookup] at hfilter
    obtain ⟨own, _, hown, hrest, hmembers⟩ := List.forall₂_cons_right_iff.mp hfilter
    rw [List.forall₂_nil_right_iff.mp hrest] at hmembers
    refine ⟨own, reference, hmembers, ((content_literal_iff hown.2).2.2 _).mp ?_⟩
    cases field <;> cases htext
    rfl

/-- A node that is no reference is read as a definition. -/
theorem exists_inline_of_read {α : Type} {item? : Value → Option α} {room : Nat} {part : Written}
    (hpart : part.WellFormed) {it : Referable α}
    (h : node (m := Result) item? (⟨room, part.tree⟩ : Cursor) = .ok it)
    (hnode : ¬ IsReference part) : ∃ value item, content ⟨room, part.tree⟩ = .ok value ∧
      item? value = some item ∧ it = .inline item := by
  obtain ⟨value, hvalue, hread⟩ := Cursor.interpreted_eq_ok.mp h
  unfold Referable.ofValue? at hread
  split at hread
  · next reference hreference =>
    exact absurd (isReference_of_reference? hpart hvalue hreference) hnode
  · obtain ⟨item, hitem, rfl⟩ := Option.map_eq_some_iff.mp hread
    exact ⟨value, item, hvalue, hitem, rfl⟩

/-! ### Keywords -/

/-- A member that is there and is not `null` has a value. -/
theorem exists_of_get?_of_content {α : Type} {own : Written} {room : Nat} {field : Value}
    (hfield : content ⟨room, own.tree⟩ = .ok field) {fields : Value.Fields} {name : String}
    (hlookup : fields.lookup name = some field) (hnull : own.tree ≠ .null)
    {read : Value → Option α} {it : Option α} (hget : fields.get? name read = some it) :
    ∃ value, read field = some value ∧ it = some value := by
  unfold Value.Fields.get? at hget
  rw [hlookup] at hget
  split at hget
  · cases ‹some field = none›
  · next heq =>
    cases heq
    exact absurd ((content_literal_iff hfield).1.mp rfl) hnull
  · next heq =>
    cases heq
    obtain ⟨value, hread, rfl⟩ := Option.map_eq_some_iff.mp hget
    exact ⟨value, hread, rfl⟩

/-- A schema is read like any other node that may be a reference. -/
theorem SchemaNode.ofValue?_eq_referable : SchemaNode.ofValue? =
    Referable.ofValue? fun value =>
      ((value.fields? Keywords.names).bind Keywords.ofFields?).map Keywords.schema := by
  funext value
  rw [SchemaNode.ofValue?_eq, Referable.ofValue?]
  cases value.reference? with
  | some reference => rfl
  | none =>
    rw [Option.map_map]
    rfl

/-- Keywords are read of a part of a text, each from the part of its own. -/
structure Keywords.ReadFrom (part : Written) (fields : Value.Fields) (keywords : Keywords) :
    Prop where
  wellFormed : part.WellFormed
  lookup : ∀ name ∈ Keywords.names,
    match part.member? Keywords.names name with
    | none => fields.lookup name = none
    | some own => ∃ inner field, content ⟨inner, own.tree⟩ = .ok field ∧
        fields.lookup name = some field
  holds : keywords.HoldsNodes fields
  lists : Lists (Source.interpreted SchemaNode.ofValue? : Cursor → Result SchemaNode)
    (membersUnder .schema "properties" part) keywords.properties

/-- A schema that is no reference is read from its keywords. -/
theorem keywords_of_read {room : Nat} {part : Written} (hpart : part.WellFormed)
    {schema : SchemaNode}
    (h : Source.interpreted SchemaNode.ofValue? (⟨room, part.tree⟩ : Cursor) =
      (.ok schema : Result SchemaNode)) (hnode : ¬ IsReference part) :
    ∃ fields keywords, Keywords.ReadFrom part fields keywords ∧
      schema = .inline keywords.schema := by
  rw [SchemaNode.ofValue?_eq_referable] at h
  obtain ⟨value, _, hvalue, hitem, rfl⟩ := exists_inline_of_read hpart h hnode
  obtain ⟨keywords, hkeywords, rfl⟩ := Option.map_eq_some_iff.mp hitem
  obtain ⟨fields, hfields, hkeywords⟩ := Option.bind_eq_some_iff.mp hkeywords
  have hholds := Keywords.holdsNodes hkeywords
  refine ⟨fields, keywords, ⟨hpart, ?_, hholds, ?_⟩, rfl⟩
  · exact fun name hname => Cursor.lookup_fields? hname hpart hvalue hfields
  · exact lists_properties hpart hvalue hfields hholds.properties

namespace Keywords.ReadFrom

variable {part : Written} {fields : Value.Fields} {keywords : Keywords} {name : String} {α : Type}
  {read : Value → Option α} {it : Option α}

/-- A keyword that a schema lacks has no value. -/
theorem eq_none (h : Keywords.ReadFrom part fields keywords) (hname : name ∈ Keywords.names)
    (hget : fields.get? name read = some it) (hlacks : Lacks part name) : it = none := by
  have hlookup := h.lookup name hname
  rw [Value.Fields.get?] at hget
  cases hown : part.member? Keywords.names name with
  | none =>
    rw [hown] at hlookup
    rw [hlookup] at hget
    exact (Option.some.inj hget).symm
  | some own =>
    rw [hown] at hlookup
    obtain ⟨inner, field, hfield, hlookup⟩ := hlookup
    obtain rfl := (content_literal_iff hfield).1.mpr (hlacks own hown)
    rw [hlookup] at hget
    exact (Option.some.inj hget).symm

/-- A keyword that a schema has is read from its part. -/
theorem exists_of_member? (h : Keywords.ReadFrom part fields keywords)
    (hname : name ∈ Keywords.names) (hget : fields.get? name read = some it) {own : Written}
    (hown : part.member? Keywords.names name = some own) (hnull : own.tree ≠ .null) :
    ∃ inner field value, content ⟨inner, own.tree⟩ = .ok field ∧ read field = some value ∧
      it = some value := by
  have hlookup := h.lookup name hname
  rw [hown] at hlookup
  obtain ⟨inner, field, hfield, hlookup⟩ := hlookup
  obtain ⟨value, hread, hsome⟩ := exists_of_get?_of_content hfield hlookup hnull hget
  exact ⟨inner, field, value, hfield, hread, hsome⟩

/-- A schema that leaves the other members alone has no schema for them. -/
theorem additionalProperties_ne (h : Keywords.ReadFrom part fields keywords)
    (hothers : LeavesOthers part) (node : SchemaNode) :
    keywords.additionalProperties ≠ some (.schema node) := by
  intro hsome
  have hget := hsome ▸ h.holds.additionalProperties
  have hlookup := h.lookup "additionalProperties" (by decide)
  cases hown : part.member? Keywords.names "additionalProperties" with
  | none =>
    rw [hown] at hlookup
    rw [Value.Fields.get?, hlookup] at hget
    cases hget
  | some own =>
    rw [hown] at hlookup
    obtain ⟨inner, field, hfield, hlookup⟩ := hlookup
    rw [Value.Fields.get?, hlookup] at hget
    rcases hothers own hown with hnull | ⟨flag, hflag⟩
    · obtain rfl := (content_literal_iff hfield).1.mpr hnull
      cases hget
    · obtain rfl := ((content_literal_iff hfield).2.1 flag).mpr hflag
      cases hget

/-- The type that counts is the one that the text gives. -/
theorem mainType?_eq (h : Keywords.ReadFrom part fields keywords) :
    keywords.mainType? = givenType? part := by
  unfold givenType?
  cases hown : part.member? Keywords.names "type" with
  | none =>
    have hnone := h.eq_none (by decide) h.holds.type (by simp [Lacks, hown])
    simp [Keywords.mainType?, Keywords.typeNames, hnone]
  | some own =>
    -- a keyword that is `null` is as good as absent
    by_cases hnull : own.tree = .null
    · have hnone := h.eq_none (by decide) h.holds.type (by simp [Lacks, hown, hnull])
      cases own with
      | list => cases hnull
      | leaf | object =>
        simp [Keywords.mainType?, Keywords.typeNames, hnone, string?, hnull]
    · obtain ⟨inner, field, value, hfield, hfree, htype⟩ :=
        h.exists_of_member? (by decide) h.holds.type hown hnull
      obtain rfl : field = value := by
        unfold Value.free? at hfree
        split at hfree <;> cases hfree
        rfl
      have htext := text?_eq_string? hfield
      cases own with
      | list before elements behind =>
        obtain ⟨_, -, items, hitems, rfl⟩ := Cursor.value_list.mp hfield
        simp only [Keywords.mainType?, Keywords.typeNames, htype, filterMap_text?_eq hitems]
      | object =>
        obtain ⟨_, -, _, -, rfl⟩ := Cursor.value_object.mp hfield
        simp [Keywords.mainType?, Keywords.typeNames, htype, ← htext, Value.text?]
      | leaf text =>
        have hleaf := (h.wellFormed.of_member? hown).isLeaf_tree
        have hkind := Cursor.content_leaf hleaf hfield
        show keywords.mainType? = string? (.leaf text)
        rw [← htext]
        cases field <;>
          simp_all [Keywords.mainType?, Keywords.typeNames, Value.text?, Value.isCompound]

/-- Without a schema for other members and without literals, `shape` asks the keywords for
variants one after the other. -/
theorem shape_eq (h : Keywords.ReadFrom part fields keywords) (hothers : LeavesOthers part)
    (henum : Lacks part "enum") :
    keywords.shape =
      match keywords.oneOf, keywords.anyOf, keywords.allOf with
      | some variants, _, _ => .oneOf variants
      | none, some variants, _ => .anyOf variants
      | none, none, some variants => .allOf variants keywords.properties keywords.required
      | none, none, none => keywords.typedShape := by
  unfold Keywords.shape
  split
  · next node hsome => exact absurd hsome (h.additionalProperties_ne hothers node)
  · rw [h.eq_none (by decide) h.holds.enum henum]
    cases keywords.oneOf <;> cases keywords.anyOf <;> cases keywords.allOf <;> rfl

/-- Without alternatives either, the shape is that of `allOf` or of the type. -/
theorem shape_eq_of_no_alternatives (h : Keywords.ReadFrom part fields keywords)
    (hothers : LeavesOthers part) (henum : Lacks part "enum") (honeOf : Lacks part "oneOf")
    (hanyOf : Lacks part "anyOf") :
    keywords.shape =
      match keywords.allOf with
      | some variants => .allOf variants keywords.properties keywords.required
      | none => keywords.typedShape := by
  rw [h.shape_eq hothers henum, h.eq_none (by decide) h.holds.oneOf honeOf,
    h.eq_none (by decide) h.holds.anyOf hanyOf]
  cases keywords.allOf <;> rfl

/-- A text that describes an object is read as one, with all its properties. -/
theorem properties?_of_isObject (h : Keywords.ReadFrom part fields keywords)
    (hobject : IsObject part) : keywords.shape.properties? = some keywords.properties := by
  rw [h.shape_eq_of_no_alternatives hobject.others hobject.enum hobject.oneOf hobject.anyOf]
  cases hallOf : keywords.allOf with
  | some variants => rfl
  | none =>
    rcases hobject.object with hlacks | htype | ⟨htype, hproperties⟩
    · refine absurd (fun own hown => ?_) hlacks
      by_contra hnull
      obtain ⟨_, _, _, -, -, hsome⟩ := h.exists_of_member? (by decide) h.holds.allOf hown hnull
      cases hallOf.symm.trans hsome
    · rw [← h.mainType?_eq] at htype
      simp [Keywords.typedShape, htype, Shape.properties?]
    · rw [← h.mainType?_eq] at htype
      have hnil : keywords.properties ≠ [] := by
        intro hnil
        obtain ⟨_, hlists⟩ := h.lists
        rw [hnil] at hlists
        exact hproperties (List.forall₂_nil_right_iff.mp hlists)
      simp [Keywords.typedShape, htype, hnil, Shape.properties?]

end Keywords.ReadFrom

end Protoscribe.OpenApi
