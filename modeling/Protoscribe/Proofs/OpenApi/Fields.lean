import Mathlib.Data.List.Forall2
import Protoscribe.OpenApi.Node

/-!
# `Protoscribe.Proofs.OpenApi.Fields`: nodes by the values of their members

The readers of nodes take a value apart into parts that are known to be smaller than it. So what is
read of two values cannot be compared part by part. Here the same readers are given in terms of
plain values: `Value.fields?` are the members that a record sets, and each reader is a function of
them.
-/

set_option autoImplicit false

namespace Protoscribe

/-- What is read of each item of a list, taken further. -/
theorem map_mapM_some {α β γ : Type} (f : α → Option β) (g : β → γ) (items : List α) :
    (items.mapM f).map (List.map g) = items.mapM fun item => (f item).map g := by
  induction items with
  | nil => rfl
  | cons item rest ih =>
    rw [List.mapM_cons, List.mapM_cons, ← ih]
    cases f item with
    | none => rfl
    | some value => cases rest.mapM f <;> rfl

/-- Items are read exactly when each of them is. -/
theorem mapM_eq_some {α β : Type} {read : α → Option β} {items : List α} {results : List β} :
    items.mapM read = some results ↔
      List.Forall₂ (fun item result => read item = some result) items results := by
  induction items generalizing results with
  | nil =>
    rw [List.mapM_nil, Option.pure_def, Option.some_inj, List.forall₂_nil_left_iff]
    exact eq_comm
  | cons item rest ih =>
    rw [List.mapM_cons, List.forall₂_cons_left_iff]
    simp only [Option.bind_eq_bind, Option.bind_eq_some_iff, Option.pure_def, Option.some_inj, ih]
    constructor
    · rintro ⟨first, hfirst, others, hothers, rfl⟩
      exact ⟨first, others, hfirst, hothers, rfl⟩
    · rintro ⟨first, others, hfirst, hothers, rfl⟩
      exact ⟨first, hfirst, others, hothers, rfl⟩

/-- What is read of a list is read of one of its items. -/
theorem exists_of_mem_mapM {α β : Type} {read : α → Option β} {items : List α} {results : List β}
    (h : items.mapM read = some results) {result : β} (hresult : result ∈ results) :
    ∃ item ∈ items, read item = some result := by
  have hread := mapM_eq_some.mp h
  obtain ⟨index, hindex, rfl⟩ := List.mem_iff_getElem.mp hresult
  have hitem : index < items.length := hread.length_eq ▸ hindex
  exact ⟨items[index], List.getElem_mem hitem, hread.get hitem hindex⟩

/-- Reads what stands under a name. -/
def named {α β : Type} (read : α → Option β) (entry : String × α) : Option (String × β) :=
  (read entry.2).map fun value => (entry.1, value)

/-- Two readers that go on in the same way after a first value. -/
theorem bind_eq_map_bind {α β γ : Type} {first first' : Option α} {next : α → Option γ}
    {next' : α → Option β} {f : β → γ} (hfirst : first = first')
    (hnext : ∀ value, next value = (next' value).map f) :
    first >>= next = (first' >>= next').map f := by
  subst hfirst
  cases first with
  | none => rfl
  | some value => exact hnext value

/-- Reading items together with the proof that they are items reads them. -/
theorem mapM_attach {α β : Type} (read : α → Option β) (items : List α) :
    (items.attach.mapM fun item => read item.1) = items.mapM read := by
  simp

namespace Value

/-! ### Parts without proofs -/

/-- The elements of a list. -/
def items? : Value → Option (List Value)
  | .list items => some items
  | _ => none

/-- The entries of a map, with their keys read by `key?`. -/
def pairs? (key? : Value → Option String) : Value → Option (List (String × Value))
  | .map entries => entries.mapM fun entry => (key? entry.1).map fun key => (key, entry.2)
  | _ => none

/-- Is the value a list or a map? -/
def isCompound : Value → Bool
  | .list _ | .map _ => true
  | _ => false

/-- The map of entries under texts. -/
def ofPairs (pairs : List (String × Value)) : Value :=
  .map (pairs.map fun pair => (.text pair.1, pair.2))

/-- A map of entries under texts has these entries, if texts are read as keys. -/
theorem pairs?_ofPairs {key? : Value → Option String} (h : ∀ text, key? (.text text) = some text)
    (pairs : List (String × Value)) : (ofPairs pairs).pairs? key? = some pairs := by
  rw [ofPairs, pairs?, List.mapM_map]
  induction pairs with
  | nil => rfl
  | cons pair rest ih =>
    rw [List.mapM_cons, ih, Function.comp_apply, h]
    rfl

/-- Keys may have to be texts. -/
theorem pairs?_text?_ofPairs (pairs : List (String × Value)) :
    (ofPairs pairs).pairs? text? = some pairs :=
  pairs?_ofPairs (fun _ => rfl) pairs

/-- Keys may also be read as texts of scalars. -/
theorem pairs?_keyText?_ofPairs (pairs : List (String × Value)) :
    (ofPairs pairs).pairs? keyText? = some pairs :=
  pairs?_ofPairs (fun _ => rfl) pairs

/-- Only lists have elements. -/
theorem items?_eq_none {value : Value} (h : value.isCompound = false) : value.items? = none := by
  cases value <;> first | rfl | cases h

/-- Only maps have entries. -/
theorem pairs?_eq_none {value : Value} (h : value.isCompound = false)
    (key? : Value → Option String) : value.pairs? key? = none := by
  cases value <;> first | rfl | cases h

/-- The members that a record sets, with their values. -/
abbrev Fields := List (String × Value)

/-- The member that an entry sets, if its key is that of a known one. -/
def field? (names : List String) (entry : Value × Value) : Option (Option (String × Value)) :=
  (memberName? names entry.1).map fun name => name.map fun name => (name, entry.2)

/-- The members that a record with members of the given names sets. -/
def fields? (names : List String) : Value → Option Fields
  | .map entries => do
    let found ← entries.mapM (field? names)
    let set := found.filterMap id
    if (set.map (·.1)).Nodup then some set else none
  | .list items => if items.length ≤ names.length then some (names.zip items) else none
  | _ => none

/-- A map sets no member twice. -/
theorem nodup_of_fields?_map {names : List String} {entries : List (Value × Value)} {set : Fields}
    (h : (Value.map entries).fields? names = some set) : (set.map (·.1)).Nodup := by
  obtain ⟨found, -, hset⟩ := Option.bind_eq_some_iff.mp h
  dsimp only at hset
  split at hset
  · next hdistinct =>
    cases hset
    exact hdistinct
  · cases hset

namespace Fields

variable {α : Type}

/-- A member that has a default value. -/
def getD (fields : Fields) (name : String) (read : Value → Option α) (default : α) : Option α :=
  match fields.lookup name with
  | none => some default
  | some value => read value

/-- A member that may be absent. -/
def get? (fields : Fields) (name : String) (read : Value → Option α) : Option (Option α) :=
  match fields.lookup name with
  | none => some none
  | some .null => some none
  | some value => (read value).map some

/-- A member that is a list or a map is not absent. -/
theorem get?_eq_of_lookup {fields : Fields} {name : String} {value : Value}
    (h : fields.lookup name = some value) (hcompound : value.isCompound = true)
    (read : Value → Option α) : fields.get? name read = (read value).map some := by
  rw [get?, h]
  cases value <;> first | rfl | cases hcompound

end Fields

/-- A free value. -/
def free? (value : Value) : Option Value :=
  if value.isWellKeyed then some value else none

/-- The texts of a list. -/
def texts? (value : Value) : Option (List String) :=
  value.items?.bind (·.mapM text?)

/-- The values of the members that a record sets. -/
def Members.fields {whole : Value} (set : whole.Members) : Fields :=
  set.map fun member => (member.1, member.2.1)

variable {α : Type} {whole : Value}

/-- Elements are read without the proof that they are smaller. -/
theorem elements?_bind_mapM (read : Value → Option α) (value : Value) :
    (value.elements?.bind fun items => items.mapM fun item => read item.1) =
      value.items?.bind (·.mapM read) := by
  cases value with
  | list items =>
    show (items.attach.map _).mapM _ = items.mapM read
    simp [List.mapM_map, Function.comp_def]
  | _ => rfl

/-- Entries are those of the map, without the proof that they are smaller. -/
theorem entries?_map (key? : Value → Option String) (value : Value) :
    ((value.entries? key?).map (List.map fun entry => (entry.1, entry.2.1))) =
      value.pairs? key? := by
  cases value with
  | map entries =>
    rw [entries?, map_mapM_some, pairs?]
    refine Eq.trans ?_ (mapM_attach _ entries)
    simp only [Option.map_map, Function.comp_def]
  | _ => rfl

/-- Entries are read without the proof that they are smaller. -/
theorem entries?_bind_mapM {β : Type} (key? : Value → Option String)
    (read : String × Value → Option β) (value : Value) :
    ((value.entries? key?).bind fun entries =>
        entries.mapM fun entry => read (entry.1, entry.2.1)) =
      (value.pairs? key?).bind (·.mapM read) := by
  rw [← entries?_map]
  cases value.entries? key? with
  | none => rfl
  | some entries => simp [List.mapM_map, Function.comp_def]

/-- The members that a record sets have the values of its fields. -/
theorem record?_map_fields (names : List String) (value : Value) :
    (value.record? names).map Members.fields = value.fields? names := by
  cases value with
  | map entries =>
    -- both go through the entries one by one; the record keeps a proof that the parts are smaller
    have hfound : (entries.attach.mapM fun entry =>
          (memberName? names entry.1.1).map fun name => name.map fun name =>
            (name, (⟨entry.1.2, sizeOf_entry_lt entry.2⟩ : Part (.map entries)))).map
          (List.map (Option.map fun member => (member.1, member.2.1))) =
        entries.mapM (field? names) := by
      rw [map_mapM_some]
      refine Eq.trans ?_ (mapM_attach _ entries)
      simp only [field?, Option.map_map, Function.comp_def]
    rw [fields?, ← hfound, record?]
    generalize (entries.attach.mapM fun entry =>
      (memberName? names entry.1.1).map fun name => name.map fun name =>
        (name, (⟨entry.1.2, sizeOf_entry_lt entry.2⟩ : Part (.map entries)))) = found?
    cases found? with
    | none => rfl
    | some found =>
      have hset : (found.map (Option.map fun member => (member.1, member.2.1))).filterMap id =
          Members.fields (found.filterMap id) := by
        rw [Members.fields, List.filterMap_map, List.map_filterMap]
        rfl
      have hnames : (Members.fields (found.filterMap id)).map (·.1) =
          (found.filterMap id).map (·.1) := by
        simp [Members.fields, Function.comp_def]
      simp only [Option.map_some, Option.bind_eq_bind, Option.bind_some, hset, hnames]
      split <;> rfl
  | list items =>
    rw [record?, fields?]
    split
    · have hplain : names.zip items = (names.zip items.attach).map (Prod.map id (·.1)) := by
        rw [← List.zip_map_right, List.attach_map_subtype_val]
      have hvalues : names.zip items = Members.fields
          (names.zip (items.attach.map fun item => ⟨item.1, sizeOf_item_lt item.2⟩) :
            Members (.list items)) := by
        rw [Members.fields, List.zip_map_right, List.map_map, hplain]
        rfl
      rw [Option.map_some, hvalues]
    · rfl
  | _ => rfl

/-- The value of a member is that of its field. -/
theorem Members.lookup_fields (set : whole.Members) (name : String) :
    set.fields.lookup name = (set.lookup name).map (·.1) := by
  induction set with
  | nil => rfl
  | cons member rest ih =>
    obtain ⟨own, part⟩ := member
    rw [fields, List.map_cons, List.lookup_cons, List.lookup_cons, ← fields, ih]
    cases name == own <;> rfl

/-- A member with a default is read from the fields. -/
theorem Members.getD_eq (set : whole.Members) (name : String) (read : Value → Option α)
    (default : α) :
    set.getD name (fun part => read part.1) default = set.fields.getD name read default := by
  rw [Members.getD, Fields.getD, lookup_fields]
  cases List.lookup name set <;> rfl

/-- A member that may be absent is read from the fields. -/
theorem Members.get?_eq (set : whole.Members) (name : String) (read : Value → Option α) :
    set.get? name (fun part => read part.1) = set.fields.get? name read := by
  rw [Members.get?, Fields.get?, lookup_fields]
  cases List.lookup name set with
  | none => rfl
  | some part =>
    obtain ⟨value, hvalue⟩ := part
    cases value <;> rfl

/-- A text that may be absent is read from the fields. -/
theorem Members.text?_eq (set : whole.Members) (name : String) :
    set.text? name = set.fields.get? name Value.text? :=
  set.get?_eq name Value.text?

/-- A truth value is read from the fields. -/
theorem Members.flag_eq (set : whole.Members) (name : String) :
    set.flag name = set.fields.getD name Value.bool? false :=
  set.getD_eq name Value.bool? false

/-- A list of texts is read from the fields. -/
theorem Members.texts_eq (set : whole.Members) (name : String) :
    set.texts name = set.fields.getD name Value.texts? [] := by
  rw [← set.getD_eq name Value.texts? []]
  simp only [texts, Value.texts?, elements?_bind_mapM]

/-- A free value is read from the fields. -/
theorem Members.get?_free_eq (set : whole.Members) (name : String) :
    set.get? name Members.free? = set.fields.get? name Value.free? :=
  set.get?_eq name Value.free?

/-- A reader of a record is a function of its fields. -/
theorem record?_bind {β : Type} (names : List String) (value : Value)
    {read : value.Members → Option β} {readFields : Fields → Option β}
    (h : ∀ set, read set = readFields set.fields) :
    (value.record? names).bind read = (value.fields? names).bind readFields := by
  rw [← record?_map_fields]
  cases value.record? names with
  | none => rfl
  | some set => exact h set

/-- The reference of a map is the text under `$ref`. -/
theorem reference?_eq (value : Value) : value.reference? =
      match value with
      | .map entries =>
        ((Value.map entries).fields? ["$ref"]).bind fun fields =>
          (fields.lookup "$ref").bind text?
      | _ => none := by
  cases value with
  | map entries =>
    refine record?_bind _ _ fun set => ?_
    rw [Members.lookup_fields]
    cases List.lookup "$ref" set <;> rfl
  | _ => rfl

end Value

namespace OpenApi

open Value (Fields)

/-- Nodes in a list. -/
def SchemaNode.listOf? (value : Value) : Option (List SchemaNode) :=
  value.items?.bind (·.mapM SchemaNode.ofValue?)

/-- Nodes under names, in order. -/
def SchemaNode.propertiesOf? (value : Value) : Option (List (String × SchemaNode)) :=
  (value.pairs? Value.keyText?).bind (·.mapM (named SchemaNode.ofValue?))

/-- What a schema says about other members. -/
def AdditionalProperties.ofValue? (value : Value) : Option AdditionalProperties :=
  match value.bool? with
  | some value => some (.allowed value)
  | none => (SchemaNode.ofValue? value).map .schema

/-- The keywords of a schema by their values. -/
def Keywords.ofFields? (fields : Fields) : Option Keywords := do
  pure
    { title := ← fields.get? "title" Value.text?
      description := ← fields.get? "description" Value.text?
      type := ← fields.get? "type" Value.free?
      format := ← fields.get? "format" Value.text?
      enum := ← fields.get? "enum" fun value => value.items?.bind (·.mapM Value.free?)
      oneOf := ← fields.get? "oneOf" SchemaNode.listOf?
      anyOf := ← fields.get? "anyOf" SchemaNode.listOf?
      allOf := ← fields.get? "allOf" SchemaNode.listOf?
      items := ← fields.get? "items" SchemaNode.ofValue?
      properties := ← fields.getD "properties" SchemaNode.propertiesOf? []
      required := ← fields.getD "required" Value.texts? []
      additionalProperties := ← fields.get? "additionalProperties" AdditionalProperties.ofValue?
      deprecated := ← fields.getD "deprecated" Value.bool? false
      nullable := ← fields.getD "nullable" Value.bool? false
      propertyOrder := ← fields.get? "x-propertyOrder" Value.free? }

/-- A schema is a reference, or it is read from its keywords. -/
theorem SchemaNode.ofValue?_eq (value : Value) :
    SchemaNode.ofValue? value =
      match value.reference? with
      | some reference => some (.ref reference)
      | none =>
        ((value.fields? Keywords.names).bind Keywords.ofFields?).map fun keywords =>
          .inline keywords.schema := by
  rw [SchemaNode.ofValue?]
  cases value.reference? with
  | some reference => rfl
  | none =>
    dsimp only
    rw [Option.map_bind]
    refine Value.record?_bind _ _ fun set => ?_
    have hnodes (part : value.Part) :
        (do (← part.1.elements?).mapM fun item => SchemaNode.ofValue? item.1) =
          SchemaNode.listOf? part.1 := Value.elements?_bind_mapM _ _
    have hliterals (part : value.Part) :
        (do (← part.1.elements?).mapM Value.Members.free?) =
          part.1.items?.bind (·.mapM Value.free?) := Value.elements?_bind_mapM Value.free? part.1
    have hproperties (part : value.Part) :
        (do (← part.1.entries? Value.keyText?).mapM fun entry => do
          pure (entry.1, ← SchemaNode.ofValue? entry.2.1)) = SchemaNode.propertiesOf? part.1 := by
      rw [SchemaNode.propertiesOf?, ← Value.entries?_bind_mapM]
      refine Option.bind_congr fun entries _ => ?_
      congr 1
      funext entry
      rw [named]
      cases SchemaNode.ofValue? entry.2.1 <;> rfl
    -- the keywords are read one by one, in the order of the record
    refine bind_eq_map_bind (set.text?_eq _) fun title => ?_
    refine bind_eq_map_bind (set.text?_eq _) fun description => ?_
    refine bind_eq_map_bind (set.get?_free_eq _) fun type => ?_
    refine bind_eq_map_bind (set.text?_eq _) fun format => ?_
    refine bind_eq_map_bind ?_ fun literals => ?_
    · simp only [hliterals]
      exact set.get?_eq _ fun value => value.items?.bind (·.mapM Value.free?)
    refine bind_eq_map_bind ?_ fun oneOf => ?_
    · simp only [hnodes]
      exact set.get?_eq _ _
    refine bind_eq_map_bind ?_ fun anyOf => ?_
    · simp only [hnodes]
      exact set.get?_eq _ _
    refine bind_eq_map_bind ?_ fun allOf => ?_
    · simp only [hnodes]
      exact set.get?_eq _ _
    refine bind_eq_map_bind (set.get?_eq _ _) fun items => ?_
    refine bind_eq_map_bind ?_ fun properties => ?_
    · simp only [hproperties]
      exact set.getD_eq _ _ _
    refine bind_eq_map_bind (set.texts_eq _) fun required => ?_
    refine bind_eq_map_bind (set.get?_eq _ AdditionalProperties.ofValue?)
      fun additionalProperties => ?_
    refine bind_eq_map_bind (set.flag_eq _) fun deprecated => ?_
    refine bind_eq_map_bind (set.flag_eq _) fun nullable => ?_
    exact bind_eq_map_bind (set.get?_free_eq _) fun propertyOrder => rfl

/-- A parameter by the values of its members. -/
def Parameter.ofFields? (fields : Fields) : Option Parameter := do
  pure
    { name := ← fields.getD "name" Value.text? ""
      location := ← fields.getD "in" Value.text? ""
      description := ← fields.get? "description" Value.text?
      required := ← fields.getD "required" Value.bool? false
      deprecated := ← fields.getD "deprecated" Value.bool? false
      schema := ← fields.get? "schema" SchemaNode.ofValue? }

/-- A parameter is read from its members. -/
theorem Parameter.ofValue?_eq (value : Value) :
    Parameter.ofValue? value =
      (value.fields? ["name", "in", "description", "required", "deprecated", "schema"]).bind
        Parameter.ofFields? := by
  refine Value.record?_bind _ _ fun set => ?_
  simp only [Parameter.ofFields?, ← Value.Members.get?_eq, ← Value.Members.getD_eq]
  rfl

/-- A media type by the values of its members. -/
def MediaType.ofFields? (fields : Fields) : Option MediaType :=
  (fields.get? "schema" SchemaNode.ofValue?).map fun schema => { schema }

/-- A media type is read from its one member. -/
theorem MediaType.ofValue?_eq (value : Value) :
    MediaType.ofValue? value = (value.fields? ["schema"]).bind MediaType.ofFields? := by
  refine Value.record?_bind _ _ fun set => ?_
  rw [MediaType.ofFields?, ← Value.Members.get?_eq]
  cases set.get? "schema" _ <;> rfl

/-- Payloads are read from the entries of a map, which are sorted then. -/
theorem Content.ofValue?_eq (value : Value) :
    Content.ofValue? value =
      ((value.pairs? Value.text?).bind (·.mapM (named MediaType.ofValue?))).map Table.ofList := by
  have hpayload (entry : String × value.Part) :
      (do pure (entry.1, ← MediaType.ofValue? entry.2.1)) =
        named MediaType.ofValue? (entry.1, entry.2.1) := by
    rw [named]
    cases MediaType.ofValue? entry.2.1 <;> rfl
  simp only [Content.ofValue?, hpayload, ← Value.entries?_bind_mapM, Option.bind_eq_bind]
  rw [← Option.bind_assoc, Option.map_eq_bind]
  rfl

/-- A request body by the values of its members. -/
def RequestBody.ofFields? (fields : Fields) : Option RequestBody := do
  pure
    { description := ← fields.get? "description" Value.text?
      content := ← fields.getD "content" Content.ofValue? (Table.ofList [])
      required := ← fields.getD "required" Value.bool? false }

/-- A request body is read from its members. -/
theorem RequestBody.ofValue?_eq (value : Value) :
    RequestBody.ofValue? value =
      (value.fields? ["description", "content", "required"]).bind RequestBody.ofFields? := by
  refine Value.record?_bind _ _ fun set => ?_
  simp only [RequestBody.ofFields?, ← Value.Members.get?_eq, ← Value.Members.getD_eq]
  rfl

/-- A response by the values of its members. -/
def Response.ofFields? (fields : Fields) : Option Response := do
  pure
    { description := ← fields.get? "description" Value.text?
      content := ← fields.getD "content" Content.ofValue? (Table.ofList []) }

/-- A response is read from its members. -/
theorem Response.ofValue?_eq (value : Value) :
    Response.ofValue? value =
      (value.fields? ["description", "content"]).bind Response.ofFields? := by
  refine Value.record?_bind _ _ fun set => ?_
  simp only [Response.ofFields?, ← Value.Members.get?_eq, ← Value.Members.getD_eq]
  rfl

end OpenApi

end Protoscribe
