import Protoscribe.Proofs.OpenApi.Fields
import Protoscribe.Proofs.OpenApi.Role
import Protoscribe.Proofs.Table

/-!
# `Protoscribe.Proofs.OpenApi.Alike`: nodes that are read alike
-/

set_option autoImplicit false

namespace Protoscribe

/-! ### Values that differ in one place or in their order -/

/-- Lists that may be absent are permuted twice. -/
theorem rel_perm_trans {α : Type} {first second third : Option (List α)}
    (h : Option.Rel List.Perm first second) (h' : Option.Rel List.Perm second third) :
    Option.Rel List.Perm first third := by
  cases h with
  | none => exact h'
  | some hperm =>
    cases h' with
    | some hperm' => exact .some (hperm.trans hperm')

/-- Reading items in another order gives the same in another order. -/
theorem rel_perm_mapM {α β : Type} (read : α → Option β) {items others : List α}
    (h : items.Perm others) : Option.Rel List.Perm (items.mapM read) (others.mapM read) := by
  -- one item that cannot be read fails both lists, wherever it stands
  induction h with
  | nil => exact .some .nil
  | cons item _ ih =>
    rw [List.mapM_cons, List.mapM_cons]
    generalize List.mapM read _ = left at ih ⊢
    generalize List.mapM read _ = right at ih ⊢
    cases read item with
    | none => exact .none
    | some value =>
      cases ih with
      | none => exact .none
      | some h => exact .some (h.cons value)
  | swap first second rest =>
    simp only [List.mapM_cons]
    cases read first with
    | none => cases read second <;> exact .none
    | some value =>
      cases read second with
      | none => exact .none
      | some other =>
        cases rest.mapM read with
        | none => exact .none
        | some values => exact .some (.swap value other values)
  | trans _ _ ih ih' => exact rel_perm_trans ih ih'

/-- Reading what stands under names keeps the names. -/
theorem keys_of_mapM_named {α β : Type} {read : α → Option β} {entries : List (String × α)}
    {found : List (String × β)} (h : entries.mapM (named read) = some found) :
    found.map (·.1) = entries.map (·.1) := by
  induction entries generalizing found with
  | nil =>
    cases h
    rfl
  | cons entry rest ih =>
    rw [List.mapM_cons] at h
    obtain ⟨first, hfirst, h⟩ := Option.bind_eq_some_iff.mp h
    obtain ⟨others, hothers, h⟩ := Option.bind_eq_some_iff.mp h
    obtain ⟨value, hvalue, rfl⟩ := Option.map_eq_some_iff.mp hfirst
    cases h
    rw [List.map_cons, List.map_cons, ih hothers]

/-- The item at the place of a value is paired with it. -/
theorem zip_append_cons {α β : Type} {items : List α} {front : List β}
    (h : front.length < items.length) (value : β) (back : List β) :
    items.zip (front ++ value :: back) = (items.take front.length).zip front ++
      (items[front.length], value) :: (items.drop (front.length + 1)).zip back := by
  have hsplit : items = items.take front.length ++
      items[front.length] :: items.drop (front.length + 1) := by simp
  conv_lhs => rw [hsplit]
  rw [List.zip_append (by simp; omega), List.zip_cons_cons]

/-- What is related is related more loosely too. -/
theorem rel_imp {α : Type} {R S : α → α → Prop} {left right : Option α}
    (h : Option.Rel R left right) (himp : ∀ a b, R a b → S a b) : Option.Rel S left right := by
  cases h with
  | none => exact .none
  | some h => exact .some (himp _ _ h)

/-- A reader that does not see the difference reads the same. -/
theorem bind_eq_of_rel {α β : Type} {R : α → α → Prop} {left right : Option α}
    (h : Option.Rel R left right) {read : α → Option β} (hread : ∀ a b, R a b → read a = read b) :
    left.bind read = right.bind read := by
  cases h with
  | none => rfl
  | some h => exact hread _ _ h

namespace Value

/-- Two sets of fields have the same values, but perhaps under one name. -/
def Fields.Differ (name : String) (value other : Value) (fields others : Fields) : Prop :=
  ∀ own, fields.lookup own = others.lookup own ∨
    own = name ∧ fields.lookup own = some value ∧ others.lookup own = some other

/-- An entry in the middle is found unless one in front of it has its name. -/
theorem lookup_append_cons (front back : Fields) (name own : String) (value : Value) :
    (front ++ (name, value) :: back).lookup own =
      (front.lookup own).or (if own = name then some value else back.lookup own) := by
  induction front with
  | nil => rw [List.nil_append, lookup_cons_eq, List.lookup_nil, Option.none_or]
  | cons head rest ih =>
    obtain ⟨key, held⟩ := head
    rw [List.cons_append, lookup_cons_eq, lookup_cons_eq, ih]
    split <;> simp

/-- Two sets of fields that differ in one entry differ under its name at most. -/
theorem Fields.differ_append (front back : Fields) (name : String) (value other : Value) :
    Fields.Differ name value other (front ++ (name, value) :: back)
      (front ++ (name, other) :: back) := by
  intro own
  rw [lookup_append_cons, lookup_append_cons]
  cases front.lookup own with
  | some held => exact .inl rfl
  | none =>
    by_cases hown : own = name
    · exact .inr ⟨hown, by simp [hown], by simp [hown]⟩
    · exact .inl (by simp [hown])

/-- The fields of a map do not depend on the order of its entries. -/
theorem fields?_perm {entries others : List (Value × Value)} (h : entries.Perm others)
    (names : List String) :
    Option.Rel (fun fields others => ∀ name, fields.lookup name = others.lookup name)
      ((Value.map entries).fields? names) ((Value.map others).fields? names) := by
  have hfound := rel_perm_mapM (field? names) h
  rw [fields?, fields?]
  generalize entries.mapM (field? names) = left at hfound ⊢
  generalize others.mapM (field? names) = right at hfound ⊢
  cases hfound with
  | none => exact .none
  | @some found found' hperm =>
    have hset : (found.filterMap id).Perm (found'.filterMap id) := hperm.filterMap id
    have hnames := hset.map (·.1)
    simp only [Option.bind_eq_bind, Option.bind_some]
    by_cases hdistinct : ((found.filterMap id).map (·.1)).Nodup
    · rw [if_pos hdistinct, if_pos (hnames.nodup_iff.mp hdistinct)]
      exact .some fun name => Table.lookup_eq_of_perm hset hdistinct name
    · rw [if_neg hdistinct, if_neg fun h => hdistinct (hnames.nodup_iff.mpr h)]
      exact .none

/-- The fields of a map whose value under one name is another one. -/
theorem fields?_differ (front back : List (Value × Value)) (name : String) (value other : Value)
    (names : List String) :
    Option.Rel (Fields.Differ name value other)
      ((Value.map (front ++ (.text name, value) :: back)).fields? names)
      ((Value.map (front ++ (.text name, other) :: back)).fields? names) := by
  have hfield (value : Value) : field? names (.text name, value) =
      some (if names.contains name then some (name, value) else none) := by
    rw [field?, memberName?]
    split <;> rfl
  simp only [fields?, List.mapM_append, List.mapM_cons, hfield, Option.bind_eq_bind,
    Option.bind_some]
  cases front.mapM (field? names) with
  | none => exact .none
  | some inFront =>
    cases back.mapM (field? names) with
    | none => exact .none
    | some behind =>
      simp only [Option.bind_some, Option.pure_def, List.filterMap_append]
      by_cases hknown : names.contains name = true
      · simp only [hknown, if_true, List.filterMap_cons, id, List.map_append, List.map_cons]
        split
        · exact .some (Fields.differ_append _ _ name value other)
        · exact .none
      · rw [Bool.not_eq_true] at hknown
        simp only [hknown, Bool.false_eq_true, if_false, List.filterMap_cons, id]
        split
        · exact .some fun own => .inl rfl
        · exact .none

/-- The fields of a list in which one element is another one. -/
theorem fields?_differ_list (front back : List Value) (value other : Value)
    (names : List String) :
    Option.Rel
      (fun fields others => ∃ name, names[front.length]? = some name ∧
        Fields.Differ name value other fields others)
      ((Value.list (front ++ value :: back)).fields? names)
      ((Value.list (front ++ other :: back)).fields? names) := by
  have hlength : (front ++ value :: back).length = (front ++ other :: back).length := by simp
  rw [fields?, fields?, hlength]
  split
  · next hshort =>
    have hindex : front.length < names.length := by
      simp only [List.length_append, List.length_cons] at hshort
      omega
    rw [zip_append_cons hindex, zip_append_cons hindex]
    exact .some ⟨_, List.getElem?_eq_getElem hindex, Fields.differ_append _ _ _ value other⟩
  · exact .none

end Value

namespace OpenApi

namespace Role

/-! ### What is read of a value -/

/-- What comes out of a value that is read in a role. Of the roles that are read before the value
has come to its end, nothing does. -/
def Reading : Role → Type
  | .parameter => Referable Parameter
  | .requestBody => Referable RequestBody
  | .response => Referable Response
  | .mediaType => MediaType
  | .schema => SchemaNode
  | .map entry => Table entry.Reading
  | .ordered entry => List (String × entry.Reading)
  | .list element => List element.Reading
  | .plain => Value
  | _ => Unit

/-- Reads a value in a role. -/
def ofValue? : (role : Role) → Value → Option role.Reading
  | .parameter => Referable.ofValue? Parameter.ofValue?
  | .requestBody => Referable.ofValue? RequestBody.ofValue?
  | .response => Referable.ofValue? Response.ofValue?
  | .mediaType => MediaType.ofValue?
  | .schema => SchemaNode.ofValue?
  | .map entry => fun value =>
    ((value.pairs? Value.text?).bind (·.mapM (named entry.ofValue?))).map Table.ofList
  | .ordered entry => fun value =>
    (value.pairs? Value.keyText?).bind (·.mapM (named entry.ofValue?))
  | .list element => fun value => value.items?.bind (·.mapM element.ofValue?)
  | .plain => some
  | .document | .info | .components | .pathItem | .operation | .ignored => fun _ => some ()

/-- Two lists or maps are read alike in a role. -/
structure Alike (role : Role) (value other : Value) : Prop where
  eq : role.ofValue? value = role.ofValue? other
  left : value.isCompound = true
  right : other.isCompound = true

/-- Two sets of fields differ in values only that are read alike. -/
def FieldsAlike (role : Role) (fields others : Value.Fields) : Prop :=
  ∀ name, fields.lookup name = others.lookup name ∨
    ∃ value other, fields.lookup name = some value ∧ others.lookup name = some other ∧
      (role.member (some name)).Alike value other

variable {role : Role} {fields others : Value.Fields} {α : Type}

/-- A member that is read alike is read from either set of fields. -/
theorem FieldsAlike.get?_eq (h : role.FieldsAlike fields others) (name : String)
    {read : Value → Option α} (hread : ∀ value other, (role.member (some name)).Alike value other →
      read value = read other) :
    fields.get? name read = others.get? name read := by
  rcases h name with heq | ⟨value, other, hvalue, hother, halike⟩
  · rw [Value.Fields.get?, Value.Fields.get?, heq]
  · rw [Value.Fields.get?_eq_of_lookup hvalue halike.left,
      Value.Fields.get?_eq_of_lookup hother halike.right, hread _ _ halike]

/-- A member with a default that is read alike is read from either set of fields. -/
theorem FieldsAlike.getD_eq (h : role.FieldsAlike fields others) (name : String)
    {read : Value → Option α} (hread : ∀ value other, (role.member (some name)).Alike value other →
      read value = read other) (default : α) :
    fields.getD name read default = others.getD name read default := by
  unfold Value.Fields.getD
  rcases h name with heq | ⟨value, other, hvalue, hother, halike⟩
  · rw [heq]
  · rw [hvalue, hother]
    exact hread _ _ halike

/-- Plain values are alike only when they are the same. -/
theorem Alike.eq_of_plain {value other : Value} (h : Role.plain.Alike value other) :
    value = other :=
  Option.some.inj h.eq

/-- A plain member is the same in either set of fields. -/
theorem FieldsAlike.get?_plain (h : role.FieldsAlike fields others) (name : String)
    (hmember : role.member (some name) = .plain) (read : Value → Option α) :
    fields.get? name read = others.get? name read :=
  h.get?_eq name fun value other halike => by
    rw [hmember] at halike
    rw [halike.eq_of_plain]

/-- A plain member with a default is the same in either set of fields. -/
theorem FieldsAlike.getD_plain (h : role.FieldsAlike fields others) (name : String)
    (hmember : role.member (some name) = .plain) (read : Value → Option α) (default : α) :
    fields.getD name read default = others.getD name read default :=
  h.getD_eq name (fun value other halike => by
    rw [hmember] at halike
    rw [halike.eq_of_plain]) default

/-- A schema has the same keywords. -/
theorem FieldsAlike.keywords (h : Role.schema.FieldsAlike fields others) :
    Keywords.ofFields? fields = Keywords.ofFields? others := by
  -- only this keyword is read in another way when it is a truth value
  have hadditional (value other : Value)
      (halike : (Role.schema.member (some "additionalProperties")).Alike value other) :
      AdditionalProperties.ofValue? value = AdditionalProperties.ofValue? other := by
    have hbool (value : Value) (hcompound : value.isCompound = true) :
        AdditionalProperties.ofValue? value = (SchemaNode.ofValue? value).map .schema := by
      cases value <;> first | rfl | cases hcompound
    rw [hbool value halike.left, hbool other halike.right]
    exact congrArg _ halike.eq
  have hnodes (name : String) (hmember : Role.schema.member (some name) = .list .schema) :
      fields.get? name SchemaNode.listOf? = others.get? name SchemaNode.listOf? :=
    h.get?_eq name fun value other halike => by
      rw [hmember] at halike
      exact halike.eq
  have hitems : fields.get? "items" SchemaNode.ofValue? = others.get? "items" SchemaNode.ofValue? :=
    h.get?_eq "items" fun _ _ halike => halike.eq
  have hproperties : fields.getD "properties" SchemaNode.propertiesOf? [] =
      others.getD "properties" SchemaNode.propertiesOf? [] :=
    h.getD_eq "properties" (fun _ _ halike => halike.eq) []
  simp only [Keywords.ofFields?, h.get?_plain "title" (by decide),
    h.get?_plain "description" (by decide), h.get?_plain "type" (by decide),
    h.get?_plain "format" (by decide), h.get?_plain "enum" (by decide),
    h.get?_plain "x-propertyOrder" (by decide), h.getD_plain "required" (by decide),
    h.getD_plain "deprecated" (by decide), h.getD_plain "nullable" (by decide),
    hnodes "oneOf" rfl, hnodes "anyOf" rfl, hnodes "allOf" rfl, hitems, hproperties,
    h.get?_eq "additionalProperties" hadditional]

/-- A parameter is the same. -/
theorem FieldsAlike.parameter (h : Role.parameter.FieldsAlike fields others) :
    Parameter.ofFields? fields = Parameter.ofFields? others := by
  have hschema : fields.get? "schema" SchemaNode.ofValue? =
      others.get? "schema" SchemaNode.ofValue? :=
    h.get?_eq "schema" fun _ _ halike => halike.eq
  simp only [Parameter.ofFields?, h.getD_plain "name" (by decide), h.getD_plain "in" (by decide),
    h.get?_plain "description" (by decide), h.getD_plain "required" (by decide),
    h.getD_plain "deprecated" (by decide),
    hschema]

/-- A media type is the same. -/
theorem FieldsAlike.mediaType (h : Role.mediaType.FieldsAlike fields others) :
    MediaType.ofFields? fields = MediaType.ofFields? others := by
  have hschema : fields.get? "schema" SchemaNode.ofValue? =
      others.get? "schema" SchemaNode.ofValue? :=
    h.get?_eq "schema" fun _ _ halike => halike.eq
  rw [MediaType.ofFields?, MediaType.ofFields?, hschema]

/-- Payloads are the same, as they are sorted by media type. -/
theorem Alike.content {value other : Value} (h : (Role.map .mediaType).Alike value other) :
    Content.ofValue? value = Content.ofValue? other := by
  rw [Content.ofValue?_eq, Content.ofValue?_eq]
  exact h.eq

/-- A request body is the same. -/
theorem FieldsAlike.requestBody (h : Role.requestBody.FieldsAlike fields others) :
    RequestBody.ofFields? fields = RequestBody.ofFields? others := by
  simp only [RequestBody.ofFields?, h.get?_plain "description" (by decide),
    h.getD_plain "required" (by decide), h.getD_eq "content" fun _ _ halike => Alike.content halike]

/-- A response is the same. -/
theorem FieldsAlike.response (h : Role.response.FieldsAlike fields others) :
    Response.ofFields? fields = Response.ofFields? others := by
  simp only [Response.ofFields?, h.get?_plain "description" (by decide),
    h.getD_eq "content" fun _ _ halike => Alike.content halike]

/-- Two values refer to the same, and their fields differ in values only that are read alike. -/
structure RecordAlike (role : Role) (value other : Value) : Prop where
  reference : value.reference? = other.reference?
  fields : Option.Rel role.FieldsAlike (value.fields? role.names) (other.fields? role.names)

/-- Records with alike fields are read alike. -/
theorem RecordAlike.ofValue?_eq {value other : Value} (hrecord : role.members ≠ [])
    (h : role.RecordAlike value other) : role.ofValue? value = role.ofValue? other := by
  cases role with
  | parameter =>
    show Referable.ofValue? _ value = Referable.ofValue? _ other
    have hfields : Parameter.ofValue? value = Parameter.ofValue? other := by
      rw [Parameter.ofValue?_eq, Parameter.ofValue?_eq]
      exact bind_eq_of_rel h.fields fun _ _ halike => halike.parameter
    rw [Referable.ofValue?, Referable.ofValue?, h.reference, hfields]
  | requestBody =>
    show Referable.ofValue? _ value = Referable.ofValue? _ other
    have hfields : RequestBody.ofValue? value = RequestBody.ofValue? other := by
      rw [RequestBody.ofValue?_eq, RequestBody.ofValue?_eq]
      exact bind_eq_of_rel h.fields fun _ _ halike => halike.requestBody
    rw [Referable.ofValue?, Referable.ofValue?, h.reference, hfields]
  | response =>
    show Referable.ofValue? _ value = Referable.ofValue? _ other
    have hfields : Response.ofValue? value = Response.ofValue? other := by
      rw [Response.ofValue?_eq, Response.ofValue?_eq]
      exact bind_eq_of_rel h.fields fun _ _ halike => halike.response
    rw [Referable.ofValue?, Referable.ofValue?, h.reference, hfields]
  | mediaType =>
    show MediaType.ofValue? value = MediaType.ofValue? other
    rw [MediaType.ofValue?_eq, MediaType.ofValue?_eq]
    exact bind_eq_of_rel h.fields fun _ _ halike => halike.mediaType
  | schema =>
    show SchemaNode.ofValue? value = SchemaNode.ofValue? other
    rw [SchemaNode.ofValue?_eq, SchemaNode.ofValue?_eq, h.reference]
    have hfields : (value.fields? Keywords.names).bind Keywords.ofFields? =
        (other.fields? Keywords.names).bind Keywords.ofFields? :=
      bind_eq_of_rel h.fields fun _ _ halike => halike.keywords
    rw [hfields]
  | document | info | components | pathItem | operation => rfl
  | map | ordered | list | plain | ignored => exact absurd rfl hrecord

/-! ### Parts that are alike or stand in another order -/

open Value (ofPairs)

/-- A map refers to the same when its members stand in another order. -/
theorem recordAlike_of_perm (role : Role) {pairs others : List (String × Value)}
    (h : pairs.Perm others) : role.RecordAlike (ofPairs pairs) (ofPairs others) where
  reference := by
    have hfields := Value.fields?_perm (h.map fun pair => (Value.text pair.1, pair.2)) ["$ref"]
    rw [Value.reference?_eq, Value.reference?_eq]
    exact bind_eq_of_rel hfields fun _ _ hsame => by rw [hsame]
  fields :=
    rel_imp (Value.fields?_perm (h.map _) role.names) fun _ _ hsame name => .inl (hsame name)

/-- A record is read alike when one of its members is. -/
theorem recordAlike_of_member {value other : Value} {name : String}
    (h : (role.member (some name)).Alike value other) (front back : List (String × Value)) :
    role.RecordAlike (ofPairs (front ++ (name, value) :: back))
      (ofPairs (front ++ (name, other) :: back)) where
  reference := by
    -- a list or a map is no reference
    have htext (value : Value) (hcompound : value.isCompound = true) : value.text? = none := by
      cases value <;> first | rfl | cases hcompound
    have hfields := Value.fields?_differ (front.map fun pair => (.text pair.1, pair.2))
      (back.map fun pair => (.text pair.1, pair.2)) name value other ["$ref"]
    simp only [ofPairs, List.map_append, List.map_cons]
    rw [Value.reference?_eq, Value.reference?_eq]
    refine bind_eq_of_rel hfields fun fields others hdiffer => ?_
    rcases hdiffer "$ref" with hsame | ⟨-, hvalue, hother⟩
    · rw [hsame]
    · rw [hvalue, hother, Option.bind_some, Option.bind_some, htext value h.left,
        htext other h.right]
  fields := by
    simp only [ofPairs, List.map_append, List.map_cons]
    refine rel_imp (Value.fields?_differ _ _ name value other role.names) fun _ _ hdiffer own => ?_
    refine (hdiffer own).imp_right ?_
    rintro ⟨rfl, hvalue, hother⟩
    exact ⟨value, other, hvalue, hother, h⟩

/-- The place of a member in a list says as much as its name in an object. -/
theorem member_eq_element (hrecord : role.members ≠ []) {index : Nat} {name : String}
    (h : role.names[index]? = some name) : role.member (some name) = role.element index := by
  have hall : ∀ index < role.names.length, ∀ name ∈ role.names[index]?,
      role.member (some name) = role.element index := by
    cases role with
    | map | ordered | list | plain | ignored => exact absurd rfl hrecord
    | _ => decide
  exact hall index (List.getElem?_eq_some_iff.mp h).1 name h

/-- A list that stands for a record is read alike when one of its elements is. -/
theorem recordAlike_of_element (hrecord : role.members ≠ []) {value other : Value}
    {front : List Value} (h : (role.element front.length).Alike value other) (back : List Value) :
    role.RecordAlike (.list (front ++ value :: back)) (.list (front ++ other :: back)) where
  reference := rfl
  fields := by
    refine rel_imp (Value.fields?_differ_list front back value other role.names) ?_
    rintro _ _ ⟨name, hname, hdiffer⟩ own
    refine (hdiffer own).imp_right ?_
    rintro ⟨rfl, hvalue, hother⟩
    exact ⟨value, other, hvalue, hother, member_eq_element hrecord hname ▸ h⟩

/-- A map is read entry by entry, and sorted then. -/
theorem ofValue?_map (entry : Role) (pairs : List (String × Value)) :
    (Role.map entry).ofValue? (ofPairs pairs) =
      (pairs.mapM (named entry.ofValue?)).map Table.ofList := by
  show Option.map Table.ofList
      (((ofPairs pairs).pairs? Value.text?).bind (·.mapM (named entry.ofValue?))) = _
  rw [Value.pairs?_text?_ofPairs, Option.bind_some]

/-- Where order counts, the entries are read one by one. -/
theorem ofValue?_ordered (entry : Role) (pairs : List (String × Value)) :
    (Role.ordered entry).ofValue? (ofPairs pairs) = pairs.mapM (named entry.ofValue?) := by
  show ((ofPairs pairs).pairs? Value.keyText?).bind (·.mapM (named entry.ofValue?)) = _
  rw [Value.pairs?_keyText?_ofPairs, Option.bind_some]

/-- A list is read element by element. -/
theorem ofValue?_list (element : Role) (items : List Value) :
    (Role.list element).ofValue? (.list items) = items.mapM element.ofValue? :=
  rfl

/-- The order of the members of a map makes no difference to what is read of it. -/
theorem ofValue?_of_perm (hrole : role.isUnordered = true) {pairs others : List (String × Value)}
    (hdistinct : (pairs.map (·.1)).Nodup) (h : pairs.Perm others) :
    role.ofValue? (ofPairs pairs) = role.ofValue? (ofPairs others) := by
  cases role with
  | map entry =>
    have hread := rel_perm_mapM (named entry.ofValue?) h
    rw [ofValue?_map, ofValue?_map]
    generalize hfound : pairs.mapM (named entry.ofValue?) = found? at hread ⊢
    generalize others.mapM (named entry.ofValue?) = others? at hread ⊢
    cases hread with
    | none => rfl
    | some hperm =>
      exact congrArg some (Table.ofList_eq_of_perm hperm (by rwa [keys_of_mapM_named hfound]))
  | ordered | list | plain => cases hrole
  | ignored => rfl
  | _ => exact (recordAlike_of_perm _ h).ofValue?_eq (by simp [members])

/-- What is read of a map does not change with the value of a member that is read alike. -/
theorem ofValue?_of_member {value other : Value} {name : String}
    (h : (role.member (some name)).Alike value other) (front back : List (String × Value)) :
    role.ofValue? (ofPairs (front ++ (name, value) :: back)) =
      role.ofValue? (ofPairs (front ++ (name, other) :: back)) := by
  have hmapM (entry : Role) (hentry : entry.ofValue? value = entry.ofValue? other) :
      (front ++ (name, value) :: back).mapM (named entry.ofValue?) =
        (front ++ (name, other) :: back).mapM (named entry.ofValue?) := by
    simp only [List.mapM_append, List.mapM_cons, named, hentry]
  cases role with
  | map entry => rw [ofValue?_map, ofValue?_map, hmapM entry h.eq]
  | ordered entry => rw [ofValue?_ordered, ofValue?_ordered, hmapM entry h.eq]
  | list | ignored => rfl
  | plain => rw [Alike.eq_of_plain h]
  | _ => exact (recordAlike_of_member h front back).ofValue?_eq (by simp [members])

/-- What is read of a list does not change with an element that is read alike. -/
theorem ofValue?_of_element {value other : Value} {front : List Value}
    (h : (role.element front.length).Alike value other) (back : List Value) :
    role.ofValue? (.list (front ++ value :: back)) =
      role.ofValue? (.list (front ++ other :: back)) := by
  cases role with
  | list element =>
    have helement : element.ofValue? value = element.ofValue? other := h.eq
    have hmapM : (front ++ value :: back).mapM element.ofValue? =
        (front ++ other :: back).mapM element.ofValue? := by
      simp only [List.mapM_append, List.mapM_cons, helement]
    rw [ofValue?_list, ofValue?_list]
    exact hmapM
  | map | ordered | ignored => rfl
  | plain => rw [Alike.eq_of_plain h]
  | _ =>
    exact (recordAlike_of_element (by simp [members]) h back).ofValue?_eq (by simp [members])

end Role

end OpenApi

end Protoscribe
