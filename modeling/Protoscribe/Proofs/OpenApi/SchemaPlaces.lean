import Protoscribe.Proofs.OpenApi.Places

/-!
# `Protoscribe.Proofs.OpenApi.SchemaPlaces`: where schemas stand in a text

Parameters, request bodies, responses and schemas are read to their end before they are taken apart,
so the schemas in them are found by the values of their members. A schema that stands in the text
has its own nodes there (`StandsSchema.below`), and its properties in the order of the text
(`lists_properties`).
-/

set_option autoImplicit false

namespace Protoscribe.OpenApi

open Json (Written Cursor Result)
open Json.Cursor (content)

variable {α : Type} {root : Written} {role : Role}

/-! ### Nodes -/

/-- What is read of a member that may be absent is read of its value. -/
theorem exists_of_get? {fields : Value.Fields} {name : String} {read : Value → Option α} {it : α}
    (h : fields.get? name read = some (some it)) :
    ∃ value, fields.lookup name = some value ∧ read value = some it := by
  unfold Value.Fields.get? at h
  split at h
  · cases h
  · cases h
  · next value _ hlookup =>
    obtain ⟨_, hread, hsome⟩ := Option.map_eq_some_iff.mp h
    cases hsome
    exact ⟨value, hlookup, hread⟩

/-- A definition in place is read as one. -/
theorem Referable.eq_some_of_inline {item? : Value → Option α} {value : Value} {it : α}
    (h : Referable.ofValue? item? value = some (.inline it)) : item? value = some it := by
  unfold Referable.ofValue? at h
  split at h
  · cases h
  · obtain ⟨_, hitem, hsome⟩ := Option.map_eq_some_iff.mp h
    cases hsome
    exact hitem

/-- A schema that is read of a part of the text. -/
abbrev StandsSchema (root : Written) (schema : SchemaNode) : Prop :=
  Stands root .schema (Source.interpreted SchemaNode.ofValue? : Cursor → Result SchemaNode) schema

/-- The schema under a name in a record. -/
theorem Held.stands_schema (hroot : root.WellFormed) {value : Value} (h : Held root role value)
    {fields : Value.Fields} (hfields : value.fields? role.names = some fields) {name : String}
    (hname : name ∈ role.names) (hmember : role.member (some name) = .schema) {schema : SchemaNode}
    (hschema : fields.get? name SchemaNode.ofValue? = some (some schema)) :
    StandsSchema root schema := by
  obtain ⟨field, hlookup, hread⟩ := exists_of_get? hschema
  have hfield := h.of_lookup hroot hfields hname hlookup
  rw [hmember] at hfield
  exact stands_interpreted.mpr ⟨field, hfield, hread⟩

/-- The schema of a parameter is the one under `schema`. -/
theorem Parameter.get?_schema {value : Value} {parameter : Parameter}
    (h : Parameter.ofValue? value = some parameter) :
    ∃ fields, value.fields? Role.parameter.names = some fields ∧
      fields.get? "schema" SchemaNode.ofValue? = some parameter.schema := by
  rw [Parameter.ofValue?_eq] at h
  obtain ⟨fields, hfields, h⟩ := Option.bind_eq_some_iff.mp h
  -- members are read in a fixed order, and the schema comes after five others
  iterate 5 obtain ⟨_, -, h⟩ := Option.bind_eq_some_iff.mp h
  obtain ⟨_, hschema, h⟩ := Option.bind_eq_some_iff.mp h
  cases h
  exact ⟨fields, hfields, hschema⟩

/-- The schema of a media type is the one under `schema`. -/
theorem MediaType.get?_schema {value : Value} {mediaType : MediaType}
    (h : MediaType.ofValue? value = some mediaType) :
    ∃ fields, value.fields? Role.mediaType.names = some fields ∧
      fields.get? "schema" SchemaNode.ofValue? = some mediaType.schema := by
  rw [MediaType.ofValue?_eq] at h
  obtain ⟨fields, hfields, h⟩ := Option.bind_eq_some_iff.mp h
  obtain ⟨_, hschema, rfl⟩ := Option.map_eq_some_iff.mp h
  exact ⟨fields, hfields, hschema⟩

/-- The payloads of a request body are those under `content`. -/
theorem RequestBody.getD_content {value : Value} {body : RequestBody}
    (h : RequestBody.ofValue? value = some body) :
    ∃ fields, value.fields? Role.requestBody.names = some fields ∧
      fields.getD "content" Content.ofValue? (Table.ofList []) = some body.content := by
  rw [RequestBody.ofValue?_eq] at h
  obtain ⟨fields, hfields, h⟩ := Option.bind_eq_some_iff.mp h
  obtain ⟨_, -, h⟩ := Option.bind_eq_some_iff.mp h
  obtain ⟨_, hcontent, h⟩ := Option.bind_eq_some_iff.mp h
  obtain ⟨_, -, h⟩ := Option.bind_eq_some_iff.mp h
  cases h
  exact ⟨fields, hfields, hcontent⟩

/-- The payloads of a response are those under `content`. -/
theorem Response.getD_content {value : Value} {response : Response}
    (h : Response.ofValue? value = some response) :
    ∃ fields, value.fields? Role.response.names = some fields ∧
      fields.getD "content" Content.ofValue? (Table.ofList []) = some response.content := by
  rw [Response.ofValue?_eq] at h
  obtain ⟨fields, hfields, h⟩ := Option.bind_eq_some_iff.mp h
  obtain ⟨_, -, h⟩ := Option.bind_eq_some_iff.mp h
  obtain ⟨_, hcontent, h⟩ := Option.bind_eq_some_iff.mp h
  cases h
  exact ⟨fields, hfields, hcontent⟩

/-- The schema of a parameter that stands in the text stands in it too. -/
theorem Stands.parameter_schema (hroot : root.WellFormed) {parameter : Parameter}
    (h : Stands root .parameter (node (m := Result) Parameter.ofValue?) (.inline parameter))
    {schema : SchemaNode} (hschema : parameter.schema = some schema) :
    StandsSchema root schema := by
  obtain ⟨value, hheld, hvalue⟩ := stands_interpreted.mp h
  obtain ⟨fields, hfields, hget⟩ := Parameter.get?_schema (Referable.eq_some_of_inline hvalue)
  exact hheld.stands_schema hroot hfields (by decide) (by decide) (hschema ▸ hget)

/-- The schema of a media type that stands in the text stands in it too. -/
theorem Stands.mediaType_schema (hroot : root.WellFormed) {mediaType : MediaType}
    (h : Stands root .mediaType (Source.interpreted MediaType.ofValue? : Cursor → Result MediaType)
      mediaType) {schema : SchemaNode} (hschema : mediaType.schema = some schema) :
    StandsSchema root schema := by
  obtain ⟨value, hheld, hvalue⟩ := stands_interpreted.mp h
  obtain ⟨fields, hfields, hget⟩ := MediaType.get?_schema hvalue
  exact hheld.stands_schema hroot hfields (by decide) (by decide) (hschema ▸ hget)

/-- The payloads under `content` in a record. -/
theorem Held.stands_content (hroot : root.WellFormed) {value : Value} (h : Held root role value)
    {fields : Value.Fields} (hfields : value.fields? role.names = some fields)
    (hname : "content" ∈ role.names) (hmember : role.member (some "content") = .map .mediaType)
    {payloads : Content}
    (hcontent : fields.getD "content" Content.ofValue? (Table.ofList []) = some payloads)
    {entry : String × MediaType} (hentry : entry ∈ payloads.entries) {schema : SchemaNode}
    (hschema : entry.2.schema = some schema) : StandsSchema root schema := by
  unfold Value.Fields.getD at hcontent
  split at hcontent
  · cases hcontent
    cases hentry
  · next field hlookup =>
    obtain ⟨part, room, hinside, hfield⟩ := h.of_lookup hroot hfields hname hlookup
    rw [hmember] at hinside
    rw [Content.ofValue?_eq] at hcontent
    obtain ⟨entries, hentries, rfl⟩ := Option.map_eq_some_iff.mp hcontent
    have hlists := lists_of_pairs (hinside.wellFormed hroot) hfield (fun _ => rfl) hentries
    have hstands := hlists.stands (fun _ => rfl) hinside (Table.mem_of_mem_ofList hentry)
    exact hstands.mediaType_schema hroot hschema

/-- The schemas of a request body that stands in the text stand in it too. -/
theorem Stands.requestBody_schema (hroot : root.WellFormed) {body : RequestBody}
    (h : Stands root .requestBody (node (m := Result) RequestBody.ofValue?) (.inline body))
    {entry : String × MediaType} (hentry : entry ∈ body.content.entries) {schema : SchemaNode}
    (hschema : entry.2.schema = some schema) : StandsSchema root schema := by
  obtain ⟨value, hheld, hvalue⟩ := stands_interpreted.mp h
  obtain ⟨fields, hfields, hget⟩ := RequestBody.getD_content (Referable.eq_some_of_inline hvalue)
  exact hheld.stands_content hroot hfields (by decide) (by decide) hget hentry hschema

/-- The schemas of a response that stands in the text stand in it too. -/
theorem Stands.response_schema (hroot : root.WellFormed) {response : Response}
    (h : Stands root .response (node (m := Result) Response.ofValue?) (.inline response))
    {entry : String × MediaType} (hentry : entry ∈ response.content.entries) {schema : SchemaNode}
    (hschema : entry.2.schema = some schema) : StandsSchema root schema := by
  obtain ⟨value, hheld, hvalue⟩ := stands_interpreted.mp h
  obtain ⟨fields, hfields, hget⟩ := Response.getD_content (Referable.eq_some_of_inline hvalue)
  exact hheld.stands_content hroot hfields (by decide) (by decide) hget hentry hschema

/-! ### Inside a schema -/

/-- The nodes right below a shape. -/
def Shape.nodes {node : Type} : Shape node → List node
  | .map value => [value]
  | .oneOf variants => variants
  | .anyOf variants => variants
  | .allOf variants properties _ => variants ++ properties.map (·.2)
  | .array items => items.toList
  | .object properties _ => properties.map (·.2)
  | _ => []

/-- The properties of a shape that has some. -/
def Shape.properties? {node : Type} : Shape node → Option (List (String × node))
  | .allOf _ properties _ => some properties
  | .object properties _ => some properties
  | _ => none

/-- The properties of a shape are nodes right below it. -/
theorem mem_nodes_of_properties? {node : Type} {shape : Shape node}
    {properties : List (String × node)} (h : shape.properties? = some properties)
    {entry : String × node} (hentry : entry ∈ properties) : entry.2 ∈ shape.nodes := by
  cases shape with
  | allOf variants own required =>
    cases h
    exact List.mem_append_right _ (List.mem_map_of_mem hentry)
  | object own required =>
    cases h
    exact List.mem_map_of_mem hentry
  | _ => cases h

/-- The keywords that settle the shape of a schema, by the values of their members. -/
structure Keywords.HoldsNodes (fields : Value.Fields) (keywords : Keywords) : Prop where
  type : fields.get? "type" Value.free? = some keywords.type
  enum : (fields.get? "enum" fun value => value.items?.bind (·.mapM Value.free?)) =
    some keywords.enum
  oneOf : fields.get? "oneOf" SchemaNode.listOf? = some keywords.oneOf
  anyOf : fields.get? "anyOf" SchemaNode.listOf? = some keywords.anyOf
  allOf : fields.get? "allOf" SchemaNode.listOf? = some keywords.allOf
  items : fields.get? "items" SchemaNode.ofValue? = some keywords.items
  properties : fields.getD "properties" SchemaNode.propertiesOf? [] = some keywords.properties
  additionalProperties : fields.get? "additionalProperties" AdditionalProperties.ofValue? =
    some keywords.additionalProperties

/-- Keywords are read from the members of their names. -/
theorem Keywords.holdsNodes {fields : Value.Fields} {keywords : Keywords}
    (h : Keywords.ofFields? fields = some keywords) : keywords.HoldsNodes fields := by
  rw [Keywords.ofFields?] at h
  iterate 2 obtain ⟨_, -, h⟩ := Option.bind_eq_some_iff.mp h
  obtain ⟨_, htype, h⟩ := Option.bind_eq_some_iff.mp h
  obtain ⟨_, -, h⟩ := Option.bind_eq_some_iff.mp h
  obtain ⟨_, henum, h⟩ := Option.bind_eq_some_iff.mp h
  obtain ⟨_, honeOf, h⟩ := Option.bind_eq_some_iff.mp h
  obtain ⟨_, hanyOf, h⟩ := Option.bind_eq_some_iff.mp h
  obtain ⟨_, hallOf, h⟩ := Option.bind_eq_some_iff.mp h
  obtain ⟨_, hitems, h⟩ := Option.bind_eq_some_iff.mp h
  obtain ⟨_, hproperties, h⟩ := Option.bind_eq_some_iff.mp h
  obtain ⟨_, -, h⟩ := Option.bind_eq_some_iff.mp h
  obtain ⟨_, hadditional, h⟩ := Option.bind_eq_some_iff.mp h
  iterate 3 obtain ⟨_, -, h⟩ := Option.bind_eq_some_iff.mp h
  cases h
  exact ⟨htype, henum, honeOf, hanyOf, hallOf, hitems, hproperties, hadditional⟩

/-- By type alone, a schema has its items or its properties below it. -/
theorem mem_nodes_typedShape {keywords : Keywords} {node : SchemaNode}
    (h : node ∈ keywords.typedShape.nodes) :
    keywords.items = some node ∨ ∃ name, (name, node) ∈ keywords.properties := by
  have hproperty (h : node ∈ keywords.properties.map (·.2)) :
      ∃ name, (name, node) ∈ keywords.properties := by
    obtain ⟨⟨name, _⟩, hentry, rfl⟩ := List.mem_map.mp h
    exact ⟨name, hentry⟩
  unfold Keywords.typedShape at h
  split at h
  -- Only arrays and objects have nodes below them: `h_6` and `h_8` are objects with and without the
  -- keyword `type`.
  case h_5 => exact .inl (Option.mem_toList.mp h)
  case h_6 => exact .inr (hproperty h)
  case h_8 =>
    split at h
    · cases h
    · exact .inr (hproperty h)
  all_goals cases h

/-- A node right below a schema is under one of six keywords. -/
theorem mem_nodes_shape {keywords : Keywords} {node : SchemaNode}
    (h : node ∈ keywords.shape.nodes) :
    keywords.additionalProperties = some (.schema node) ∨
      (∃ variants, node ∈ variants ∧ (keywords.oneOf = some variants ∨
        keywords.anyOf = some variants ∨ keywords.allOf = some variants)) ∨
      keywords.items = some node ∨ ∃ name, (name, node) ∈ keywords.properties := by
  unfold Keywords.shape at h
  split at h
  · next value hadditional =>
    cases List.mem_singleton.mp h
    exact .inl hadditional
  · split at h
    · cases h
    · next variants _ hvariants => exact .inr (.inl ⟨variants, h, .inl hvariants⟩)
    · next variants _ _ hvariants => exact .inr (.inl ⟨variants, h, .inr (.inl hvariants)⟩)
    · next variants _ _ _ hvariants =>
      rcases List.mem_append.mp h with h | h
      · exact .inr (.inl ⟨variants, h, .inr (.inr hvariants)⟩)
      · obtain ⟨⟨name, _⟩, hentry, rfl⟩ := List.mem_map.mp h
        exact .inr (.inr (.inr ⟨name, hentry⟩))
    · exact .inr (.inr (mem_nodes_typedShape h))

/-- Nodes in a list under a keyword. -/
theorem Held.stands_variant (hroot : root.WellFormed) {value : Value} (h : Held root .schema value)
    {fields : Value.Fields} (hfields : value.fields? Keywords.names = some fields) {name : String}
    (hname : name ∈ Keywords.names) (hmember : Role.schema.member (some name) = .list .schema)
    {variants : List SchemaNode}
    (hvariants : fields.get? name SchemaNode.listOf? = some (some variants)) {variant : SchemaNode}
    (hvariant : variant ∈ variants) : StandsSchema root variant := by
  obtain ⟨field, hlookup, hread⟩ := exists_of_get? hvariants
  have hfield := h.of_lookup hroot hfields hname hlookup
  rw [hmember] at hfield
  obtain ⟨items, hitems, hread⟩ := Option.bind_eq_some_iff.mp hread
  obtain ⟨item, hitem, hnode⟩ := exists_of_mem_mapM hread hvariant
  exact stands_interpreted.mpr ⟨item, hfield.of_items hroot hitems hitem, hnode⟩

/-- The properties of a schema are read from the members of the object under `properties`. -/
theorem lists_properties {part : Written} (hpart : part.WellFormed) {room : Nat} {value : Value}
    (hvalue : content ⟨room, part.tree⟩ = .ok value)
    {fields : Value.Fields} (hfields : value.fields? Keywords.names = some fields)
    {properties : List (String × SchemaNode)}
    (h : fields.getD "properties" SchemaNode.propertiesOf? [] = some properties) :
    Lists (Source.interpreted SchemaNode.ofValue? : Cursor → Result SchemaNode)
      (membersUnder .schema "properties" part) properties := by
  have hlookup := Cursor.lookup_fields? (show "properties" ∈ Role.schema.names by decide) hpart
    hvalue hfields
  rw [membersUnder]
  unfold Value.Fields.getD at h
  cases hown : part.member? Role.schema.names "properties" with
  | none =>
    rw [hown] at hlookup
    rw [hlookup] at h
    cases h
    exact ⟨0, .nil⟩
  | some own =>
    rw [hown] at hlookup
    obtain ⟨inner, field, hfield, hlookup⟩ := hlookup
    rw [hlookup] at h
    exact lists_of_pairs (hpart.of_member? hown) hfield (fun _ => rfl) h

/-- A schema that stands in the text, by its keywords. -/
theorem StandsSchema.exists_keywords {schema : Schema} (h : StandsSchema root (.inline schema)) :
    ∃ (part : Written) (room : Nat) (value : Value) (fields : Value.Fields) (keywords : Keywords),
      Inside root .schema part ∧ content ⟨room, part.tree⟩ = .ok value ∧
      SchemaNode.ofValue? value = some (.inline schema) ∧
      value.fields? Keywords.names = some fields ∧ keywords.HoldsNodes fields ∧
      schema = keywords.schema := by
  obtain ⟨value, ⟨part, room, hinside, hvalue⟩, hnode⟩ := stands_interpreted.mp h
  have hread := hnode
  rw [SchemaNode.ofValue?_eq] at hread
  split at hread
  · cases hread
  · obtain ⟨keywords, hkeywords, hschema⟩ := Option.map_eq_some_iff.mp hread
    obtain ⟨fields, hfields, hkeywords⟩ := Option.bind_eq_some_iff.mp hkeywords
    cases hschema
    exact ⟨part, room, value, fields, keywords, hinside, hvalue, hnode, hfields,
      Keywords.holdsNodes hkeywords, rfl⟩

/-- The nodes right below a schema that stands in the text stand in it too. -/
theorem StandsSchema.below (hroot : root.WellFormed) {schema : Schema}
    (h : StandsSchema root (.inline schema)) {node : SchemaNode}
    (hnode : node ∈ schema.shape.nodes) : StandsSchema root node := by
  obtain ⟨part, room, value, fields, keywords, hinside, hvalue, -, hfields, hholds, rfl⟩ :=
    h.exists_keywords
  have hheld : Held root .schema value := ⟨part, room, hinside, hvalue⟩
  -- a node of the shape comes from one of the keywords
  rcases mem_nodes_shape hnode with hadditional | ⟨variants, hmem, hvariants⟩ | hitems |
    ⟨name, hproperty⟩
  · have hadditional := hadditional ▸ hholds.additionalProperties
    obtain ⟨field, hlookup, hread⟩ := exists_of_get? hadditional
    have hfield := hheld.of_lookup hroot hfields (by decide) hlookup
    have hown : SchemaNode.ofValue? field = some node := by
      unfold AdditionalProperties.ofValue? at hread
      split at hread
      · cases hread
      · obtain ⟨_, hown, hsome⟩ := Option.map_eq_some_iff.mp hread
        cases hsome
        exact hown
    exact stands_interpreted.mpr ⟨field, hfield, hown⟩
  · rcases hvariants with hvariants | hvariants | hvariants
    · exact hheld.stands_variant hroot hfields (by decide) (by decide)
        (hvariants ▸ hholds.oneOf) hmem
    · exact hheld.stands_variant hroot hfields (by decide) (by decide)
        (hvariants ▸ hholds.anyOf) hmem
    · exact hheld.stands_variant hroot hfields (by decide) (by decide)
        (hvariants ▸ hholds.allOf) hmem
  · exact hheld.stands_schema hroot hfields (by decide) (by decide) (hitems ▸ hholds.items)
  · have hlists := lists_properties (hinside.wellFormed hroot) hvalue hfields hholds.properties
    exact hlists.stands_under (by decide) (by decide) hinside hproperty

/-- The properties of a shape are those under `properties`. -/
theorem properties_of_shape {keywords : Keywords} {properties : List (String × SchemaNode)}
    (h : keywords.shape.properties? = some properties) : properties = keywords.properties := by
  have htyped (h : keywords.typedShape.properties? = some properties) :
      properties = keywords.properties := by
    unfold Keywords.typedShape at h
    split at h
    case h_6 => exact (Option.some.inj h).symm
    case h_8 =>
      split at h
      · cases h
      · exact (Option.some.inj h).symm
    all_goals cases h
  unfold Keywords.shape at h
  split at h
  · cases h
  · split at h
    · cases h
    · cases h
    · cases h
    · exact (Option.some.inj h).symm
    · exact htyped h

/-- The part of the text that a schema is read from has its properties, in the same order. -/
theorem StandsSchema.exists_part (hroot : root.WellFormed) {schema : Schema}
    (h : StandsSchema root (.inline schema)) {properties : List (String × SchemaNode)}
    (hproperties : schema.shape.properties? = some properties) :
    ∃ part room, Inside root .schema part ∧
      Source.interpreted SchemaNode.ofValue? (⟨room, part.tree⟩ : Cursor) =
        (.ok (.inline schema) : Result SchemaNode) ∧
      Lists (Source.interpreted SchemaNode.ofValue? : Cursor → Result SchemaNode)
        (membersUnder .schema "properties" part) properties := by
  obtain ⟨part, room, value, fields, keywords, hinside, hvalue, hnode, hfields, hholds, rfl⟩ :=
    h.exists_keywords
  have hread := Cursor.interpreted_eq_ok.mpr ⟨value, hvalue, hnode⟩
  refine ⟨part, room, hinside, hread, ?_⟩
  rw [properties_of_shape hproperties]
  exact lists_properties (hinside.wellFormed hroot) hvalue hfields hholds.properties

end Protoscribe.OpenApi
