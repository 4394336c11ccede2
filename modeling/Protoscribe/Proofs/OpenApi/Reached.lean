import Protoscribe.Proofs.OpenApi.Counted
import Protoscribe.Proofs.OpenApi.DocumentPlaces

/-!
# `Protoscribe.Proofs.OpenApi.Reached`: what counts gets into the description

`Document.Reached` says for each role what a part of a text has to do with a description: an
operation of the description is read of it, or a schema that the description holds, and so on; for
maps and lists it says so of the entries. Every part that counts has reached the description
(`Counts.reached`): the whole text has, and with a part those right below it that count
(`Document.Reached.member` for records, and the definition itself for maps and lists).
-/

set_option autoImplicit false

namespace Protoscribe.OpenApi

open Json (Written Cursor Result writtenName)
open Json.Cursor (content ReadsMember ReadsElement)

variable {α β : Type} {document : Document} {role : Role} {part own : Written}

/-- Something is read of a part of a text. -/
def Reads (read : Cursor → Result α) (part : Written) (it : α) : Prop :=
  ∃ room, read ⟨room, part.tree⟩ = .ok it

/-- What is read of a part of a text is in the description. -/
def Document.Reached (document : Document) : Role → Written → Prop
  | .document, part => Reads (Document.read (m := Result)) part document
  | .components, part => Reads (Components.read (m := Result)) part document.components
  | .pathItem, part =>
    ∃ entry ∈ document.paths.entries, Reads (PathItem.read (m := Result)) part entry.2
  | .operation, part =>
    ∃ operation ∈ document.operations, Reads (Operation.read (m := Result)) part operation
  | .parameter, part =>
    ∃ parameter ∈ document.parameters, Reads (node (m := Result) Parameter.ofValue?) part parameter
  | .requestBody, part =>
    ∃ body ∈ document.requestBodies, Reads (node (m := Result) RequestBody.ofValue?) part body
  | .response, part =>
    ∃ response ∈ document.responses, Reads (node (m := Result) Response.ofValue?) part response
  | .mediaType, part =>
    ∃ mediaType, (∀ schema, mediaType.schema = some schema → document.Holds schema) ∧
      Reads (Source.interpreted (m := Result) MediaType.ofValue?) part mediaType
  | .schema, part =>
    ∃ schema, document.Holds schema ∧
      Reads (Source.interpreted (m := Result) SchemaNode.ofValue?) part schema
  | .map role, part => ∀ before front name own back behind,
      part = .object before (front ++ (name, own) :: back) behind →
      (∀ other ∈ back, writtenName other.1 ≠ writtenName name) → document.Reached role own
  | .ordered role, part => ∀ member ∈ part.members, document.Reached role member.2
  | .list role, part => ∀ before elements behind, part = .list before elements behind →
      ∀ own ∈ elements, document.Reached role own
  | .info, _ | .plain, _ | .ignored, _ => True

/-! ### Maps and lists -/

/-- Entries in the order of the text reach the description where what is read of them does. -/
theorem Document.reached_ordered {read : Cursor → Result α} {entries : List (String × α)}
    (h : Lists read part.members entries)
    (hentries : ∀ entry ∈ entries, ∀ own, Reads read own entry.2 → document.Reached role own) :
    document.Reached (.ordered role) part := by
  intro member hmember
  obtain ⟨room, hreads⟩ := h
  obtain ⟨entry, hentry, -, hread⟩ := (exists_of_forall₂ hreads).1 member hmember
  exact hentries entry hentry member.2 ⟨room, hread⟩

/-- Of entries sorted by key those reach the description that are the last ones of their keys. -/
theorem Document.reached_map {read : Cursor → Result α} {entries : List (String × α)}
    (h : Lists read part.members entries)
    (hentries : ∀ entry ∈ (Table.ofList entries).entries, ∀ own, Reads read own entry.2 →
      document.Reached role own) : document.Reached (.map role) part := by
  rintro before front name own back behind rfl hlast
  obtain ⟨room, hreads⟩ := h
  obtain ⟨start, entry, rest, rfl, ⟨hname, hread⟩, hback⟩ := exists_split_of_forall₂ hreads
  refine hentries entry (Table.mem_ofList_of_last fun other hother heq => ?_) own ⟨room, hread⟩
  obtain ⟨member, hmember, hother, -⟩ := (exists_of_forall₂ hback).2 other hother
  exact hlast member hmember (by rw [hother, hname, heq])

/-- A table that is read of a part reaches the description where its entries do. -/
theorem Document.reached_table {read : Cursor → Result α} {entries : Table α}
    (hpart : part.WellFormed) (h : Reads (table (m := Result) read) part entries)
    (hentries : ∀ entry ∈ entries.entries, ∀ own, Reads read own entry.2 →
      document.Reached role own) : document.Reached (.map role) part := by
  obtain ⟨room, hread⟩ := h
  obtain ⟨found, hfound, rfl⟩ := Json.Result.map_eq_ok.mp hread
  exact reached_map (lists_of_entries hpart hfound) hentries

/-- A list that is read of a part reaches the description where its elements do. -/
theorem Document.reached_list {read : Cursor → Result α} {items : List α}
    (h : Reads (Cursor.list read) part items)
    (hitems : ∀ item ∈ items, ∀ own, Reads read own item → document.Reached role own) :
    document.Reached (.list role) part := by
  rintro before elements behind rfl own hown
  obtain ⟨room, hread⟩ := h
  obtain ⟨inner, -, helements⟩ := Cursor.list_eq_ok.mp hread
  obtain ⟨item, hitem, hown⟩ := (exists_of_forall₂ helements).1 own hown
  exact hitems item hitem own ⟨inner, hown⟩

/-- What may be `null` is there when it is not. -/
theorem exists_of_optional {read : Cursor → Result α} {it : Option α}
    (h : Reads (Cursor.optional read) part it) (hnull : part.tree ≠ .null) :
    ∃ value, it = some value ∧ Reads read part value := by
  obtain ⟨room, hread⟩ := h
  unfold Cursor.optional at hread
  split at hread
  · next htree => exact absurd htree hnull
  · obtain ⟨value, hvalue, rfl⟩ := Json.Result.map_eq_ok.mp hread
    exact ⟨value, rfl, room, hvalue⟩

/-! ### Records that are read as the text goes -/

/-- A field of a record is read of the part that stands for its member. -/
theorem Reads.field {known : List (Member Cursor Result α)} {start : α} {title : String} {it : α}
    (h : Reads (Source.recordFrom start title known) part it) (hpart : part.WellFormed)
    (hnames : known.map (·.name) = role.names) (hdistinct : role.names.Nodup) {name : String}
    {get : α → β} {read : Cursor → Result β} (hfield : Cursor.Field known name get read)
    (hown : part.member? role.names name = some own) : Reads read own (get it) := by
  obtain ⟨room, hread⟩ := h
  have hget := hfield.get_eq (hnames ▸ hdistinct) hpart hread
  rw [hnames, hown] at hget
  exact hget

namespace Document.Reached

/-- What counts of a whole description reaches it. -/
theorem document_member (hpart : part.WellFormed) (h : document.Reached .document part)
    {name : String} (hname : name ∈ Role.document.names)
    (hown : part.member? Role.document.names name = some own) :
    document.Reached (Role.document.member (some name)) own := by
  have hwell := hpart.of_member? hown
  simp only [Role.names, Role.members, List.map_cons, List.map_nil, List.mem_cons,
    List.not_mem_nil, or_false] at hname
  rcases hname with rfl | rfl | rfl | rfl
  · trivial
  · trivial
  · refine reached_table hwell (h.field hpart rfl (by decide) Document.field_paths hown) ?_
    exact fun entry hentry part hread => ⟨entry, hentry, hread⟩
  · exact h.field hpart rfl (by decide) Document.field_components hown

/-- What counts of the components reaches the description. -/
theorem components_member (hpart : part.WellFormed) (h : document.Reached .components part)
    {name : String} (hname : name ∈ Role.components.names)
    (hown : part.member? Role.components.names name = some own) :
    document.Reached (Role.components.member (some name)) own := by
  have hwell := hpart.of_member? hown
  simp only [Role.names, Role.members, List.map_cons, List.map_nil, List.mem_cons,
    List.not_mem_nil, or_false] at hname
  rcases hname with rfl | rfl | rfl | rfl
  · refine reached_table hwell (h.field hpart rfl (by decide) Components.field_schemas hown) ?_
    exact fun entry hentry part hread => ⟨entry.2, .component hentry, hread⟩
  · refine reached_table hwell (h.field hpart rfl (by decide) Components.field_parameters hown) ?_
    refine fun entry hentry part hread => ⟨entry.2, ?_, hread⟩
    simp [Document.parameters, List.mem_map_of_mem hentry]
  · refine reached_table hwell
      (h.field hpart rfl (by decide) Components.field_requestBodies hown) ?_
    refine fun entry hentry part hread => ⟨entry.2, ?_, hread⟩
    simp [Document.requestBodies, List.mem_map_of_mem hentry]
  · refine reached_table hwell (h.field hpart rfl (by decide) Components.field_responses hown) ?_
    refine fun entry hentry part hread => ⟨entry.2, ?_, hread⟩
    simp [Document.responses, List.mem_map_of_mem hentry]

/-- An operation under a verb of a path reaches the description. -/
theorem pathItem_verb (hpart : part.WellFormed) (h : document.Reached .pathItem part) (verb : Verb)
    (hown : part.member? Role.pathItem.names verb.name = some own) (hnull : own.tree ≠ .null) :
    document.Reached .operation own := by
  obtain ⟨⟨path, item⟩, hentry, hread⟩ := h
  obtain ⟨operation, hoperation, hread⟩ := exists_of_optional
    (hread.field hpart rfl (by decide) (PathItem.field_operation verb) hown) hnull
  have hmem : (verb, operation) ∈ item.operations := by
    refine List.mem_filterMap.mpr ⟨verb, by cases verb <;> decide, ?_⟩
    rw [show item.operation? verb = some operation from hoperation, Option.map_some]
  exact ⟨operation, Document.mem_operations hentry hmem, hread⟩

/-- What counts of a path reaches the description. -/
theorem pathItem_member (hpart : part.WellFormed) (h : document.Reached .pathItem part)
    {name : String} (hname : name ∈ Role.pathItem.names)
    (hown : part.member? Role.pathItem.names name = some own) (hnull : own.tree ≠ .null) :
    document.Reached (Role.pathItem.member (some name)) own := by
  simp only [Role.names, Role.members, List.map_cons, List.map_nil, List.mem_cons,
    List.not_mem_nil, or_false] at hname
  rcases hname with rfl | rfl | rfl | rfl | rfl | rfl | rfl | rfl | rfl | rfl | rfl
  · trivial
  · trivial
  · obtain ⟨entry, hentry, hread⟩ := h
    refine reached_list (hread.field hpart rfl (by decide) PathItem.field_parameters hown) ?_
    refine fun parameter hparameter part hread => ⟨parameter, ?_, hread⟩
    simp only [Document.parameters, List.mem_append, List.mem_flatMap]
    exact .inl (.inr ⟨entry, hentry, hparameter⟩)
  · exact h.pathItem_verb hpart .get hown hnull
  · exact h.pathItem_verb hpart .put hown hnull
  · exact h.pathItem_verb hpart .post hown hnull
  · exact h.pathItem_verb hpart .delete hown hnull
  · exact h.pathItem_verb hpart .options hown hnull
  · exact h.pathItem_verb hpart .head hown hnull
  · exact h.pathItem_verb hpart .patch hown hnull
  · exact h.pathItem_verb hpart .trace hown hnull

/-- What counts of an operation reaches the description. -/
theorem operation_member (hpart : part.WellFormed) (h : document.Reached .operation part)
    {name : String} (hname : name ∈ Role.operation.names)
    (hown : part.member? Role.operation.names name = some own) (hnull : own.tree ≠ .null) :
    document.Reached (Role.operation.member (some name)) own := by
  have hwell := hpart.of_member? hown
  obtain ⟨operation, hoperation, hread⟩ := h
  simp only [Role.names, Role.members, List.map_cons, List.map_nil, List.mem_cons,
    List.not_mem_nil, or_false] at hname
  -- the prose and the name of the operation hold no nodes
  rcases hname with rfl | rfl | rfl | rfl | rfl | rfl | rfl
  · trivial
  · trivial
  · trivial
  · trivial
  · refine reached_list (hread.field hpart rfl (by decide) Operation.field_parameters hown) ?_
    refine fun parameter hparameter part hread => ⟨parameter, ?_, hread⟩
    simp only [Document.parameters, List.mem_append, List.mem_flatMap]
    exact .inr ⟨operation, hoperation, hparameter⟩
  · obtain ⟨body, hbody, hread⟩ := exists_of_optional
      (hread.field hpart rfl (by decide) Operation.field_requestBody hown) hnull
    refine ⟨body, ?_, hread⟩
    simp only [Document.requestBodies, List.mem_append, List.mem_filterMap]
    exact .inr ⟨operation, hoperation, hbody⟩
  · obtain ⟨room, hread⟩ := hread.field hpart rfl (by decide) Operation.field_responses hown
    refine reached_ordered (lists_of_entries hwell hread) ?_
    refine fun entry hentry part hread => ⟨entry.2, ?_, hread⟩
    simp only [Document.responses, List.mem_append, List.mem_flatMap]
    exact .inr ⟨operation, hoperation, List.mem_map_of_mem hentry⟩

/-! ### Nodes -/

/-- The value of a member of a part that is read to its end. -/
theorem exists_content_of_member? {room : Nat} {value : Value} (hpart : part.WellFormed)
    (hvalue : content ⟨room, part.tree⟩ = .ok value) {fields : Value.Fields}
    (hfields : value.fields? role.names = some fields) {name : String} (hname : name ∈ role.names)
    (hown : part.member? role.names name = some own) :
    ∃ inner field, content ⟨inner, own.tree⟩ = .ok field ∧ fields.lookup name = some field := by
  have hlookup := Cursor.lookup_fields? hname hpart hvalue hfields
  rw [hown] at hlookup
  exact hlookup

/-- The payloads of a record reach the description where their schemas are in it. -/
theorem reached_content {room : Nat} {field : Value} (hown : own.WellFormed)
    (hfield : content ⟨room, own.tree⟩ = .ok field) {payloads : Content}
    (h : Content.ofValue? field = some payloads)
    (hholds : ∀ entry ∈ payloads.entries, ∀ schema, entry.2.schema = some schema →
      document.Holds schema) : document.Reached (.map .mediaType) own := by
  rw [Content.ofValue?_eq] at h
  obtain ⟨entries, hentries, rfl⟩ := Option.map_eq_some_iff.mp h
  have hlists := lists_of_pairs hown hfield (fun _ => rfl) hentries
  exact reached_map hlists fun entry hentry part hread => ⟨entry.2, hholds entry hentry, hread⟩

/-- What counts of a parameter reaches the description. -/
theorem parameter_member (hpart : part.WellFormed) (h : document.Reached .parameter part)
    (hnode : ¬ IsReference part) {name : String} (hname : name ∈ Role.parameter.names)
    (hown : part.member? Role.parameter.names name = some own) (hnull : own.tree ≠ .null) :
    document.Reached (Role.parameter.member (some name)) own := by
  obtain ⟨_, hparameter, room, hread⟩ := h
  obtain ⟨value, parameter, hvalue, hitem, rfl⟩ := exists_inline_of_read hpart hread hnode
  obtain ⟨fields, hfields, hget⟩ := Parameter.get?_schema hitem
  obtain ⟨inner, field, hfield, hlookup⟩ :=
    exists_content_of_member? hpart hvalue hfields hname hown
  simp only [Role.names, Role.members, List.map_cons, List.map_nil, List.mem_cons,
    List.not_mem_nil, or_false] at hname
  rcases hname with rfl | rfl | rfl | rfl | rfl | rfl
  · trivial
  · trivial
  · trivial
  · trivial
  · trivial
  · obtain ⟨schema, hread, hschema⟩ := exists_of_get?_of_content hfield hlookup hnull hget
    exact ⟨schema, .parameter hparameter hschema, inner,
      Cursor.interpreted_eq_ok.mpr ⟨field, hfield, hread⟩⟩

/-- What counts of a request body reaches the description. -/
theorem requestBody_member (hpart : part.WellFormed) (h : document.Reached .requestBody part)
    (hnode : ¬ IsReference part) {name : String} (hname : name ∈ Role.requestBody.names)
    (hown : part.member? Role.requestBody.names name = some own) :
    document.Reached (Role.requestBody.member (some name)) own := by
  obtain ⟨_, hbody, room, hread⟩ := h
  obtain ⟨value, body, hvalue, hitem, rfl⟩ := exists_inline_of_read hpart hread hnode
  obtain ⟨fields, hfields, hget⟩ := RequestBody.getD_content hitem
  obtain ⟨inner, field, hfield, hlookup⟩ :=
    exists_content_of_member? hpart hvalue hfields hname hown
  simp only [Role.names, Role.members, List.map_cons, List.map_nil, List.mem_cons,
    List.not_mem_nil, or_false] at hname
  rcases hname with rfl | rfl | rfl
  · trivial
  · rw [Value.Fields.getD, hlookup] at hget
    exact reached_content (hpart.of_member? hown) hfield hget
      fun entry hentry schema hschema => .requestBody hbody hentry hschema
  · trivial

/-- What counts of a response reaches the description. -/
theorem response_member (hpart : part.WellFormed) (h : document.Reached .response part)
    (hnode : ¬ IsReference part) {name : String} (hname : name ∈ Role.response.names)
    (hown : part.member? Role.response.names name = some own) :
    document.Reached (Role.response.member (some name)) own := by
  obtain ⟨_, hresponse, room, hread⟩ := h
  obtain ⟨value, response, hvalue, hitem, rfl⟩ := exists_inline_of_read hpart hread hnode
  obtain ⟨fields, hfields, hget⟩ := Response.getD_content hitem
  obtain ⟨inner, field, hfield, hlookup⟩ :=
    exists_content_of_member? hpart hvalue hfields hname hown
  simp only [Role.names, Role.members, List.map_cons, List.map_nil, List.mem_cons,
    List.not_mem_nil, or_false] at hname
  rcases hname with rfl | rfl
  · trivial
  · rw [Value.Fields.getD, hlookup] at hget
    exact reached_content (hpart.of_member? hown) hfield hget
      fun entry hentry schema hschema => .response hresponse hentry hschema

/-- The schema of a media type reaches the description. -/
theorem mediaType_member (hpart : part.WellFormed) (h : document.Reached .mediaType part)
    {name : String} (hname : name ∈ Role.mediaType.names)
    (hown : part.member? Role.mediaType.names name = some own) (hnull : own.tree ≠ .null) :
    document.Reached (Role.mediaType.member (some name)) own := by
  obtain ⟨mediaType, hholds, room, hread⟩ := h
  obtain ⟨value, hvalue, hitem⟩ := Cursor.interpreted_eq_ok.mp hread
  obtain ⟨fields, hfields, hget⟩ := MediaType.get?_schema hitem
  obtain ⟨inner, field, hfield, hlookup⟩ :=
    exists_content_of_member? hpart hvalue hfields hname hown
  obtain rfl : name = "schema" := by simpa [Role.names, Role.members] using hname
  obtain ⟨schema, hread, hschema⟩ := exists_of_get?_of_content hfield hlookup hnull hget
  exact ⟨schema, hholds schema hschema, inner,
    Cursor.interpreted_eq_ok.mpr ⟨field, hfield, hread⟩⟩

/-! ### Schemas -/

/-- The variants under a keyword reach the description where it holds them. -/
theorem reached_variants {room : Nat} {field : Value}
    (hfield : content ⟨room, own.tree⟩ = .ok field) {variants : List SchemaNode}
    (h : SchemaNode.listOf? field = some variants)
    (hholds : ∀ variant ∈ variants, document.Holds variant) :
    document.Reached (.list .schema) own := by
  rintro before elements behind rfl part hpart
  obtain ⟨inner, -, items, hitems, rfl⟩ := Cursor.value_list.mp hfield
  obtain ⟨item, hitem, hread⟩ := (exists_of_forall₂ hitems).1 part hpart
  obtain ⟨variant, hvariant, hnode⟩ := (exists_of_forall₂ (mapM_eq_some.mp h)).1 item hitem
  exact ⟨variant, hholds variant hvariant, inner,
    Cursor.interpreted_eq_ok.mpr ⟨item, hread, hnode⟩⟩

/-- The schema for other members is the one node of the shape. -/
theorem exists_others {room : Nat} {field : Value} (hfield : content ⟨room, own.tree⟩ = .ok field)
    {keywords : Keywords} (h : AdditionalProperties.ofValue? field = keywords.additionalProperties)
    (hsome : keywords.additionalProperties ≠ none) (hflag : ∀ flag, own.tree ≠ .bool flag) :
    ∃ node ∈ keywords.shape.nodes, SchemaNode.ofValue? field = some node := by
  obtain ⟨others, hothers⟩ := Option.ne_none_iff_exists'.mp hsome
  rw [hothers, AdditionalProperties.ofValue?] at h
  split at h
  · next flag hbool =>
    obtain rfl : field = .bool flag := by
      cases field <;> cases hbool
      rfl
    exact absurd (((content_literal_iff hfield).2.1 flag).mp rfl) (hflag flag)
  · obtain ⟨node, hnode, rfl⟩ := Option.map_eq_some_iff.mp h
    refine ⟨node, ?_, hnode⟩
    simp [Keywords.shape, hothers, Shape.nodes]

/-- What counts of a schema reaches the description: its nodes under the keyword that decides. -/
theorem schema_member (hpart : part.WellFormed) (h : document.Reached .schema part)
    (hnode : ¬ IsReference part) {name : String} (hdecides : Decides part name)
    (hown : part.member? Role.schema.names name = some own) (hnull : own.tree ≠ .null) :
    document.Reached (Role.schema.member (some name)) own := by
  obtain ⟨_, hholds, room, hread⟩ := h
  obtain ⟨fields, keywords, hkeywords, rfl⟩ := keywords_of_read hpart hread hnode
  have hinside : ∀ node ∈ keywords.shape.nodes, document.Holds node :=
    fun node hmem => .inside hholds hmem
  have hheld := hkeywords.holds
  -- the keyword that decides tells the shape, and the nodes of the shape are in the description
  cases hdecides with
  | additionalProperties hothers =>
    obtain ⟨inner, field, value, hfield, hvalue, hsome⟩ :=
      hkeywords.exists_of_member? (by decide) hheld.additionalProperties hown hnull
    have hflag : ∀ flag, own.tree ≠ .bool flag := by
      intro flag hflag
      refine hothers fun other hother => .inr ⟨flag, ?_⟩
      rwa [Option.some.inj (hother.symm.trans hown)]
    obtain ⟨node, hmem, hnode⟩ :=
      exists_others hfield (hvalue.trans hsome.symm) (by simp [hsome]) hflag
    exact ⟨node, hinside node hmem, inner, Cursor.interpreted_eq_ok.mpr ⟨field, hfield, hnode⟩⟩
  | oneOf hothers henum =>
    obtain ⟨inner, field, variants, hfield, hread, hsome⟩ :=
      hkeywords.exists_of_member? (by decide) hheld.oneOf hown hnull
    have hshape : keywords.shape = .oneOf variants := by
      rw [hkeywords.shape_eq hothers henum, hsome]
    rw [hshape] at hinside
    exact reached_variants hfield hread hinside
  | anyOf hothers henum honeOf =>
    obtain ⟨inner, field, variants, hfield, hread, hsome⟩ :=
      hkeywords.exists_of_member? (by decide) hheld.anyOf hown hnull
    have hshape : keywords.shape = .anyOf variants := by
      rw [hkeywords.shape_eq hothers henum, hkeywords.eq_none (by decide) hheld.oneOf honeOf, hsome]
    rw [hshape] at hinside
    exact reached_variants hfield hread hinside
  | allOf hothers henum honeOf hanyOf =>
    obtain ⟨inner, field, variants, hfield, hread, hsome⟩ :=
      hkeywords.exists_of_member? (by decide) hheld.allOf hown hnull
    have hshape : keywords.shape = .allOf variants keywords.properties keywords.required := by
      rw [hkeywords.shape_eq_of_no_alternatives hothers henum honeOf hanyOf, hsome]
    rw [hshape] at hinside
    exact reached_variants hfield hread fun variant hvariant =>
      hinside variant (List.mem_append_left _ hvariant)
  | items hothers henum honeOf hanyOf hallOf htype =>
    obtain ⟨inner, field, node, hfield, hread, hsome⟩ :=
      hkeywords.exists_of_member? (by decide) hheld.items hown hnull
    have hshape : keywords.shape = .array (some node) := by
      rw [hkeywords.shape_eq_of_no_alternatives hothers henum honeOf hanyOf,
        hkeywords.eq_none (by decide) hheld.allOf hallOf]
      simp only [Keywords.typedShape, hkeywords.mainType?_eq, htype, hsome]
    rw [hshape] at hinside
    exact ⟨node, hinside node (List.mem_singleton_self node), inner,
      Cursor.interpreted_eq_ok.mpr ⟨field, hfield, hread⟩⟩
  | properties hobject =>
    have hlists := hkeywords.lists
    rw [membersUnder, hown] at hlists
    refine reached_ordered hlists fun entry hentry part hread => ⟨entry.2, ?_, hread⟩
    exact hinside entry.2
      (mem_nodes_of_properties? (hkeywords.properties?_of_isObject hobject) hentry)

/-- What counts of a record that has reached the description reaches it too. -/
theorem member (hpart : part.WellFormed) (h : document.Reached role part) {name : String}
    (hname : name ∈ role.names) (hown : part.member? role.names name = some own)
    (hnull : own.tree ≠ .null) (hnode : role.mayRefer = true → ¬ IsReference part)
    (hschema : role = .schema → Decides part name) :
    document.Reached (role.member (some name)) own := by
  cases role with
  | document => exact h.document_member hpart hname hown
  | components => exact h.components_member hpart hname hown
  | pathItem => exact h.pathItem_member hpart hname hown hnull
  | operation => exact h.operation_member hpart hname hown hnull
  | parameter => exact h.parameter_member hpart (hnode rfl) hname hown hnull
  | requestBody => exact h.requestBody_member hpart (hnode rfl) hname hown
  | response => exact h.response_member hpart (hnode rfl) hname hown
  | mediaType => exact h.mediaType_member hpart hname hown hnull
  | schema => exact h.schema_member hpart (hnode rfl) (hschema rfl) hown hnull
  | info =>
    simp only [Role.names, Role.members, List.map_cons, List.map_nil, List.mem_cons,
      List.not_mem_nil, or_false] at hname
    rcases hname with rfl | rfl | rfl <;> trivial
  | map | ordered | list | plain | ignored => cases hname

end Document.Reached

/-- Every part that counts has reached the description that is read of the text. -/
theorem Counts.reached {root : Written} (hroot : root.WellFormed)
    (hread : Reads (Document.read (m := Result)) root document) (h : Counts root role part) :
    document.Reached role part := by
  induction h with
  | whole => exact hread
  | member h hname hown hnull hnode hschema ih =>
    exact ih.member (h.inside.wellFormed hroot) hname hown hnull hnode hschema
  | entry _ hlast ih => exact ih _ _ _ _ _ _ rfl hlast
  | ordered _ hmember ih => exact ih _ hmember
  | element _ hown ih => exact ih _ _ _ rfl _ hown

end Protoscribe.OpenApi
