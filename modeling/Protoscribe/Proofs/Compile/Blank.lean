import Protoscribe.Proofs.Compile.Filled
import Protoscribe.Proofs.Draft.Nested

/-!
# `Protoscribe.Proofs.Compile.Blank`: which schemas compile to nothing

A schema is blank when nothing in it has a type: it asks for nothing, or all that it asks for is
blank (`Blank`). The schemas that compile to nothing are the blank ones. `Derives.blank` and
`Derives.isEmpty_of_vain` follow the rules of a derivation, given that references to nothing are
those to blank components, and `Justified.eq_nothing_iff` sees to that, component by component in
the order in which they were finished. So a member of a message gets its field unless its schema is
blank (`Derives.mem_fieldNames_of_property`).
-/

set_option autoImplicit false

namespace Protoscribe

namespace MessageDraft

variable {draft other : MessageDraft}

/-- A message is empty when it has no fields and no nested types. -/
theorem isEmpty_iff_typeNames :
    draft.isEmpty = true ↔ draft.fields = [] ∧ draft.typeNames = [] := by
  simp [isEmpty_iff, typeNames]

/-- After a field is offered, there is one. -/
theorem InStep.isEmpty_addField (h : InStep draft) (field : FieldDraft) :
    (draft.addField field).isEmpty = false := by
  rw [← Bool.not_eq_true, isEmpty_iff]
  exact fun hempty => h.fields_addField_ne_nil field hempty.1

/-- Another order does not fill a message. -/
@[simp] theorem isEmpty_moveToFront (draft : MessageDraft) (order : List String) :
    (draft.moveToFront order).isEmpty = draft.isEmpty := by
  rw [Bool.eq_iff_iff, isEmpty_iff, isEmpty_iff, fields_moveToFront_eq_nil_iff]
  exact Iff.rfl

/-- A merged message is empty only if both are. -/
theorem InStep.isEmpty_of_merge (hstep : InStep draft)
    (h : (draft.merge other).isEmpty = true) :
    draft.isEmpty = true ∧ other.isEmpty = true := by
  obtain ⟨hfields, htypes⟩ := isEmpty_iff_typeNames.mp h
  obtain ⟨hdraft, hother⟩ := hstep.fields_eq_nil_of_merge hfields
  refine ⟨isEmpty_iff_typeNames.mpr ⟨hdraft, ?_⟩, isEmpty_iff_typeNames.mpr ⟨hother, ?_⟩⟩
  · exact List.subset_nil.mp (htypes ▸ typeNames_subset_merge_left)
  · exact List.subset_nil.mp (htypes ▸ hstep.typeNames_subset_merge_right)

/-- Two empty messages make an empty one. -/
theorem isEmpty_merge (hdraft : draft.isEmpty = true) (hother : other.isEmpty = true) :
    (draft.merge other).isEmpty = true := by
  rw [isEmpty_iff] at hdraft hother
  obtain ⟨hfields, hmessages, henums⟩ := hother
  rw [isEmpty_iff]
  simpa [merge, hfields, hmessages, henums] using hdraft

end MessageDraft

namespace Compile

open OpenApi (Document Schema SchemaNode Section Shape)

/-- Nothing in the schema has a type. -/
inductive Blank (document : Document) : SchemaNode → Prop
  | ref {reference key : String} {target : SchemaNode}
      (hkey : Section.schemas.key? reference = some key)
      (htarget : document.components.schemas.find? key = some target) (h : Blank document target) :
      Blank document (.ref reference)
  | any {schema : Schema} (hshape : schema.shape = .any) : Blank document (.inline schema)
  | bareList {schema : Schema} (hshape : schema.shape = .array none) :
      Blank document (.inline schema)
  | list {schema : Schema} {items : SchemaNode} (hshape : schema.shape = .array (some items))
      (h : Blank document items) : Blank document (.inline schema)
  | map {schema : Schema} {value : SchemaNode} (hshape : schema.shape = .map value)
      (h : Blank document value) : Blank document (.inline schema)
  | union {schema : Schema} {variants : List SchemaNode}
      (hshape : schema.shape = .oneOf variants ∨ schema.shape = .anyOf variants)
      (h : ∀ variant ∈ variants, Blank document variant) : Blank document (.inline schema)
  | object {schema : Schema} {properties : List (String × SchemaNode)} {required : List String}
      (hshape : schema.shape = .object properties required)
      (h : ∀ property ∈ properties, Blank document property.2) : Blank document (.inline schema)
  /-- Of the variants, only objects count. -/
  | combined {schema : Schema} {variants : List SchemaNode}
      {properties : List (String × SchemaNode)} {required : List String}
      (hshape : schema.shape = .allOf variants properties required)
      (hvariants : ∀ variant ∈ variants, ∀ absorbed,
        LeadsTo .schemas document.components.schemas variant absorbed →
          absorbed.isObject = true → Blank document (.inline absorbed))
      (h : ∀ property ∈ properties, Blank document property.2) : Blank document (.inline schema)

/-- A variant of `allOf` adds nothing. -/
def AbsorbsNothing (document : Document) (variant : SchemaNode) : Prop :=
  ∀ absorbed, LeadsTo .schemas document.components.schemas variant absorbed →
    absorbed.isObject = true → Blank document (.inline absorbed)

/-- What a shape has to be like for its schema to be blank. -/
def BlankShape (document : Document) : Shape SchemaNode → Prop
  | .any | .array none => True
  | .array (some items) => Blank document items
  | .map value => Blank document value
  | .oneOf variants | .anyOf variants => ∀ variant ∈ variants, Blank document variant
  | .object properties _ => ∀ property ∈ properties, Blank document property.2
  | .allOf variants properties _ =>
    (∀ variant ∈ variants, AbsorbsNothing document variant) ∧
      ∀ property ∈ properties, Blank document property.2
  | .boolean | .integer _ | .number _ | .string _ | .enum _ => False

/-- A blank schema has a blank shape. -/
theorem Blank.blankShape {document : Document} {schema : Schema}
    (h : Blank document (.inline schema)) : BlankShape document schema.shape := by
  cases h with
  | any hshape => rw [hshape]; trivial
  | bareList hshape => rw [hshape]; trivial
  | list hshape h => rw [hshape]; exact h
  | map hshape h => rw [hshape]; exact h
  | union hshape h =>
    rcases hshape with hshape | hshape
    · rw [hshape]; exact h
    · rw [hshape]; exact h
  | object hshape h => rw [hshape]; exact h
  | combined hshape hvariants h => rw [hshape]; exact ⟨hvariants, h⟩

/-! ### Derivations -/

/-- The schemas of a task are blank, and the message that it starts from is empty. -/
def Task.Vain (document : Document) : Task → Prop
  | .node _ whole => Blank document whole
  | .schema _ content | .shape _ content => Blank document (.inline content)
  | .slot parent _ whole => parent.isEmpty = true ∧ Blank document whole
  | .slots parent entries => parent.isEmpty = true ∧ ∀ entry ∈ entries, Blank document entry.2
  | .absorb draft whole => draft.isEmpty = true ∧ AbsorbsNothing document whole
  | .absorbAll draft wholes =>
    draft.isEmpty = true ∧ ∀ whole ∈ wholes, AbsorbsNothing document whole

/-- A message that is left out is empty. -/
theorem isEmpty_of_filter {draft : MessageDraft}
    (h : (some draft).filter (!·.isEmpty) = none) : draft.isEmpty = true := by
  simpa [Option.filter_eq_none_iff] using h

/-- Every variant has a slot. -/
theorem exists_slot_of_mem {name : String} {variants : List SchemaNode} {variant : SchemaNode}
    (h : variant ∈ variants) : ∃ slot, (slot, variant) ∈ variantSlots name variants := by
  obtain ⟨index, hindex, rfl⟩ := List.mem_iff_getElem.mp h
  refine ⟨_, List.mem_map.mpr ⟨(variants[index], index), ?_, rfl⟩⟩
  simp [List.mem_zipIdx_iff_getElem?, hindex]

section

variable {job : Job} {facts : Facts}

/-- The wrapper of a scalar has a field. -/
theorem isEmpty_scalarWrapper (name : String) (schema : Schema) (type : FieldType) :
    (some (scalarWrapper name schema type)).filter (!·.isEmpty) =
      some (scalarWrapper name schema type) := by
  have hempty : (scalarWrapper name schema type).isEmpty = false :=
    (inStep_fresh _ _ _).isEmpty_addField _
  simp [hempty]

/-- Only tasks that are in vain lead to nothing, where references to nothing are to blank
components. -/
theorem Derives.blank
    (hnothing : ∀ reference, facts.Names job reference .nothing →
      Blank job.document (.ref reference))
    {task : Task} {compiled : Option MessageDraft} (h : Derives job facts task compiled)
    (hstart : task.InStep) (hempty : compiled.filter (!·.isEmpty) = none) :
    task.Vain job.document := by
  -- by the rules of the derivation; a message with a field is not empty
  induction h with
  | inline _ ih => exact ih (.of_none rfl) hempty
  | expanded hkey htarget _ ih => exact .ref hkey htarget (ih (.of_none rfl) hempty)
  | unordered _ _ ih => exact ih (.of_none rfl) hempty
  | ordered _ ih =>
    rw [Option.filter_eq_none_iff] at hempty
    exact ih (.of_none rfl) (by simpa using hempty)
  | map hshape _ ih => exact .map hshape (ih (.of_none rfl) hempty)
  | enum _ hrun =>
    obtain ⟨⟨enum, -, rfl⟩, -⟩ := enumCarrier_eq_ok hrun
    simp [MessageDraft.isEmpty] at hempty
  | union hshape _ ih =>
    refine .union hshape fun variant hvariant => ?_
    obtain ⟨slot, hslot⟩ := exists_slot_of_mem hvariant
    exact (ih (.of_some rfl (unionStart_inStep _ _)) hempty).2 _ hslot
  | combined hshape hmerges _ ihmerged ih =>
    have hgrown := hmerges.inStep (.of_some rfl (inStep_fresh _ _ _)) _ rfl
    obtain ⟨hmerged, hproperties⟩ := ih (.of_some rfl hgrown) hempty
    have hfresh := ihmerged (.of_some rfl (inStep_fresh _ _ _)) (by simp [hmerged])
    refine .combined hshape hfresh.2 fun property hproperty => ?_
    exact hproperties _ (List.mem_map_of_mem hproperty)
  | scalar _ =>
    rw [isEmpty_scalarWrapper] at hempty
    cases hempty
  | bareList hshape => exact .bareList hshape
  | list hshape _ ih => exact .list hshape (ih (.of_some rfl (inStep_fresh _ _ _)) hempty).2
  | object hshape _ ih =>
    exact .object hshape fun property hproperty =>
      (ih (.of_some rfl (inStep_fresh _ _ _)) hempty).2 _ (List.mem_map_of_mem hproperty)
  | any hshape => exact .any hshape
  | slotsNil => exact ⟨isEmpty_of_filter hempty, by simp⟩
  | slotsCons hfills _ ihfirst ih =>
    obtain ⟨hfilled, hrest⟩ := ih (.of_some rfl (hfills.inStep hstart _ rfl)) hempty
    obtain ⟨hparent, hfirst⟩ := ihfirst hstart (by simp [hfilled])
    exact ⟨hparent, List.forall_mem_cons.mpr ⟨hfirst, hrest⟩⟩
  | @reference parent slot _ result hnames =>
    have hempty := isEmpty_of_filter hempty
    have hparent : parent.InStep := hstart _ rfl
    cases result with
    | message type =>
      rw [Slot.refer, hparent.isEmpty_addField] at hempty
      cases hempty
    | enum type =>
      rw [Slot.refer, hparent.isEmpty_addField] at hempty
      cases hempty
    | nothing => exact ⟨hempty, hnothing _ hnames⟩
  | skipped hskipped _ ih => exact ⟨isEmpty_of_filter hempty, ih (.of_none rfl) hskipped⟩
  | taken _ htaken _ _ _ =>
    have hgrown := htaken.inStep (hstart _ rfl)
    have hempty := isEmpty_of_filter hempty
    rw [hgrown.isEmpty_addField] at hempty
    cases hempty
  | absorbNil => exact ⟨isEmpty_of_filter hempty, by simp⟩
  | absorbCons habsorbs _ ihfirst ih =>
    obtain ⟨hmerged, hrest⟩ := ih (.of_some rfl (habsorbs.inStep hstart _ rfl)) hempty
    obtain ⟨hdraft, hfirst⟩ := ihfirst hstart (by simp [hmerged])
    exact ⟨hdraft, List.forall_mem_cons.mpr ⟨hfirst, hrest⟩⟩
  | absorbReference hkey htarget _ ih =>
    obtain ⟨hdraft, hblank⟩ := ih hstart hempty
    refine ⟨hdraft, fun absorbed hleads => hblank absorbed ?_⟩
    cases hleads with
    | ref hkey' htarget' hleads =>
      cases hkey.symm.trans hkey'
      cases htarget.symm.trans htarget'
      exact hleads
  | ignored hobject =>
    refine ⟨isEmpty_of_filter hempty, fun absorbed hleads hisObject => ?_⟩
    cases hleads
    exact absurd (hobject.symm.trans hisObject) (by decide)
  | absorbNothing _ _ ih =>
    refine ⟨isEmpty_of_filter hempty, fun absorbed hleads _ => ?_⟩
    cases hleads
    exact ih (.of_none rfl) rfl
  | merged _ _ ih =>
    have hstep : MessageDraft.InStep _ := hstart _ rfl
    obtain ⟨hdraft, hchild⟩ := hstep.isEmpty_of_merge (isEmpty_of_filter hempty)
    refine ⟨hdraft, fun absorbed hleads _ => ?_⟩
    cases hleads
    exact ih (.of_none rfl) (by simp [hchild])

/-- Tasks that are in vain lead to nothing, where references to blank components are to nothing. -/
theorem Derives.isEmpty_of_vain
    (hnothing : ∀ reference result, facts.Names job reference result →
      Blank job.document (.ref reference) → result = .nothing)
    {task : Task} {compiled : Option MessageDraft} (h : Derives job facts task compiled)
    (hvain : task.Vain job.document) : compiled.filter (!·.isEmpty) = none := by
  have hfilter {draft : MessageDraft} (hempty : draft.isEmpty = true) :
      (some draft).filter (!·.isEmpty) = none := by simp [hempty]
  -- by the rules of the derivation; the shape says what is blank inside the schema
  induction h with
  | inline _ ih => exact ih hvain
  | expanded hkey htarget _ ih =>
    cases hvain with
    | ref hkey' htarget' hblank =>
      cases hkey.symm.trans hkey'
      cases htarget.symm.trans htarget'
      exact ih hblank
  | unordered _ _ ih => exact ih hvain
  | ordered _ ih =>
    have hempty := isEmpty_of_filter (ih hvain)
    exact hfilter (by rwa [MessageDraft.isEmpty_moveToFront])
  | map hshape _ ih =>
    have hblank := Blank.blankShape hvain
    rw [hshape] at hblank
    exact ih hblank
  | enum hshape _ =>
    have hblank := Blank.blankShape hvain
    rw [hshape] at hblank
    exact hblank.elim
  | @union name schema variants _ hshape _ ih =>
    have hblank : ∀ variant ∈ variants, Blank job.document variant := by
      have hblank := Blank.blankShape hvain
      rcases hshape with hshape | hshape
      · rwa [hshape] at hblank
      · rwa [hshape] at hblank
    refine ih ⟨rfl, fun entry hentry => ?_⟩
    obtain ⟨variant, hvariant, rfl⟩ := List.mem_map.mp hentry
    exact hblank _ (List.fst_mem_of_mem_zipIdx hvariant)
  | combined hshape _ _ ihmerged ih =>
    have hblank := Blank.blankShape hvain
    rw [hshape] at hblank
    obtain ⟨hvariants, hproperties⟩ := hblank
    refine ih ⟨isEmpty_of_filter (ihmerged ⟨rfl, hvariants⟩), fun entry hentry => ?_⟩
    obtain ⟨property, hproperty, rfl⟩ := List.mem_map.mp hentry
    exact hproperties property hproperty
  | @scalar name schema type htype =>
    have hblank := Blank.blankShape hvain
    cases hshape : schema.shape <;> simp [hshape, scalarType?, BlankShape] at htype hblank
  | bareList _ => rfl
  | list hshape _ ih =>
    have hblank := Blank.blankShape hvain
    rw [hshape] at hblank
    exact ih ⟨rfl, hblank⟩
  | object hshape _ ih =>
    have hblank := Blank.blankShape hvain
    rw [hshape] at hblank
    refine ih ⟨rfl, fun entry hentry => ?_⟩
    obtain ⟨property, hproperty, rfl⟩ := List.mem_map.mp hentry
    exact hblank property hproperty
  | any _ => rfl
  | slotsNil => exact hfilter hvain.1
  | slotsCons _ _ ihfirst ih =>
    obtain ⟨hparent, hblank⟩ := hvain
    obtain ⟨hfirst, hrest⟩ := List.forall_mem_cons.mp hblank
    exact ih ⟨isEmpty_of_filter (ihfirst ⟨hparent, hfirst⟩), hrest⟩
  | reference hnames =>
    obtain ⟨hparent, hblank⟩ := hvain
    cases hnothing _ _ hnames hblank
    exact hfilter hparent
  | skipped _ _ _ => exact hfilter hvain.1
  | taken hchild _ _ _ ih =>
    have hempty := isEmpty_of_filter (ih hvain.2)
    rw [hchild] at hempty
    cases hempty
  | absorbNil => exact hfilter hvain.1
  | absorbCons _ _ ihfirst ih =>
    obtain ⟨hdraft, hnothing⟩ := hvain
    obtain ⟨hfirst, hrest⟩ := List.forall_mem_cons.mp hnothing
    exact ih ⟨isEmpty_of_filter (ihfirst ⟨hdraft, hfirst⟩), hrest⟩
  | absorbReference hkey htarget _ ih =>
    obtain ⟨hdraft, hnothing⟩ := hvain
    exact ih ⟨hdraft, fun absorbed hleads => hnothing absorbed (.ref hkey htarget hleads)⟩
  | ignored _ => exact hfilter hvain.1
  | absorbNothing _ _ _ => exact hfilter hvain.1
  | merged hobject _ ih =>
    obtain ⟨hdraft, hnothing⟩ := hvain
    have hchild := isEmpty_of_filter (ih (hnothing _ .inline hobject))
    exact hfilter (MessageDraft.isEmpty_merge hdraft hchild)

end

/-! ### States -/

/-- What holds of a component when it holds of all components that were finished before it holds of
every component. -/
theorem Justified.finished_induction {job : Job} {s : State} (h : Justified job s)
    {P : SchemaNode → ComponentType → Prop}
    (hstep : ∀ {hint node compiled facts result}, Derives job facts (.node hint node) compiled →
      Became s.file compiled result →
      (∀ {key target inner}, job.document.components.schemas.find? key = some target →
        facts.schemas.lookup key = some inner → P target inner) →
      P node result)
    {key : String} {node : SchemaNode} {result : ComponentType}
    (hnode : job.document.components.schemas.find? key = some node)
    (hresult : (key, result) ∈ s.schemas) : P node result := by
  obtain ⟨before, after, hsplit⟩ := List.append_of_mem hresult
  -- by the number of components that were finished before it
  induction hlength : before.length using Nat.strongRecOn
    generalizing before key node result after with
  | ind length ih =>
    obtain ⟨node', compiled, facts, hnode', -, rfl, hderives, hbecame⟩ :=
      h.schemas before key result after hsplit
    cases hnode.symm.trans hnode'
    refine hstep hderives hbecame fun {key' target inner} htarget hinner => ?_
    obtain ⟨first, rest, hparts⟩ := List.append_of_mem (Table.mem_of_lookup_eq_some hinner)
    have hshorter : first.length < length := by
      rw [← hlength, hparts, List.length_append, List.length_cons]
      omega
    have hsplit' :
        s.schemas = first ++ (key', inner) :: (rest ++ (key, result) :: after) := by
      rw [hsplit, hparts]
      simp
    exact ih first.length hshorter htarget (hsplit' ▸ by simp) first _ hsplit' rfl

/-- The blank components are those that became nothing. -/
theorem Justified.eq_nothing_iff {job : Job} {s : State} (h : Justified job s) {key : String}
    {node : SchemaNode} {result : ComponentType}
    (hnode : job.document.components.schemas.find? key = some node)
    (hresult : (key, result) ∈ s.schemas) : result = .nothing ↔ Blank job.document node := by
  -- in the order in which components are finished, so that references lead to earlier ones
  refine h.finished_induction (P := fun node result => result = .nothing ↔ Blank job.document node)
    (fun {hint node compiled facts result} hderives hbecame ih => ?_) hnode hresult
  constructor
  · rintro rfl
    cases hbecame with
    | nothing hempty =>
      refine hderives.blank (fun reference hnames => ?_) (.of_none rfl) hempty
      obtain ⟨inner, target, hkey, htarget, hinner⟩ := hnames
      exact .ref hkey htarget ((ih htarget hinner).mp rfl)
  · intro hblank
    have hempty : compiled.filter (!·.isEmpty) = none := by
      refine hderives.isEmpty_of_vain (fun reference inner hnames hreference => ?_) hblank
      obtain ⟨key, target, hkey, htarget, hinner⟩ := hnames
      cases hreference with
      | ref hkey' htarget' hblank =>
        cases hkey.symm.trans hkey'
        cases htarget.symm.trans htarget'
        exact (ih htarget hinner).mpr hblank
    cases hbecame with
    | nothing _ => rfl
    | enum hfilled _ _ =>
      rw [isEmpty_of_filter hempty] at hfilled
      cases hfilled
    | message hfilled _ _ =>
      rw [isEmpty_of_filter hempty] at hfilled
      cases hfilled

/-- References to nothing are those to blank components. -/
theorem Justified.names_nothing_iff {job : Job} {s : State} (h : Justified job s)
    {reference : String} {result : ComponentType} (hnames : s.facts.Names job reference result) :
    result = .nothing ↔ Blank job.document (.ref reference) := by
  obtain ⟨key, node, hkey, hnode, hresult⟩ := hnames
  rw [h.eq_nothing_iff hnode (Table.mem_of_lookup_eq_some hresult)]
  constructor
  · exact .ref hkey hnode
  · rintro ⟨hkey', hnode', hblank⟩
    cases hkey.symm.trans hkey'
    cases hnode.symm.trans hnode'
    exact hblank

/-- References to nothing are to blank components. -/
theorem Justified.blank_of_names {job : Job} {s : State} (h : Justified job s) {reference : String}
    (hnames : s.facts.Names job reference .nothing) : Blank job.document (.ref reference) :=
  (h.names_nothing_iff hnames).mp rfl

/-- Blank schemas are those that compile to nothing. -/
theorem Justified.isEmpty_iff_blank {job : Job} {s : State} (h : Justified job s) {hint : String}
    {schema : Schema} {compiled : Option MessageDraft}
    (hderives : Derives job s.facts (.schema hint schema) compiled) :
    compiled.filter (!·.isEmpty) = none ↔ Blank job.document (.inline schema) := by
  constructor
  · exact hderives.blank (fun _ => h.blank_of_names) (.of_none rfl)
  · exact hderives.isEmpty_of_vain fun _ _ hnames => (h.names_nothing_iff hnames).mpr

end Compile

end Protoscribe
