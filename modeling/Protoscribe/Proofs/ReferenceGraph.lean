import Mathlib.Order.WellFounded
import Protoscribe.Proofs.Compile.Outcome

/-!
# `Protoscribe.Proofs.ReferenceGraph`: references lead to components and never in a circle

A component depends on the components that it refers to. Two mechanisms follow its references: a
member that refers to a component needs what that component became, and a reference that stands for
a whole schema or for a variant of `allOf` is expanded in place. `Meets` says which references a
walk through a component meets, and `Edge` is the graph that they make.

* `Derives.settled`: where a compilation has succeeded, the members of a schema refer to components
  that were finished before, and what is expanded in place is settled in the same way
  (`Settled`).
* `Settled.acc`: so every walk along edges from a component ends.
* `references_closed_and_acyclic`: every reference that is met names a component, and the graph has
  no cycle.
-/

set_option autoImplicit false

namespace Protoscribe.Compile

open OpenApi (Document Referable Schema SchemaNode Section Shape)

/-! ### The graph -/

/-- How a schema is used where it stands. -/
inductive Place where
  /-- It stands for the whole schema around it. -/
  | inPlace
  /-- It is the type of a property, of the item of a list, or of a variant of a union. -/
  | member
  /-- It is a variant of `allOf`. -/
  | variant
  deriving DecidableEq

/-- The schemas right below a shape, each with its place. -/
def parts : Shape SchemaNode → List (Place × SchemaNode)
  | .map value => [(.inPlace, value)]
  | .oneOf variants => variants.map (Place.member, ·)
  | .anyOf variants => variants.map (Place.member, ·)
  | .allOf variants properties _ =>
    variants.map (Place.variant, ·) ++ properties.map fun property => (.member, property.2)
  | .array items => items.toList.map (Place.member, ·)
  | .object properties _ => properties.map fun property => (.member, property.2)
  | _ => []

/-- A walk from a node in a place meets a reference, in the place `use`. The walk goes down through
inline schemas, except for variants of `allOf` that are no objects. -/
inductive Meets : Place → SchemaNode → Place → String → Prop
  | here {place : Place} {reference : String} : Meets place (.ref reference) place reference
  | inside {place use : Place} {schema : Schema} {part : Place × SchemaNode} {reference : String}
      (hwalked : place = .variant → schema.isObject = true) (hpart : part ∈ parts schema.shape)
      (h : Meets part.1 part.2 use reference) : Meets place (.inline schema) use reference

/-- Following the references from a node ends in an object. -/
inductive EndsInObject (document : Document) : SchemaNode → Prop
  | inline {schema : Schema} (hobject : schema.isObject = true) :
      EndsInObject document (.inline schema)
  | ref {reference key : String} {target : SchemaNode}
      (hkey : Section.schemas.key? reference = some key)
      (htarget : document.components.schemas.find? key = some target)
      (h : EndsInObject document target) : EndsInObject document (.ref reference)

/-- A walk through the component `source` meets a reference to the component `target`. A variant of
`allOf` counts when it ends in an object. -/
def Edge (document : Document) (source target : String) : Prop :=
  ∃ node use reference, document.components.schemas.find? source = some node ∧
    Meets .inPlace node use reference ∧ Section.schemas.key? reference = some target ∧
    (use = .variant → EndsInObject document (.ref reference))

/-! ### What a compilation settles -/

/-- All references from a node are settled: members refer to components of `done`, and what is
expanded in place is settled itself. -/
inductive Settled (document : Document) (done : List String) : Place → SchemaNode → Prop
  | member {reference key : String} {target : SchemaNode}
      (hkey : Section.schemas.key? reference = some key)
      (htarget : document.components.schemas.find? key = some target) (hdone : key ∈ done) :
      Settled document done .member (.ref reference)
  | expanded {place : Place} {reference key : String} {target : SchemaNode}
      (hplace : place ≠ .member) (hkey : Section.schemas.key? reference = some key)
      (htarget : document.components.schemas.find? key = some target)
      (h : Settled document done place target) : Settled document done place (.ref reference)
  | ignored {schema : Schema} (hobject : schema.isObject = false) :
      Settled document done .variant (.inline schema)
  | inline {place : Place} {schema : Schema}
      (h : ∀ part ∈ parts schema.shape, Settled document done part.1 part.2) :
      Settled document done place (.inline schema)

/-- What is settled when a task is through. -/
def Task.Settles (document : Document) (done : List String) : Task → Prop
  | .node _ whole => Settled document done .inPlace whole
  | .schema _ whole => Settled document done .inPlace (.inline whole)
  | .shape _ whole => Settled document done .inPlace (.inline whole)
  | .slot _ _ filling => Settled document done .member filling
  | .slots _ fillings => ∀ filling ∈ fillings, Settled document done .member filling.2
  | .absorb _ variant => Settled document done .variant variant
  | .absorbAll _ variants => ∀ variant ∈ variants, Settled document done .variant variant

/-- The parts of an inline schema are settled in whatever place it stands. -/
theorem Settled.move {document : Document} {done : List String} {schema : Schema} (place : Place)
    (h : Settled document done .inPlace (.inline schema)) :
    Settled document done place (.inline schema) := by
  cases h with
  | inline h => exact .inline h

/-- A derivation settles the references that it went through, by the components that were known. -/
theorem Derives.settled {job : Job} {facts : Facts} {task : Task}
    {compiled : Option MessageDraft} (h : Derives job facts task compiled) :
    task.Settles job.document (facts.schemas.map (·.1)) := by
  -- a reference in place was followed, and one in a member has its result among the facts
  induction h with
  | inline _ ih => exact ih
  | expanded hkey htarget _ ih => exact Settled.expanded (by decide) hkey htarget ih
  | unordered _ _ ih => exact ih
  | ordered _ ih => exact ih
  | map hshape _ ih =>
    refine Settled.inline fun part hpart => ?_
    rw [hshape] at hpart
    cases List.mem_singleton.mp hpart
    exact ih
  | enum hshape _ => exact Settled.inline (by simp [hshape, parts])
  | @union name schema variants _ hshape _ ih =>
    refine Settled.inline fun part hpart => ?_
    have hparts : parts schema.shape = variants.map (Place.member, ·) := by
      rcases hshape with hshape | hshape <;> rw [hshape] <;> rfl
    rw [hparts] at hpart
    obtain ⟨variant, hvariant, rfl⟩ := List.mem_map.mp hpart
    rw [← List.zipIdx_map_fst 0 variants] at hvariant
    obtain ⟨indexed, hindexed, rfl⟩ := List.mem_map.mp hvariant
    exact ih _ (List.mem_map_of_mem hindexed)
  | combined hshape _ _ ihvariants ihproperties =>
    refine Settled.inline fun part hpart => ?_
    rw [hshape] at hpart
    rcases List.mem_append.mp hpart with hpart | hpart
    · obtain ⟨variant, hvariant, rfl⟩ := List.mem_map.mp hpart
      exact ihvariants variant hvariant
    · obtain ⟨property, hproperty, rfl⟩ := List.mem_map.mp hpart
      exact ihproperties _ (List.mem_map_of_mem hproperty)
  | @scalar name schema type hshape =>
    refine Settled.inline fun part hpart => ?_
    cases hkind : schema.shape <;> simp [hkind, scalarType?, parts] at hshape hpart
  | bareList hshape => exact Settled.inline (by simp [hshape, parts])
  | list hshape _ ih =>
    refine Settled.inline fun part hpart => ?_
    rw [hshape] at hpart
    cases List.mem_singleton.mp hpart
    exact ih
  | object hshape _ ih =>
    refine Settled.inline fun part hpart => ?_
    rw [hshape] at hpart
    obtain ⟨property, hproperty, rfl⟩ := List.mem_map.mp hpart
    exact ih _ (List.mem_map_of_mem hproperty)
  | any hshape => exact Settled.inline (by simp [hshape, parts])
  | slotsNil => simp [Task.Settles]
  | slotsCons _ _ ihfirst ih => exact List.forall_mem_cons.mpr ⟨ihfirst, ih⟩
  | reference hnames =>
    obtain ⟨key, target, hkey, htarget, hresult⟩ := hnames
    exact Settled.member hkey htarget (List.mem_map_of_mem (Table.mem_of_lookup_eq_some hresult))
  | skipped _ _ ih => exact Settled.move .member ih
  | taken _ _ _ _ ih => exact Settled.move .member ih
  | absorbNil => simp [Task.Settles]
  | absorbCons _ _ ihfirst ih => exact List.forall_mem_cons.mpr ⟨ihfirst, ih⟩
  | absorbReference hkey htarget _ ih => exact Settled.expanded (by decide) hkey htarget ih
  | ignored hobject => exact Settled.ignored hobject
  | absorbNothing _ _ ih => exact Settled.move .variant ih
  | merged _ _ ih => exact Settled.move .variant ih

/-! ### Walks end -/

/-- Every reference from a settled node names a component. -/
theorem Settled.closed {document : Document} {done : List String} {place use : Place}
    {node : SchemaNode} {reference : String} (h : Settled document done place node)
    (hmeets : Meets place node use reference) :
    ∃ key, Section.schemas.key? reference = some key ∧
      key ∈ document.components.schemas.keys := by
  induction hmeets with
  | here =>
    cases h with
    | member hkey htarget _ => exact ⟨_, hkey, Table.mem_keys_of_find?_eq_some htarget⟩
    | expanded _ hkey htarget _ => exact ⟨_, hkey, Table.mem_keys_of_find?_eq_some htarget⟩
  | inside hwalked hpart _ ih =>
    cases h with
    | ignored hobject => simp [hwalked rfl] at hobject
    | inline h => exact ih (h _ hpart)

/-- Walks along edges end at every component that a settled node leads to, when they end at the
components of `done`. -/
theorem Settled.acc {document : Document} {done : List String} {place use : Place}
    {node : SchemaNode} {reference key : String} (h : Settled document done place node)
    (hdone : ∀ key ∈ done, Acc (fun target source => Edge document source target) key)
    (hmeets : Meets place node use reference)
    (hkey : Section.schemas.key? reference = some key)
    (hobject : use = .variant → EndsInObject document (.ref reference)) :
    Acc (fun target source => Edge document source target) key := by
  induction h generalizing use reference key with
  | member hkey' _ hmem =>
    cases hmeets
    rw [hkey] at hkey'
    cases hkey'
    exact hdone _ hmem
  | @expanded place reference' key' target _ hkey' htarget _ ih =>
    cases hmeets
    rw [hkey] at hkey'
    cases hkey'
    -- an edge from the target is met by the walk that goes on in its place
    refine ⟨_, fun next hedge => ?_⟩
    obtain ⟨node, use, reference, hnode, hmeets, hnext, hends⟩ := hedge
    rw [htarget] at hnode
    cases hnode
    cases hmeets with
    | here =>
      refine ih .here hnext fun hplace => ?_
      cases hobject hplace with
      | ref hkey'' htarget' hends =>
        rw [hkey] at hkey''
        cases hkey''
        rw [htarget] at htarget'
        cases htarget'
        exact hends
    | inside _ hpart hmeets =>
      refine ih (.inside (fun hplace => ?_) hpart hmeets) hnext hends
      cases hobject hplace with
      | ref hkey'' htarget' hends =>
        rw [hkey] at hkey''
        cases hkey''
        rw [htarget] at htarget'
        cases htarget'
        cases hends with
        | inline hisObject => exact hisObject
  | ignored hisObject =>
    cases hmeets with
    | inside hwalked _ _ => simp [hwalked rfl] at hisObject
  | inline _ ih =>
    cases hmeets with
    | inside _ hpart hmeets => exact ih _ hpart hmeets hkey hobject

/-- Every finished component was settled by the components finished before it. -/
theorem Justified.settled {job : Job} {s : State} (h : Justified job s)
    {before after : List (String × ComponentType)} {key : String} {result : ComponentType}
    (hsplit : s.schemas = before ++ (key, result) :: after) :
    ∃ node, job.document.components.schemas.find? key = some node ∧
      Settled job.document (before.map (·.1)) .inPlace node := by
  obtain ⟨node, compiled, facts, hnode, -, rfl, hderives, -⟩ :=
    h.schemas before key result after hsplit
  exact ⟨node, hnode, hderives.settled⟩

/-- Walks along edges end at every finished component. -/
theorem Justified.acc {job : Job} {s : State} (h : Justified job s)
    {before after : List (String × ComponentType)} {key : String} {result : ComponentType}
    (hsplit : s.schemas = before ++ (key, result) :: after) :
    Acc (fun target source => Edge job.document source target) key := by
  -- by the place in the order of finishing: edges lead to components that were finished before
  induction hlength : before.length using Nat.strongRecOn
    generalizing before after key result with
  | ind length ih =>
    obtain ⟨node, hnode, hsettled⟩ := h.settled hsplit
    have hdone : ∀ earlier ∈ before.map (·.1),
        Acc (fun target source => Edge job.document source target) earlier := by
      intro earlier hearlier
      obtain ⟨entry, hentry, rfl⟩ := List.mem_map.mp hearlier
      obtain ⟨first, rest, rfl⟩ := List.append_of_mem hentry
      have hshorter : first.length < length := by
        rw [← hlength, List.length_append, List.length_cons]
        omega
      have hsplit' :
          s.schemas = first ++ (entry.1, entry.2) :: (rest ++ (key, result) :: after) := by
        rw [hsplit]
        simp
      exact ih first.length hshorter hsplit' rfl
    refine ⟨_, fun next hedge => ?_⟩
    obtain ⟨node', use, reference, hnode', hmeets, hnext, hends⟩ := hedge
    rw [hnode] at hnode'
    cases hnode'
    exact hsettled.acc hdone hmeets hnext hends

/-- Walks along edges end everywhere when each component is finished. -/
theorem Outcome.wellFounded {job : Job} {s : State} (h : Outcome job s) :
    WellFounded fun target source => Edge job.document source target := by
  refine ⟨fun key => ?_⟩
  by_cases hkey : key ∈ job.document.components.schemas.keys
  · obtain ⟨result, hresult⟩ := h.schemas key hkey
    obtain ⟨before, after, hsplit⟩ := List.append_of_mem (Table.mem_of_lookup_eq_some hresult)
    exact h.justified.acc hsplit
  · -- no walk starts at a key that no component has
    refine ⟨_, fun next hedge => ?_⟩
    obtain ⟨node, _, _, hnode, -, -, -⟩ := hedge
    exact absurd (Table.mem_keys_of_find?_eq_some hnode) hkey

/-- When a description is compiled, every reference that a walk through a schema component meets
names a schema component, and the references between the components make no cycle. -/
theorem references_closed_and_acyclic {document : Document} {config : Config} {out : Output}
    (h : compile document config = .ok out) :
    (∀ source node use reference, document.components.schemas.find? source = some node →
      Meets .inPlace node use reference →
      ∃ key, Section.schemas.key? reference = some key ∧
        key ∈ document.components.schemas.keys) ∧
    ∀ key, ¬ Relation.TransGen (Edge document) key key := by
  obtain ⟨s, -, hs, -⟩ := compile_eq_ok h
  constructor
  · intro source node use reference hnode hmeets
    obtain ⟨result, hresult⟩ := hs.schemas source (Table.mem_keys_of_find?_eq_some hnode)
    obtain ⟨before, after, hsplit⟩ := List.append_of_mem (Table.mem_of_lookup_eq_some hresult)
    obtain ⟨node', hnode', hsettled⟩ := hs.justified.settled hsplit
    rw [hnode] at hnode'
    cases hnode'
    exact hsettled.closed hmeets
  · intro key hcycle
    have hcycle' := Relation.transGen_swap.mpr hcycle
    exact hs.wellFounded.transGen.asymmetric key key hcycle' hcycle'

/-- A description with references in all three places. -/
def kennel : Document :=
  descriptionOf
    [("Animal", objectNode [("name", textNode)]),
     ("Dog", .inline
       { shape := .allOf [.ref "#/components/schemas/Animal"]
           [("kennel", .ref "#/components/schemas/Kennel")] [] }),
     ("Kennel", objectNode [("street", textNode)]),
     ("Pet", .ref "#/components/schemas/Dog")]

/-- The kennel is compiled, so its references are closed and make no cycle. -/
theorem references_closed_and_acyclic_kennel :
    ∃ out, compile kennel {} = .ok out ∧
      (∀ source node use reference, kennel.components.schemas.find? source = some node →
        Meets .inPlace node use reference →
        ∃ key, Section.schemas.key? reference = some key ∧
          key ∈ kennel.components.schemas.keys) ∧
      ∀ key, ¬ Relation.TransGen (Edge kennel) key key := by
  have hcompiles : compilesTo kennel {} (fun _ => true) = true := by decide +kernel
  obtain ⟨out, -, hout, -⟩ := exists_of_compilesTo hcompiles
  exact ⟨out, hout, references_closed_and_acyclic hout⟩

end Protoscribe.Compile
