import Protoscribe.Compile.Compilation
import Protoscribe.Proofs.Compile.ValueNames
import Protoscribe.Proofs.Table

/-!
# `Protoscribe.Proofs.ReferenceChains`: where references inside a section lead to

A component may stand for another one of its section, and that one for a third. `follow` goes along
such a chain of references from any node, which need not be in the section itself.

`Hops` is the chain as a relation: the keys that are visited from a node on, each of them in the
section, and the node behind the last one. `Ends` says when a chain goes no further, and with which
result: at a definition, at a reference without a component, or at a key that has been visited.

A key that is visited a second time leads to the same node as before. So a chain that comes to a
definition, or breaks off, visits no key twice (`Hops.nodup`), and a chain that visits a key twice
never comes to either. As the keys that are visited are those of the section, a run makes one round
for each of them at most, and a last one (`exists_hops_ends`). `follow_eq_iff` puts this together:
a run gives what its chain ends with, and nothing else.
-/

set_option autoImplicit false

namespace Protoscribe.Compile

open OpenApi (Referable Section)

variable {α : Type} {part : Section} {table : Table (Referable α)}

/-! ### Chains -/

/-- References lead from a node to the components under some keys, one after the other. The last
node is the component under the last key, or the first node when there is no key. -/
inductive Hops (part : Section) (table : Table (Referable α)) :
    Referable α → List String → Referable α → Prop
  | stay {node : Referable α} : Hops part table node [] node
  | hop {reference key : String} {target last : Referable α} {keys : List String}
      (hkey : part.key? reference = some key) (htarget : table.find? key = some target)
      (h : Hops part table target keys last) : Hops part table (.ref reference) (key :: keys) last

/-- A reference leads to no component: it names no key, or the section does not have the key. -/
inductive Breaks (part : Section) (table : Table (Referable α)) (reference : String) : Prop
  | nameless (hkey : part.key? reference = none)
  | absent {key : String} (hkey : part.key? reference = some key) (habsent : table.find? key = none)

/-- No hop leads on from a node. -/
def Final (part : Section) (table : Table (Referable α)) (last : Referable α) : Prop :=
  ∀ keys other, Hops part table last keys other → keys = []

/-- A definition in place is the end of a chain. -/
theorem final_inline {item : α} : Final part table (.inline item) := by
  intro keys other h
  cases h with
  | stay => rfl

/-- A reference that leads nowhere is the end of a chain. -/
theorem Breaks.final {reference : String} (h : Breaks part table reference) :
    Final part table (.ref reference) := by
  intro keys other hops
  cases hops with
  | stay => rfl
  | hop hkey htarget _ =>
    cases h with
    | nameless hnone => cases hkey.symm.trans hnone
    | absent hother habsent =>
      cases hkey.symm.trans hother
      cases htarget.symm.trans habsent

namespace Hops

variable {node last : Referable α} {keys : List String}

/-- The hops of a chain lead through keys of the table. -/
theorem subset_keys (h : Hops part table node keys last) : keys ⊆ table.keys := by
  induction h with
  | stay => exact List.nil_subset _
  | hop _ htarget _ ih =>
    exact List.cons_subset.mpr ⟨Table.mem_keys_of_find?_eq_some htarget, ih⟩

/-- From a key that is visited, the chain goes on to the same end. -/
theorem exists_of_mem (h : Hops part table node keys last) {key : String} (hkey : key ∈ keys) :
    ∃ before after target, keys = before ++ key :: after ∧ table.find? key = some target ∧
      Hops part table target after last := by
  induction h with
  | stay => cases hkey
  | hop _ htarget hops ih =>
    rcases List.mem_cons.mp hkey with rfl | hkey
    · exact ⟨[], _, _, rfl, htarget, hops⟩
    · obtain ⟨before, after, target, rfl, hfound, hrest⟩ := ih hkey
      exact ⟨_ :: before, after, target, rfl, hfound, hrest⟩

/-- A chain up to its end begins with every other chain from the same node. -/
theorem exists_rest (h : Hops part table node keys last) (hlast : Final part table last)
    {first : List String} {between : Referable α} (hfirst : Hops part table node first between) :
    ∃ rest, keys = first ++ rest ∧ Hops part table between rest last := by
  induction hfirst generalizing keys with
  | stay => exact ⟨keys, rfl, h⟩
  | hop hkey htarget hops ih =>
    cases h with
    | stay => cases hlast _ _ (.hop hkey htarget hops)
    | hop hother hsame hrest =>
      cases hkey.symm.trans hother
      cases htarget.symm.trans hsame
      obtain ⟨rest, rfl, hbetween⟩ := ih hrest
      exact ⟨rest, rfl, hbetween⟩

/-- A chain up to its end visits no key twice: the way on from a key would be as long as a part of
itself. -/
theorem nodup (h : Hops part table node keys last) (hlast : Final part table last) :
    keys.Nodup := by
  induction h with
  | stay => exact List.nodup_nil
  | @hop reference key target last keys hkey htarget hops ih =>
    refine List.nodup_cons.mpr ⟨fun hmem => ?_, ih hlast⟩
    obtain ⟨before, after, other, hsplit, hfound, hagain⟩ := hops.exists_of_mem hmem
    cases htarget.symm.trans hfound
    obtain ⟨rest, hkeys, -⟩ := hagain.exists_rest hlast hops
    have hlength := congrArg List.length hkeys
    have hlonger := congrArg List.length hsplit
    simp only [List.length_append, List.length_cons] at hlength hlonger
    omega

end Hops

/-! ### The end of a chain -/

/-- A chain that has visited some keys goes no further than a node, and the result of a run in the
state. -/
inductive Ends (part : Section) (table : Table (Referable α)) (s : State) (keys : List String) :
    Referable α → EStateM.Result CompileError State α → Prop
  | item {item : α} : Ends part table s keys (.inline item) (.ok item s)
  | broken {reference : String} (h : Breaks part table reference) :
      Ends part table s keys (.ref reference)
        (.error (.unresolvedReference reference s.place) s)
  | circle {reference key : String} (hkey : part.key? reference = some key) (hmem : key ∈ keys) :
      Ends part table s keys (.ref reference) (.error (.cycle key (keys ++ [key])) s)

/-- Keys of the section that differ are no more than the section has. -/
theorem length_le_size {keys : List String} (hkeys : keys.Nodup) (hsubset : keys ⊆ table.keys) :
    keys.length ≤ table.size := by
  have hlength := (List.subperm_of_subset hkeys hsubset).length_le
  rwa [Table.keys, List.length_map] at hlength

/-- Every chain ends. The induction is on a bound for the keys that have not been visited. -/
theorem exists_hops_ends (part : Section) (s : State) {left : Nat} {seen : List String}
    (node : Referable α) (hseen : seen.Nodup) (hkeys : seen ⊆ table.keys)
    (hleft : table.size < left + seen.length) :
    ∃ keys last result, Hops part table node keys last ∧ (seen ++ keys).Nodup ∧
      Ends part table s (seen ++ keys) last result := by
  induction left generalizing seen node with
  | zero =>
    have hlength := length_le_size hseen hkeys
    omega
  | succ left ih =>
    -- where the chain ends at once, no key is visited
    have hhere : ∀ {result}, Ends part table s seen node result →
        ∃ keys last result, Hops part table node keys last ∧ (seen ++ keys).Nodup ∧
          Ends part table s (seen ++ keys) last result := by
      intro result hends
      exact ⟨[], node, result, .stay, by simpa using hseen, by simpa using hends⟩
    cases node with
    | inline item => exact hhere .item
    | ref reference =>
      cases hkey : part.key? reference with
      | none => exact hhere (.broken (.nameless hkey))
      | some key =>
        cases htarget : table.find? key with
        | none => exact hhere (.broken (.absent hkey htarget))
        | some target =>
          by_cases hmem : key ∈ seen
          · exact hhere (.circle hkey hmem)
          · have hnodup : (seen ++ [key]).Nodup := by
              rw [← List.concat_eq_append]
              exact hseen.concat hmem
            have hsubset : seen ++ [key] ⊆ table.keys := List.append_subset.mpr
              ⟨hkeys, by simpa using Table.mem_keys_of_find?_eq_some htarget⟩
            have hless : table.size < left + (seen ++ [key]).length := by
              rw [List.length_append, List.length_singleton]
              omega
            obtain ⟨keys, last, result, hops, hvisited, hends⟩ := ih target hnodup hsubset hless
            rw [← List.append_cons] at hvisited hends
            exact ⟨key :: keys, last, result, .hop hkey htarget hops, hvisited, hends⟩

/-! ### Runs -/

/-- A reference to a new key is followed to what stands there. -/
theorem followFrom_hop {fuel : Nat} {seen : List String} {reference key : String}
    {target : Referable α} (hkey : part.key? reference = some key) (hnew : key ∉ seen)
    (htarget : table.find? key = some target) :
    followFrom part table (fuel + 1) seen (.ref reference) =
      followFrom part table fuel (seen ++ [key]) target := by
  have hcontains : seen.contains key = false := by simpa using hnew
  simp only [followFrom, hkey, hcontains, htarget]
  rfl

/-- A run goes along a chain whose keys it has not seen. -/
theorem followFrom_hops {node last : Referable α} {keys seen : List String}
    (h : Hops part table node keys last) (hnew : (seen ++ keys).Nodup) (fuel : Nat) :
    followFrom part table (keys.length + fuel) seen node =
      followFrom part table fuel (seen ++ keys) last := by
  induction h generalizing seen with
  | stay => simp
  | @hop reference key target last keys hkey htarget _ ih =>
    have hfree : key ∉ seen := fun hmem =>
      (List.nodup_append.mp hnew).2.2 key hmem key (List.mem_cons_self ..) rfl
    rw [List.append_cons] at hnew ⊢
    rw [← ih hnew, ← followFrom_hop hkey hfree htarget, List.length_cons, Nat.succ_add]

/-- Where a chain ends, a run takes one more round. -/
theorem followFrom_of_ends {seen : List String} {last : Referable α} {s : State}
    {result : EStateM.Result CompileError State α} (h : Ends part table s seen last result)
    (hkeys : seen ⊆ table.keys) (fuel : Nat) :
    followFrom part table (fuel + 1) seen last s = result := by
  cases h with
  | item => rfl
  | broken hbreaks =>
    cases hbreaks with
    | nameless hkey =>
      simp only [followFrom, hkey]
      rfl
    | @absent key hkey habsent =>
      -- what has been visited is in the section
      have hcontains : seen.contains key = false := by
        simpa using fun hmem => Table.not_mem_keys_of_find?_eq_none habsent (hkeys hmem)
      simp only [followFrom, hkey, hcontains, habsent]
      rfl
  | circle hkey hmem =>
    have hcontains : seen.contains _ = true := List.contains_iff_mem.mpr hmem
    simp only [followFrom, hkey, hcontains]
    rfl

/-- A run with enough fuel gives what its chain ends with. -/
theorem followFrom_eq_of_ends {node last : Referable α} {keys : List String} {s : State}
    {result : EStateM.Result CompileError State α} (hops : Hops part table node keys last)
    (hkeys : keys.Nodup) (hends : Ends part table s keys last result) {fuel : Nat}
    (hfuel : keys.length < fuel) : followFrom part table fuel [] node s = result := by
  obtain ⟨more, rfl⟩ := Nat.exists_eq_add_of_lt hfuel
  rw [Nat.add_assoc, followFrom_hops hops (by simpa using hkeys), List.nil_append]
  exact followFrom_of_ends hends hops.subset_keys more

/-- A run gives what the chain from its node ends with. -/
theorem follow_eq_iff {node : Referable α} {s : State}
    {result : EStateM.Result CompileError State α} :
    follow part table node s = result ↔
      ∃ keys last, Hops part table node keys last ∧ keys.Nodup ∧
        Ends part table s keys last result := by
  have hrun : ∀ {keys last result}, Hops part table node keys last → keys.Nodup →
      Ends part table s keys last result → follow part table node s = result := by
    intro keys last result hops hkeys hends
    exact followFrom_eq_of_ends hops hkeys hends
      (Nat.lt_succ_of_le (length_le_size hkeys hops.subset_keys))
  constructor
  · rintro rfl
    obtain ⟨keys, last, result, hops, hkeys, hends⟩ :=
      exists_hops_ends part s node List.nodup_nil (List.nil_subset table.keys)
        (Nat.lt_succ_self table.size)
    rw [List.nil_append] at hkeys hends
    exact ⟨keys, last, hops, hkeys, hrun hops hkeys hends ▸ hends⟩
  · rintro ⟨keys, last, hops, hkeys, hends⟩
    exact hrun hops hkeys hends

/-- A run gives the definition that the chain comes to. It fails with the first reference that leads
to no component, at the place of the run, when the chain comes to one, and with a cycle when the
chain comes back to a key before either: the keys that have been visited, and the first one that is
visited again. There is no fourth way, and a run ends within one more round than the section has
entries. -/
theorem follow_ends (part : Section) (table : Table (Referable α)) (node : Referable α)
    (s : State) :
    (∀ item t, follow part table node s = .ok item t ↔
      t = s ∧ ∃ keys, Hops part table node keys (.inline item)) ∧
    (∀ reference place t,
      follow part table node s = .error (.unresolvedReference reference place) t ↔
        t = s ∧ place = s.place ∧ Breaks part table reference ∧
          ∃ keys, Hops part table node keys (.ref reference)) ∧
    (∀ key chain t, follow part table node s = .error (.cycle key chain) t ↔
      t = s ∧ ∃ keys reference, Hops part table node keys (.ref reference) ∧ keys.Nodup ∧
        part.key? reference = some key ∧ key ∈ keys ∧ chain = keys ++ [key]) ∧
    ∃ keys last, Hops part table node keys last ∧
      Ends part table s keys last (follow part table node s) ∧ keys.length + 1 ≤ table.size + 1 ∧
      ∀ fuel, keys.length + 1 ≤ fuel →
        followFrom part table fuel [] node s = follow part table node s := by
  -- every outcome is one of the ways in which the hops come to an end
  refine ⟨fun item t => ?_, fun reference place t => ?_, fun key chain t => ?_, ?_⟩
  · rw [follow_eq_iff]
    constructor
    · rintro ⟨keys, last, hops, -, hends⟩
      cases hends
      exact ⟨rfl, keys, hops⟩
    · rintro ⟨rfl, keys, hops⟩
      exact ⟨keys, _, hops, hops.nodup final_inline, .item⟩
  · rw [follow_eq_iff]
    constructor
    · rintro ⟨keys, last, hops, -, hends⟩
      cases hends with
      | broken hbreaks => exact ⟨rfl, rfl, hbreaks, keys, hops⟩
    · rintro ⟨rfl, rfl, hbreaks, keys, hops⟩
      exact ⟨keys, _, hops, hops.nodup hbreaks.final, .broken hbreaks⟩
  · rw [follow_eq_iff]
    constructor
    · rintro ⟨keys, last, hops, hkeys, hends⟩
      cases hends with
      | circle hkey hmem => exact ⟨rfl, keys, _, hops, hkeys, hkey, hmem, rfl⟩
    · rintro ⟨rfl, keys, reference, hops, hkeys, hkey, hmem, rfl⟩
      exact ⟨keys, _, hops, hkeys, .circle hkey hmem⟩
  · obtain ⟨keys, last, hops, hkeys, hends⟩ := follow_eq_iff.mp (Eq.refl (follow part table node s))
    refine ⟨keys, last, hops, hends, ?_, fun fuel hfuel =>
      followFrom_eq_of_ends hops hkeys hends hfuel⟩
    exact Nat.succ_le_succ (length_le_size hkeys hops.subset_keys)

/-- Responses of which one leads into a circle of two others. -/
def detour : Table (Referable OpenApi.Response) :=
  .ofList [("start", .ref "#/components/responses/a~1b"),
    ("a/b", .ref "#/components/responses/c~0d"), ("c~d", .ref "#/components/responses/a~1b")]

/-- A run that has just begun. -/
def outset : State :=
  { file := startFile default {} }

/-- The report of the circle begins where the references were first followed. -/
theorem follow_ends_detour :
    follow .responses detour (.ref "#/components/responses/start") outset =
        .error (.cycle "a/b" ["start", "a/b", "c~d", "a/b"]) outset ∧
      (CompileError.cycle "a/b" ["start", "a/b", "c~d", "a/b"]).message =
        "reference cycle through component 'a/b': start -> a/b -> c~d -> a/b" := by
  have hstart : Section.responses.key? "#/components/responses/start" = some "start" := by decide
  have hfirst : Section.responses.key? "#/components/responses/a~1b" = some "a/b" := by decide
  have hsecond : Section.responses.key? "#/components/responses/c~0d" = some "c~d" := by decide
  have hops : Hops .responses detour (.ref "#/components/responses/start") ["start", "a/b", "c~d"]
      (.ref "#/components/responses/a~1b") :=
    .hop hstart rfl (.hop hfirst rfl (.hop hsecond rfl .stay))
  refine ⟨((follow_ends _ _ _ outset).2.2.1 _ _ _).mpr ?_, by decide⟩
  exact ⟨rfl, _, _, hops, by decide, hfirst, by decide, rfl⟩

end Protoscribe.Compile
