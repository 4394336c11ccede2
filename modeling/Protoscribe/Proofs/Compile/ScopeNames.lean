import Protoscribe.Proofs.Compile.ValueNames
import Protoscribe.Proofs.Compile.WellNamed

/-!
# `Protoscribe.Proofs.Compile.ScopeNames`: the spelling of types and values

Names of types and of values come from texts by way of different spellings, some with a suffix or a
number behind them. All types are spelled like types, also those that were renamed and the messages
of methods (`typeName_namesTypes`). The values of one enum are all different, and they are spelled
like values (`NamesValues`). Both hold for every drafted message and for the file itself.
-/

set_option autoImplicit false

namespace Protoscribe.Compile

/-! ### Types -/

/-- A message name is the name of a type. -/
theorem Job.messageName_typeName (job : Job) (text : String) : TypeName (job.messageName text) :=
  Acronyms.messageName_typeName _ text

/-- All names of types are spelled like types. -/
theorem typeName_namesTypes (job : Job) : NamesTypes job TypeName where
  text := job.messageName_typeName
  renamed name suffix n hsuffix hname := by
    refine ⟨(hname.guards.append ?_).append ?_, fun _ => ?_⟩
    · rcases hsuffix with rfl | rfl
      · exact underscoreGuards_of_head (c := 'E') rfl (by decide)
      · exact underscoreGuards_of_head (c := 'M') rfl (by decide)
    · split
      · exact fun rest hrest => by simp at hrest
      · exact underscoreGuards_toString n
    · rcases hsuffix with rfl | rfl
      · exact ⟨'n', by simp, by decide⟩
      · exact ⟨'e', by simp, by decide⟩
  payload path verb suffix hsuffix := by
    refine ⟨UnderscoreGuards.append ?_ ?_, fun _ => ⟨'e', ?_, by decide⟩⟩
    · refine (job.messageName_typeName _).guards.append (.join fun part hpart => ?_)
      obtain ⟨segment, -, rfl⟩ := List.mem_map.mp hpart
      exact (job.messageName_typeName _).guards
    · rcases hsuffix with rfl | rfl <;> exact underscoreGuards_of_head (c := 'R') rfl (by decide)
    · rcases hsuffix with rfl | rfl <;> simp

/-! ### Values -/

/-- The values of an enum are numbered one after the other, they are different, and they are spelled
like values, with a prefix if the configuration says so. -/
structure NamesValues (job : Job) (enum : EnumDraft) : Prop where
  inStep : enum.InStep
  distinct : enum.values.Nodup
  upper : ∀ value ∈ enum.values, UpperName value
  legal : ∀ value ∈ enum.values, Legal value
  joined : job.config.prefixEnumValues = true → ∀ value ∈ enum.values, '_' ∈ value.toList

/-- Whatever the literals of an enum are, it names its values. -/
theorem namesValues_of_enumCarrier {job : Job} {name : String} {schema : OpenApi.Schema}
    {literals : List Value} {draft : MessageDraft} {s s' : State}
    (h : enumCarrier job name schema literals s = .ok draft s') :
    ∀ enum ∈ draft.enums, NamesValues job enum := by
  obtain ⟨enum, values, warnings, hrun, henum, hvalues, hspells⟩ :=
    enumCarrier_spells job name schema literals s
  cases hrun.symm.trans h
  intro other hother
  cases List.mem_singleton.mp hother
  -- the first value has a name of its own making, and the others are spelled from literals
  constructor
  case inStep => exact henum
  case distinct => exact hvalues ▸ hspells.nodup (by simp)
  case upper =>
    rw [hvalues]
    refine List.forall_mem_cons.mpr ⟨unspecifiedName_upperName name, ?_⟩
    exact hspells.forall_mem (valueName_upperName job name) fun _ n => numberedName_upperName n
  case legal =>
    rw [hvalues]
    refine List.forall_mem_cons.mpr ⟨unspecifiedName_legal name, ?_⟩
    exact hspells.forall_mem (valueName_legal job name) fun _ n => numberedName_legal n
  case joined =>
    intro hprefixed
    rw [hvalues]
    refine List.forall_mem_cons.mpr ⟨by simp [unspecifiedName], ?_⟩
    refine hspells.forall_mem (fun text => ?_) fun base n hbase => ?_
    · simp [valueName_eq, hprefixed]
    · simp [numberedName, hbase]

/-- Every step that puts a message together keeps the enums in it as they are, up to their names. -/
theorem namesValues_stable (job : Job) (facts : Facts) :
    Stable job facts fun draft => ∀ enum ∈ draft.enums, NamesValues job enum where
  fresh _ _ _ := by simp
  union _ _ := by simp [unionStart, MessageDraft.addOneof]
  scalar _ _ _ _ := by simp [scalarWrapper]
  enum _ _ _ _ _ _ hrun := namesValues_of_enumCarrier hrun
  refer parent slot _ result _ _ hparent := by
    cases result with
    | message type => simpa [Slot.refer] using hparent
    | enum type => simpa [Slot.refer] using hparent
    | nothing => exact hparent
  taken parent child grown slot schema field marked _ _ htaken _ _ _ hparent hchild := by
    intro enum henum
    rw [MessageDraft.enums_addField] at henum
    cases htaken with
    | @enum carried _ hcarried _ =>
      -- the nested enum may have another name, but it has the values of the carried one
      rcases MessageDraft.mem_enums_addEnum henum with hmem | rfl
      · exact hparent enum hmem
      · obtain ⟨-, -, henums⟩ := MessageDraft.carriedEnum?_eq_some_iff.mp hcarried
        have hnamed := hchild carried (by simp [henums])
        exact ⟨hnamed.inStep.of_numbered_eq rfl rfl, hnamed.distinct, hnamed.upper, hnamed.legal,
          hnamed.joined⟩
    | enumComponent _ _ => exact hparent enum henum
    | unwrapped _ _ hunwrap =>
      obtain ⟨-, -, -, henums⟩ := MessageDraft.unwrap?_eq_some hunwrap
      rcases MessageDraft.mem_enums_nestAll henum with hmem | hmem
      · exact hparent enum hmem
      · exact hchild enum (henums ▸ hmem)
    | message _ _ =>
      rw [MessageDraft.enums_addMessage] at henum
      exact hparent enum henum
    | component _ _ => exact hparent enum henum
  renamed _ _ _ _ hchild := hchild
  merge _ _ _ _ hdraft hother enum henum := by
    rcases MessageDraft.mem_enums_merge henum with hmem | hmem
    · exact hdraft enum hmem
    · exact hother enum hmem
  moveToFront _ _ hdraft := hdraft
  comment _ _ hdraft := hdraft
  payload _ _ _ _ := by simp

/-- The enums of the file name their values. -/
theorem Justified.namesValues {job : Job} {s : State} (h : Justified job s) {enum : EnumDraft}
    (henum : enum ∈ s.file.enums) : NamesValues job enum := by
  obtain ⟨hint, node, draft, hderives, hcarried⟩ := h.enums enum henum
  obtain ⟨-, -, henums⟩ := MessageDraft.carriedEnum?_eq_some_iff.mp hcarried
  exact (hderives.everywhere (namesValues_stable job s.facts) trivial (by simp [Task.start?])
    _ rfl).here enum (by simp [henums])

end Protoscribe.Compile
