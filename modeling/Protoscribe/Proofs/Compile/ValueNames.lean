import Protoscribe.Compile.Literal
import Protoscribe.Proofs.Compile.FreeName
import Protoscribe.Proofs.Compile.Run
import Protoscribe.Proofs.Draft.Enum
import Protoscribe.Proofs.Spelling

/-!
# `Protoscribe.Proofs.Compile.ValueNames`: which names the values of an enum get

The values of an enum come from its literals, one after the other. A literal has a name of its own
(`valueName`); when an earlier value has that name, the first free number goes behind it, and there
is always one (`OwnName`). `Spells` follows all literals of an enum, with the values and the
warnings that they bring, and `foldlM_addLiteral` says that this is what a run does, from every
state.
-/

set_option autoImplicit false

namespace Protoscribe.Compile

open OpenApi (Schema)

/-! ### Names of literals -/

/-- The value that stands for none of the literals. -/
def unspecifiedName (name : String) : String :=
  Identifier.enumValueName name ++ "_UNSPECIFIED"

/-- The name of the first value is in capitals. -/
theorem unspecifiedName_upperName (name : String) : UpperName (unspecifiedName name) :=
  (Identifier.enumValueName_upperName name).append <|
    UpperName.underscore "UNSPECIFIED" rfl (.inr (by decide)) (by decide) (by simp)

/-- The name of the first value is legal, as it has a fixed end. -/
theorem unspecifiedName_legal (name : String) : Legal (unspecifiedName name) := by
  refine (unspecifiedName_upperName name).legal fun hempty => ?_
  simpa [unspecifiedName] using congrArg String.toList hempty

/-- The name of a literal, whether or not it has letters and digits. -/
def literalName (literal : String) : String :=
  if (Identifier.enumValueName literal).isEmpty then "EMPTY"
  else Identifier.enumValueName literal

/-- The name of a value, with the name of the enum in front of it or without. -/
theorem valueName_eq (job : Job) (start literal : String) :
    valueName job start literal =
      if job.config.prefixEnumValues then
        start ++ "_" ++ String.ofList ((literalName literal).toList.dropWhile (· = '_'))
      else literalName literal := by
  simp only [valueName, literalName]

/-- The name of a literal is in capitals. -/
theorem literalName_upperName (literal : String) : UpperName (literalName literal) := by
  unfold literalName
  split
  · exact .of_head "EMPTY" rfl (by decide) (by decide) (by decide) (by simp)
  · exact Identifier.enumValueName_upperName literal

/-- The name of a literal is guarded. -/
theorem literalName_guarded (literal : String) : Guarded (literalName literal).toList := by
  unfold literalName
  split
  · exact .letter (by decide)
  · exact Identifier.enumValueName_guarded literal

/-- A literal without letters and digits has a name too. -/
theorem literalName_ne_empty (literal : String) : literalName literal ≠ "" := by
  unfold literalName
  split
  · decide
  · next hname => simpa [String.isEmpty_iff] using hname

/-- Without the underscore that guards a digit, the name of a literal begins with a digit or a
capital. -/
theorem exists_head_of_dropWhile_literalName (literal : String) :
    ∃ c, ((literalName literal).toList.dropWhile (· = '_')).head? = some c ∧
      (c.isDigit = true ∨ c.isUpper = true) := by
  have hguarded := literalName_guarded literal
  have hcapitals := (literalName_upperName literal).capitals
  have hne := literalName_ne_empty literal
  rw [ne_eq, ← String.toList_eq_nil_iff] at hne
  generalize (literalName literal).toList = text at hguarded hcapitals hne
  cases hguarded with
  | nil => exact absurd rfl hne
  | @letter c rest hletter =>
    have hstart : c ≠ '_' := by
      rintro rfl
      exact absurd hletter (by decide)
    -- a value has no small letters, so the letter is a capital
    have hsmall := hcapitals c (List.mem_cons_self ..)
    have hupper : c.isUpper = true := by simpa [isAlpha_eq, hsmall] using hletter
    exact ⟨c, by simp [List.dropWhile, hstart], .inr hupper⟩
  | @digit d rest hdigit =>
    have hstart : d ≠ '_' := by
      rintro rfl
      exact absurd hdigit (by decide)
    exact ⟨d, by simp [List.dropWhile, hstart], .inl hdigit⟩

/-- The name of a value is in capitals. -/
theorem valueName_upperName (job : Job) (name literal : String) :
    UpperName (valueName job (Identifier.enumValueName name) literal) := by
  have hliteral := literalName_upperName literal
  rw [valueName_eq]
  split
  · -- the underscore between the two parts stands in front of a digit or a capital
    obtain ⟨c, hhead, hc⟩ := exists_head_of_dropWhile_literalName literal
    rw [String.append_assoc]
    refine (Identifier.enumValueName_upperName name).append (.underscore _ ?_ hc ?_ ?_)
    · rwa [String.toList_ofList]
    · intro d hd
      rw [String.toList_ofList] at hd
      exact hliteral.plain d ((List.dropWhile_suffix _).subset hd)
    · intro d hd
      rw [String.toList_ofList] at hd
      exact hliteral.capitals d ((List.dropWhile_suffix _).subset hd)
  · exact hliteral

/-- The name of a value is not empty. -/
theorem valueName_ne_empty (job : Job) (start literal : String) :
    valueName job start literal ≠ "" := by
  rw [valueName_eq]
  split
  · intro h
    simpa using congrArg String.toList h
  · exact literalName_ne_empty literal

/-- The name of a value is legal. -/
theorem valueName_legal (job : Job) (name literal : String) :
    Legal (valueName job (Identifier.enumValueName name) literal) :=
  (valueName_upperName job name literal).legal (valueName_ne_empty job _ literal)

/-! ### Names that are taken -/

/-- A name with a number behind it. -/
def numberedName (base : String) (n : Nat) : String :=
  base ++ "_" ++ toString n

/-- Different numbers give different names. -/
theorem numberedName_injective (base : String) : Function.Injective (numberedName base) := by
  intro m n h
  exact toString_injective ((String.append_right_inj _).mp h)

/-- A number behind a name in capitals keeps it so. -/
theorem numberedName_upperName {base : String} (n : Nat) (h : UpperName base) :
    UpperName (numberedName base n) := by
  rw [numberedName, String.append_assoc]
  exact h.append (.number n)

/-- A number behind a legal name keeps it so. -/
theorem numberedName_legal {base : String} (n : Nat) (h : Legal base) :
    Legal (numberedName base n) := by
  rw [numberedName, String.append_assoc]
  exact h.append (Plain.append (by decide) (plain_toString n))

/-- A number behind a name gives another name. -/
theorem numberedName_ne (base : String) (n : Nat) : numberedName base n ≠ base := by
  intro h
  have hlength := congrArg String.length h
  simp only [numberedName, String.length_append] at hlength
  have hunderscore : "_".length = 1 := rfl
  omega

/-- The name of a value whose literal has the name `base`, where `taken` are the names of the values
before it. -/
inductive OwnName (base : String) (taken : List String) : String → Prop
  | free (hfree : base ∉ taken) : OwnName base taken base
  | numbered {n : Nat} (htaken : base ∈ taken) (hn : 2 ≤ n)
      (hfree : numberedName base n ∉ taken)
      (hleast : ∀ k, 2 ≤ k → k < n → numberedName base k ∈ taken) :
      OwnName base taken (numberedName base n)

namespace OwnName

variable {base value : String} {taken : List String}

/-- The name that a value gets is free. -/
theorem not_mem (h : OwnName base taken value) : value ∉ taken := by
  cases h with
  | free hfree => exact hfree
  | numbered _ _ hfree _ => exact hfree

/-- What holds of a name and of all names with numbers behind it holds of the value. -/
theorem of_base {P : String → Prop} (h : OwnName base taken value) (hbase : P base)
    (hnumber : ∀ n, P (numberedName base n)) : P value := by
  cases h with
  | free _ => exact hbase
  | numbered _ _ _ _ => exact hnumber _

end OwnName

/-! ### Literal by literal -/

/-- The place that warnings name. -/
def State.place (s : State) : String :=
  if s.scope.isEmpty then "document root" else ".".intercalate s.scope

/-- A value that does not have the name of its literal is reported. -/
def renames (place base value : String) : List Warning :=
  if value = base then [] else [.renamedValue place base value]

/-- The names of the values that literals bring, behind the names that are taken, and the
warnings. -/
inductive Spells (base : String → String) (place : String) :
    List String → List Value → List String → List Warning → Prop
  | nil {taken : List String} : Spells base place taken [] [] []
  | skipped {taken values : List String} {literal : Value} {rest : List Value}
      {warnings : List Warning} (htext : literalText? literal = none)
      (hrest : Spells base place taken rest values warnings) :
      Spells base place taken (literal :: rest) values (.nonScalarLiteral place :: warnings)
  | value {taken values : List String} {literal : Value} {text value : String}
      {rest : List Value} {warnings : List Warning} (htext : literalText? literal = some text)
      (hown : OwnName (base text) taken value)
      (hrest : Spells base place (taken ++ [value]) rest values warnings) :
      Spells base place taken (literal :: rest) (value :: values)
        (renames place (base text) value ++ warnings)

section run

variable {job : Job} {start text : String} {draft : EnumDraft} {literal : Value}

/-- A literal without a text adds nothing but a warning. -/
theorem addLiteral_of_none (htext : literalText? literal = none) (s : State) :
    addLiteral job start draft literal s =
      .ok draft { s with warnings := s.warnings ++ [.nonScalarLiteral s.place] } := by
  simp only [addLiteral, htext]
  rfl

/-- A literal with a text always adds a value whose name is free. The registry of the draft decides
which names are taken, and it has those of the values. -/
theorem addLiteral_of_some (job : Job) (start : String) (hdraft : draft.InStep)
    (htext : literalText? literal = some text) (s : State) :
    ∃ value, OwnName (valueName job start text) draft.values value ∧
      addLiteral job start draft literal s =
        .ok (draft.addValue value)
          { s with
            warnings := s.warnings ++ renames s.place (valueName job start text) value } := by
  generalize hbase : valueName job start text = base
  have hkeys : ∀ name, name ∈ draft.takenValues.keys ↔ name ∈ draft.values := fun name =>
    Registry.contains_iff_mem_keys.symm.trans hdraft.hasValue_iff
  simp only [addLiteral, htext, hbase]
  -- a name that is taken gets the least number from 2 on that makes it free
  by_cases htaken : draft.hasValue base = true
  · obtain ⟨n, hn, hfound, hfree, hleast⟩ :=
      firstFree_spec draft.takenValues.keys (numberedName_injective base) 2
    have hcontains : draft.takenValues.keys.contains = draft.hasValue := by
      funext name
      rw [Bool.eq_iff_iff, List.contains_iff_mem]
      exact Registry.contains_iff_mem_keys.symm
    have hsearch : firstFree draft.hasValue (fun n => base ++ "_" ++ toString n)
        draft.takenValues.size 2 = numberedName base n := by
      rw [← hcontains, ← Registry.length_keys]
      exact hfound
    refine ⟨numberedName base n, .numbered (hdraft.hasValue_iff.mp htaken) hn
      (fun hmem => hfree ((hkeys _).mpr hmem)) (fun k hk hlt => (hkeys _).mp (hleast k hk hlt)), ?_⟩
    rw [if_pos htaken, hsearch, renames, if_neg (numberedName_ne base n)]
    rfl
  · refine ⟨base, .free fun hmem => htaken (hdraft.hasValue_iff.mpr hmem), ?_⟩
    rw [if_neg htaken, renames, if_pos rfl, List.append_nil]
    rfl

/-- All literals of an enum find their names, from every state, and the values are numbered one
after the other. -/
theorem foldlM_addLiteral (job : Job) (start : String) (literals : List Value)
    (hdraft : draft.InStep) (s : State) :
    ∃ grown values warnings, literals.foldlM (addLiteral job start) draft s =
        .ok grown { s with warnings := s.warnings ++ warnings } ∧
      grown.InStep ∧ grown.values = draft.values ++ values ∧
      Spells (valueName job start) s.place draft.values literals values warnings := by
  -- the values that are taken and the state that collects warnings grow with every literal
  induction literals generalizing draft s with
  | nil => exact ⟨draft, [], [], by rw [List.append_nil]; rfl, hdraft, by simp, .nil⟩
  | cons literal rest ih =>
    cases htext : literalText? literal with
    | none =>
      obtain ⟨grown, values, warnings, hrun, hgrown, hvalues, hspells⟩ :=
        ih hdraft { s with warnings := s.warnings ++ [.nonScalarLiteral s.place] }
      refine ⟨grown, values, .nonScalarLiteral s.place :: warnings, ?_, hgrown, hvalues,
        .skipped htext hspells⟩
      refine foldlM_cons_eq_ok.mpr ⟨_, _, addLiteral_of_none htext s, hrun.trans ?_⟩
      rw [List.append_assoc, List.singleton_append]
    | some text =>
      obtain ⟨value, hown, hfirst⟩ := addLiteral_of_some job start hdraft htext s
      obtain ⟨grown, values, warnings, hrun, hgrown, hvalues, hspells⟩ :=
        ih (hdraft.addValue value)
          { s with warnings := s.warnings ++ renames s.place (valueName job start text) value }
      rw [hdraft.values_addValue hown.not_mem] at hvalues hspells
      refine ⟨grown, value :: values, _ ++ warnings, ?_, hgrown, ?_, .value htext hown hspells⟩
      · refine foldlM_cons_eq_ok.mpr ⟨_, _, hfirst, hrun.trans ?_⟩
        rw [List.append_assoc]
      · rw [hvalues, List.append_assoc, List.singleton_append]

/-- The carrier of an enum can always be compiled. -/
theorem enumCarrier_spells (job : Job) (name : String) (schema : Schema) (literals : List Value)
    (s : State) :
    ∃ enum values warnings, enumCarrier job name schema literals s =
        .ok (({ name } : MessageDraft).addEnum enum)
          { s with warnings := s.warnings ++ warnings } ∧
      enum.InStep ∧ enum.values = unspecifiedName name :: values ∧
      Spells (valueName job (Identifier.enumValueName name)) s.place [unspecifiedName name]
        literals values warnings := by
  have hempty : EnumDraft.InStep { name, comment := schema.description } := .fresh _ _
  obtain ⟨enum, values, warnings, hrun, henum, hvalues, hspells⟩ := foldlM_addLiteral job
    (Identifier.enumValueName name) literals (hempty.addValue (unspecifiedName name)) s
  rw [hempty.values_addValue List.not_mem_nil] at hvalues hspells
  exact ⟨enum, values, warnings, bind_eq_ok.mpr ⟨_, _, hrun, rfl⟩, henum, hvalues, hspells⟩

end run

/-! ### What the values are -/

namespace Spells

variable {base : String → String} {place : String} {taken values : List String}
  {literals : List Value} {warnings : List Warning}

/-- Every literal with a text brings one value. -/
theorem length_eq (h : Spells base place taken literals values warnings) :
    values.length = (literals.filterMap literalText?).length := by
  induction h with
  | nil => rfl
  | skipped htext _ ih => rw [List.filterMap_cons_none htext, ih]
  | value htext _ _ ih =>
    rw [List.filterMap_cons_some htext, List.length_cons, List.length_cons, ih]

/-- New names are different from those that are taken, and from each other. -/
theorem nodup (h : Spells base place taken literals values warnings) (htaken : taken.Nodup) :
    (taken ++ values).Nodup := by
  induction h with
  | nil => rwa [List.append_nil]
  | skipped _ _ ih => exact ih htaken
  | @value taken _ _ _ value _ _ _ hown _ ih =>
    -- the new value is one of those that are taken for the literals behind it
    rw [List.append_cons]
    refine ih ?_
    exact (List.perm_append_singleton _ _).nodup_iff.mpr
      (List.nodup_cons.mpr ⟨hown.not_mem, htaken⟩)

/-- Each value has the name of its own literal, as far as it is free. -/
theorem ownName (h : Spells base place taken literals values warnings) {i : Nat} {text : String}
    (htext : (literals.filterMap literalText?)[i]? = some text) :
    ∃ value, values[i]? = some value ∧ OwnName (base text) (taken ++ values.take i) value := by
  induction h generalizing i with
  | nil => simp at htext
  | skipped hskipped _ ih =>
    rw [List.filterMap_cons_none hskipped] at htext
    exact ih htext
  | @value taken values _ _ value _ _ hfirst hown _ ih =>
    rw [List.filterMap_cons_some hfirst] at htext
    cases i with
    | zero =>
      cases htext
      exact ⟨value, rfl, by simpa using hown⟩
    | succ i =>
      obtain ⟨later, hlater, hown⟩ := ih htext
      exact ⟨later, hlater, by simpa using hown⟩

/-- What holds of the names of all literals, with numbers behind them or not, holds of all
values. -/
theorem forall_mem {P : String → Prop} (h : Spells base place taken literals values warnings)
    (hbase : ∀ text, P (base text)) (hnumber : ∀ name n, P name → P (numberedName name n)) :
    ∀ value ∈ values, P value := by
  induction h with
  | nil => simp
  | skipped _ _ ih => exact ih
  | value _ hown _ ih =>
    exact List.forall_mem_cons.mpr ⟨hown.of_base (hbase _) fun n => hnumber _ n (hbase _), ih⟩

end Spells

end Protoscribe.Compile
