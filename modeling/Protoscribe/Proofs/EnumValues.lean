import Protoscribe.Proofs.Compile.ValueNames
import Protoscribe.Proofs.Link.FinishedFields

/-!
# `Protoscribe.Proofs.EnumValues`: every literal keeps a value of its own

An enum starts with the value for "unspecified". Behind it stands one value for each literal that is
a text, a truth value or a number, in the order of the literals; other literals are reported and
left out. `literals_keep_values` states this, together with the names, numbers and warnings, for
every list of literals that can be numbered.
-/

set_option autoImplicit false

namespace Protoscribe

/-- Is the literal a text, a truth value or a number? -/
def Value.isScalar : Value → Bool
  | .bool _ | .integer _ | .float _ | .text _ => true
  | .null | .list _ | .map _ | .tagged _ _ => false

namespace Compile

open OpenApi (Schema)

/-- Does the warning report a value that does not have the name of its literal? -/
def Warning.isRename : Warning → Bool
  | .renamedValue _ _ _ => true
  | _ => false

/-- A literal has a text exactly when it is a scalar. -/
theorem isSome_literalText? (literal : Value) :
    (literalText? literal).isSome = literal.isScalar := by
  cases literal <;> rfl

/-- The texts of literals are those of the literals that have one. -/
theorem map_some_filterMap_literalText? (literals : List Value) :
    (literals.filterMap literalText?).map some =
      (literals.filter (·.isScalar)).map literalText? := by
  induction literals with
  | nil => rfl
  | cons literal rest ih =>
    have hsome := isSome_literalText? literal
    cases htext : literalText? literal with
    | none =>
      rw [htext] at hsome
      rw [List.filterMap_cons_none htext, List.filter_cons_of_neg (by simp [← hsome]), ih]
    | some text =>
      rw [htext] at hsome
      rw [List.filterMap_cons_some htext, List.filter_cons_of_pos (by simp [← hsome]),
        List.map_cons, List.map_cons, htext, ih]

/-! ### Warnings -/

/-- A value that does not have the name of its literal is reported as renamed. -/
theorem filter_isRename_renames (place base value : String) :
    (renames place base value).filter Warning.isRename = renames place base value := by
  unfold renames
  split <;> rfl

/-- And it is reported as nothing else. -/
theorem filter_not_isRename_renames (place base value : String) :
    (renames place base value).filter (!·.isRename) = [] := by
  unfold renames
  split <;> rfl

namespace Spells

variable {base : String → String} {place : String} {taken values : List String}
  {literals : List Value} {warnings : List Warning}

/-- Renamed values are reported in the order of the values. -/
theorem renamed (h : Spells base place taken literals values warnings) :
    warnings.filter Warning.isRename =
      ((literals.filterMap literalText?).zip values).flatMap fun entry =>
        renames place (base entry.1) entry.2 := by
  induction h with
  | nil => rfl
  | skipped htext _ ih =>
    rw [List.filterMap_cons_none htext, ← ih]
    rfl
  | value htext _ _ ih =>
    rw [List.filterMap_cons_some htext, List.zip_cons_cons, List.flatMap_cons, List.filter_append,
      filter_isRename_renames, ih]

/-- Literals that are no scalars are reported, in their order. -/
theorem skipped_eq (h : Spells base place taken literals values warnings) :
    warnings.filter (!·.isRename) =
      (literals.filter (!·.isScalar)).map fun _ => .nonScalarLiteral place := by
  induction h with
  | nil => rfl
  | @skipped _ _ literal _ _ htext _ ih =>
    have hscalar : literal.isScalar = false := by rw [← isSome_literalText?, htext]; rfl
    rw [List.filter_cons_of_pos (by rfl), List.filter_cons_of_pos (by simp [hscalar]),
      List.map_cons, ih]
  | @value _ _ literal _ _ _ _ htext _ _ ih =>
    have hscalar : literal.isScalar = true := by rw [← isSome_literalText?, htext]; rfl
    rw [List.filter_append, filter_not_isRename_renames, List.nil_append,
      List.filter_cons_of_neg (by simp [hscalar]), ih]

end Spells

/-! ### Enums -/

/-- The values of an enum with their names, and the warnings that came with them. -/
structure KeepsLiterals (job : Job) (name place : String) (literals : List Value)
    (enum : EnumDescriptor) (names : List String) (warnings : List Warning) : Prop where
  named : enum.values.map (·.name) = names.map some
  numbered : enum.values.map (fun value => value.number.map Int32.toInt) =
    (List.range names.length).map fun (index : Nat) => some (index : Int)
  length : names.length = 1 + (literals.filter (·.isScalar)).length
  first : names[0]? = some (unspecifiedName name)
  distinct : names.Nodup
  legal : ∀ value ∈ names, Legal value
  /-- The name of the literal itself, or else that with the smallest free number. -/
  own : ∀ i literal, (literals.filter (·.isScalar))[i]? = some literal →
    ∃ text value, literalText? literal = some text ∧ names[i + 1]? = some value ∧
      OwnName (valueName job (Identifier.enumValueName name) text) (names.take (i + 1)) value
  /-- One warning for each name with a number, in the order of the values. -/
  renamed : warnings.filter Warning.isRename =
    ((literals.filterMap literalText?).zip names.tail).flatMap fun entry =>
      renames place (valueName job (Identifier.enumValueName name) entry.1) entry.2
  /-- One warning for each literal without a value. -/
  skipped : warnings.filter (!·.isRename) =
    (literals.filter (!·.isScalar)).map fun _ => .nonScalarLiteral place

/-- The values that literals bring keep the literals. -/
theorem Spells.keepsLiterals {job : Job} {name place : String} {literals : List Value}
    {enum : EnumDraft} {values : List String} {warnings : List Warning}
    (h : Spells (valueName job (Identifier.enumValueName name)) place [unspecifiedName name]
      literals values warnings)
    (henum : enum.InStep) (hvalues : enum.values = unspecifiedName name :: values)
    (hshort : literals.length < 2 ^ 31 - 1) :
    KeepsLiterals job name place literals enum.build enum.values warnings := by
  have htexts := map_some_filterMap_literalText? literals
  have hlength : values.length = (literals.filter (·.isScalar)).length := by
    rw [h.length_eq]
    simpa using congrArg List.length htexts
  -- there are at most as many values as literals, and one more
  have hbound : enum.values.length ≤ literals.length + 1 := by
    have hfilter := List.length_filter_le (·.isScalar) literals
    rw [hvalues, List.length_cons]
    omega
  refine
    { named := enum.names_build
      numbered := ?_
      length := by rw [hvalues, List.length_cons, hlength, Nat.add_comm]
      first := by rw [hvalues]; rfl
      distinct := hvalues ▸ h.nodup (by simp)
      legal := ?_
      own := ?_
      renamed := by rw [hvalues]; exact h.renamed
      skipped := h.skipped_eq }
  · calc enum.build.values.map (fun value => value.number.map Int32.toInt)
        = (enum.build.values.map (·.number)).map (Option.map Int32.toInt) := by
          rw [List.map_map]
          rfl
      _ = (List.range enum.values.length).map fun place =>
            some (Draft.position place).toInt := by
          rw [henum.numbers_build, List.map_map]
          rfl
      _ = (List.range enum.values.length).map fun (place : Nat) => some (place : Int) := by
          refine List.map_congr_left fun place hplace => ?_
          rw [List.mem_range] at hplace
          rw [Draft.toInt_position (by omega)]
  · rw [hvalues]
    refine List.forall_mem_cons.mpr ⟨unspecifiedName_legal name, ?_⟩
    exact h.forall_mem (valueName_legal job name) fun _ n => numberedName_legal n
  · intro i literal hliteral
    -- the texts stand at the places of the literals that have one
    have htext : ((literals.filterMap literalText?).map some)[i]? =
        some (literalText? literal) := by
      rw [htexts, List.getElem?_map, hliteral]
      rfl
    rw [List.getElem?_map, Option.map_eq_some_iff] at htext
    obtain ⟨text, htext, heq⟩ := htext
    obtain ⟨value, hvalue, hown⟩ := h.ownName htext
    rw [hvalues]
    exact ⟨text, value, heq.symm, hvalue, hown⟩

/-- Every literal that is a text, a truth value or a number keeps a value of its own, whatever the
enum is called and from whatever state it is compiled. -/
theorem literals_keep_values (job : Job) (name : String) (schema : Schema) {literals : List Value}
    (hshort : literals.length < 2 ^ 31 - 1) (s : State) :
    ∃ enum names warnings,
      enumCarrier job name schema literals s =
        .ok (({ name } : MessageDraft).addEnum enum)
          { s with warnings := s.warnings ++ warnings } ∧
      KeepsLiterals job name s.place literals enum.build names warnings := by
  obtain ⟨enum, values, warnings, hrun, henum, hvalues, hspells⟩ :=
    enumCarrier_spells job name schema literals s
  exact ⟨enum, enum.values, warnings, hrun, hspells.keepsLiterals henum hvalues hshort⟩

/-- Literals of all kinds: some share a name, one has the name of a numbered value, and one has the
name of the value for "unspecified". -/
def levels : List Value :=
  [.text "A", .text "a", .null, .text "A_2", .bool true, .integer (-1), .text "unspecified",
   .text "!", .list [], .tagged "grade" (.text "a"), .text "a"]

/-- All levels keep values of their own. -/
theorem literals_keep_values_levels :
    levels.length < 2 ^ 31 - 1 ∧
    ∃ enum names warnings,
      enumCarrier ⟨default, {}⟩ "Level" { shape := .enum levels } levels { file := default } =
        .ok (({ name := "Level" } : MessageDraft).addEnum enum)
          { ({ file := default } : State) with warnings := [] ++ warnings } ∧
      KeepsLiterals ⟨default, {}⟩ "Level" "document root" levels enum.build names warnings :=
  ⟨by decide, literals_keep_values ⟨default, {}⟩ "Level" { shape := .enum levels } (by decide)
    { file := default }⟩

end Compile

end Protoscribe
