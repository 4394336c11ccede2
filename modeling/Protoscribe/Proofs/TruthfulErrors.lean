import Protoscribe.Proofs.Compile.FaithfulPasses
import Protoscribe.Proofs.CycleReports
import Protoscribe.Proofs.Termination

/-!
# `Protoscribe.Proofs.TruthfulErrors`: an error says what is wrong with the description

When a compilation fails, its error is about something that stands in the description. A reference
that is reported as unresolved stands where a reference into some section is expected, and leads
nowhere in that section. Where an order of properties is rejected, some schema has an order that is
no list of texts. Besides that there are only cycles: no primitive schema lacks a field type, and no
compilation runs out of levels (`compile_error_truthful`).

Errors may come up anywhere in the recursion, and in any state of it. That the whole run is
`Faithful` leaves only the error of an engine without levels, which no job runs into.
-/

set_option autoImplicit false

namespace Protoscribe.Compile

open OpenApi (Document)

/-- A run from the start only reports what is true of the description. -/
theorem truthful_of_run {job : Job} {error : CompileError} {t : State}
    (h : compileDocument job { file := startFile job.document job.config } = .error error t) :
    Truthful job.document error := by
  have hfaithful : Faithful job.document [wrappersFile, emptyFile, annotationsFile]
      ((Engine.ofLevels job job.levels).compileDocument job) :=
    compileDocument_faithful (Engine.ofLevels_faithful job (by simp) job.levels) (by simp)
      (by simp)
  rw [← Engine.compileDocument_eq] at h
  exact hfaithful.error h

/-- A compilation fails only for what is wrong with the description: a reference in it leads
nowhere, or components need each other in a circle, or the order of a schema is no list of texts. -/
theorem compile_error_truthful {document : Document} {config : Config} {error : CompileError}
    (h : compile document config = .error error) :
    (∃ part reference place, error = .unresolvedReference reference place ∧
      StandsFor document reference part ∧ Dangles document part reference) ∨
    (∃ name chain, error = .cycle name chain) ∨
    ∃ schema order place, error = .invalidPropertyOrder place ∧
      Stands document (.inline schema) ∧ schema.propertyOrder = some order ∧
        ¬ IsTextList order := by
  unfold compile at h
  split at h
  · cases h
  · rename_i error t hrun
    cases h
    cases truthful_of_run hrun with
    | unresolvedReference hstands hdangles =>
      exact .inl ⟨_, _, _, rfl, hstands, hdangles⟩
    | cycle => exact .inr (.inl ⟨_, _, rfl⟩)
    | invalidPropertyOrder hstands horder hinvalid =>
      exact .inr (.inr ⟨_, _, _, rfl, hstands, horder, hinvalid⟩)
    | exhausted =>
      exact absurd ⟨_, t, hrun, rfl⟩ (compileDocument_not_exhausted ⟨document, config⟩)

/-- A component that refers to one that is not there. -/
def parcel : Document :=
  descriptionOf [("Parcel", objectNode [("stamp", .ref "#/components/schemas/Stamp")])]

/-- The parcel fails for its reference. -/
theorem compile_error_truthful_parcel :
    let error : CompileError := .unresolvedReference "#/components/schemas/Stamp"
      "components.schemas.Parcel.properties.stamp"
    compile parcel {} = .error error ∧
      ((∃ part reference place, error = .unresolvedReference reference place ∧
        StandsFor parcel reference part ∧ Dangles parcel part reference) ∨
      (∃ name chain, error = .cycle name chain) ∨
      ∃ schema order place, error = .invalidPropertyOrder place ∧
        Stands parcel (.inline schema) ∧ schema.propertyOrder = some order ∧
          ¬ IsTextList order) := by
  have hfails : compile parcel {} = .error (.unresolvedReference "#/components/schemas/Stamp"
      "components.schemas.Parcel.properties.stamp") :=
    compile_eq_error (by decide +kernel)
  exact ⟨hfails, compile_error_truthful hfails⟩

end Protoscribe.Compile
