import Protoscribe.Proofs.Compile.Outcome
import Protoscribe.Proofs.Draft.Message

/-!
# `Protoscribe.Proofs.Compile.InStep`: numbers and registries through a compilation

Messages are put together from empty ones by fields that are added, types that are nested, merges
and orders. Each of these steps keeps the stored numbers and the registries in step with the members
(`MessageDraft.InStep`). So everything that is derived from messages in step is in step
(`Derives.inStep`), by induction over the derivation, and so are requests, responses and all
messages that a file declares (`Payload.inStep`, `Emitted.inStep`).
-/

set_option autoImplicit false

namespace Protoscribe.Compile

open OpenApi (Schema SchemaNode)
open MessageDraft (InStep)

/-- The message that a task starts from is in step with its members. -/
def Task.InStep (task : Task) : Prop :=
  ∀ draft ∈ task.start?, draft.InStep

section

variable {job : Job} {facts : Facts} {parent child grown draft : MessageDraft}

/-- A task that starts from nothing. -/
theorem Task.InStep.of_none {task : Task} (h : task.start? = none) : task.InStep := by
  simp [Task.InStep, h]

/-- A task that starts from a message. -/
theorem Task.InStep.of_some {task : Task} (h : task.start? = some draft) (hdraft : draft.InStep) :
    task.InStep := by
  intro start hstart
  cases hstart.symm.trans h
  exact hdraft

/-- A message without members has nothing to be out of step with. -/
theorem inStep_fresh (name : String) (comment : Option String) (wrapper : Bool) :
    InStep { name, comment, wrapper } :=
  .of_nil rfl rfl rfl rfl

/-- A union starts without fields and types, so nothing is taken. -/
theorem unionStart_inStep (name : String) (schema : Schema) : InStep (unionStart name schema) :=
  .of_nil rfl rfl rfl rfl

/-- The wrapper of a scalar has its one field numbered and registered. -/
theorem scalarWrapper_inStep (name : String) (schema : Schema) (type : FieldType) :
    InStep (scalarWrapper name schema type) :=
  InStep.addField (.of_nil rfl rfl rfl rfl) _

/-- The carrier of an enum has taken the name of the enum. -/
theorem enumCarrier_inStep {name : String} {schema : Schema} {literals : List Value} {s s' : State}
    (h : enumCarrier job name schema literals s = .ok draft s') : draft.InStep := by
  simp only [enumCarrier, bind_eq_ok, pure_eq_ok] at h
  obtain ⟨enum, _, -, rfl, -⟩ := h
  exact InStep.addEnum (.of_nil rfl rfl rfl rfl) enum

/-- A reference to a component adds a field or nothing. -/
theorem Slot.refer_inStep (slot : Slot) (h : parent.InStep) (result : ComponentType) :
    (slot.refer parent result).InStep := by
  cases result with
  | message type => exact h.addField _
  | enum type => exact h.addField _
  | nothing => exact h

/-- An inline schema that is taken in brings types along. -/
theorem TakenIn.inStep {fieldName : String} {allowRepeated : Bool} {field : FieldDraft}
    (h : TakenIn job facts parent fieldName child allowRepeated (grown, field))
    (hparent : parent.InStep) : grown.InStep := by
  cases h with
  | enum _ _ => exact hparent.addEnum _
  | enumComponent _ _ => exact hparent
  | unwrapped _ _ _ => exact hparent.nestAll _ _
  | message _ _ => exact hparent.addMessage _
  | component _ _ => exact hparent

/-- What is derived from messages in step is in step. -/
theorem Derives.inStep {task : Task} {compiled : Option MessageDraft}
    (h : Derives job facts task compiled) (hstart : task.InStep) :
    ∀ draft ∈ compiled, draft.InStep := by
  -- by the rules of the derivation, with the messages that a task starts from as a premise
  induction h with
  | inline _ ih
  | expanded _ _ _ ih
  | unordered _ _ ih
  | map _ _ ih => exact ih (.of_none rfl)
  | ordered _ ih =>
    rintro _ ⟨⟩
    exact (ih (.of_none rfl) _ rfl).moveToFront _
  | enum _ hrun =>
    rintro _ ⟨⟩
    exact enumCarrier_inStep hrun
  | union _ _ ih => exact ih (.of_some rfl (unionStart_inStep _ _))
  | combined _ _ _ ihmerged ih =>
    exact ih (.of_some rfl (ihmerged (.of_some rfl (inStep_fresh _ _ _)) _ rfl))
  | scalar _ =>
    rintro _ ⟨⟩
    exact scalarWrapper_inStep _ _ _
  | bareList _ => simp
  | list _ _ ih
  | object _ _ ih => exact ih (.of_some rfl (inStep_fresh _ _ _))
  | any _ => simp
  | slotsCons _ _ ihfirst ih
  | absorbCons _ _ ihfirst ih => exact ih (.of_some rfl (ihfirst hstart _ rfl))
  | @reference _ slot _ result _ =>
    rintro _ ⟨⟩
    exact slot.refer_inStep (hstart _ rfl) result
  | taken _ htaken _ _ _ =>
    rintro _ ⟨⟩
    exact (htaken.inStep (hstart _ rfl)).addField _
  | absorbReference _ _ _ ih => exact ih hstart
  | slotsNil
  | skipped
  | absorbNil
  | ignored
  | absorbNothing =>
    -- the message is the one that the task starts from
    rintro _ ⟨⟩
    exact hstart _ rfl
  | merged _ _ _ =>
    rintro _ ⟨⟩
    exact (hstart _ rfl).merge _

/-- A compiled node or schema is in step, since its task starts from nothing. -/
theorem Derives.inStep_of_none {task : Task} (h : Derives job facts task (some draft))
    (hstart : task.start? = none) : draft.InStep :=
  h.inStep (.of_none hstart) _ rfl

/-- The messages of a method are in step with their members. -/
theorem Payload.inStep (h : Payload job facts draft) : draft.InStep := by
  induction h with
  | start _ => exact .of_nil rfl rfl rfl rfl
  | described _ _ ih => exact ⟨ih.numbers, ih.fields, ih.types⟩
  | member _ hslot ih => exact hslot.inStep (.of_some rfl ih) _ rfl
  | merged _ _ _ ih => exact ih.merge _

/-- Every message that a file declares is in step with its members. -/
theorem Emitted.inStep (h : Emitted job facts draft) : draft.InStep := by
  cases h with
  | component h _ _ => exact h.inStep_of_none rfl
  | body _ h _ _ =>
    have hdraft := h.inStep_of_none rfl
    exact ⟨hdraft.numbers, hdraft.fields, hdraft.types⟩
  | payload h _ => exact h.inStep

end

end Protoscribe.Compile
