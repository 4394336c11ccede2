import Protoscribe.Proofs.Compile.DistinctNames

/-!
# `Protoscribe.Proofs.Compile.Built`: messages that the operations put together

A message is built when it comes from an empty one by the operations on messages, with nothing set
by hand (`Built`). Each operation keeps the stored numbers and the registries in step with the
members (`Built.inStep`), and it looks a name up before it takes it, so no two fields and no two
nested types of a built message share a name (`Built.distinctNames`).

A compilation puts messages together in no other way: every compiled message is built
(`built_stable`).
-/

set_option autoImplicit false

namespace Protoscribe

namespace MessageDraft

/-- A message that operations on messages have put together. What is nested or merged is built
too. -/
inductive Built : MessageDraft → Prop
  | fresh (name : String) : Built { name }
  | wrapper (name : String) : Built { name, wrapper := true }
  | rename {draft : MessageDraft} (h : Built draft) (name : String) : Built { draft with name }
  | describe {draft : MessageDraft} (h : Built draft) (comment : Option String) :
      Built { draft with comment }
  | addField {draft : MessageDraft} (h : Built draft) (field : FieldDraft) :
      Built (draft.addField field)
  | addMessage {draft nested : MessageDraft} (h : Built draft) (hnested : Built nested) :
      Built (draft.addMessage nested)
  | addEnum {draft : MessageDraft} (h : Built draft) (nested : EnumDraft) :
      Built (draft.addEnum nested)
  | addOneof {draft : MessageDraft} (h : Built draft) (name : String) : Built (draft.addOneof name)
  | moveToFront {draft : MessageDraft} (h : Built draft) (order : List String) :
      Built (draft.moveToFront order)
  | merge {draft other : MessageDraft} (h : Built draft) (hother : Built other) :
      Built (draft.merge other)

namespace Built

variable {draft : MessageDraft}

/-- A built message has numbered its fields by their places, and its registries have the names of
its members. -/
theorem inStep (h : Built draft) : InStep draft := by
  induction h with
  | fresh name => exact .of_nil rfl rfl rfl rfl
  | wrapper name => exact .of_nil rfl rfl rfl rfl
  | rename _ _ ih => exact ⟨ih.numbers, ih.fields, ih.types⟩
  | describe _ _ ih => exact ⟨ih.numbers, ih.fields, ih.types⟩
  | addField _ field ih => exact ih.addField field
  | addMessage _ _ ih _ => exact ih.addMessage _
  | addEnum _ nested ih => exact ih.addEnum nested
  | addOneof _ _ ih => exact ⟨ih.numbers, ih.fields, ih.types⟩
  | moveToFront _ order ih => exact ih.moveToFront order
  | merge _ _ ih _ => exact ih.merge _

/-- A message that operations have put together has no name twice. -/
theorem distinctNames (h : Built draft) : DistinctNames draft := by
  induction h with
  | fresh name => exact .of_nil rfl rfl
  | wrapper name => exact .of_nil rfl rfl
  | rename _ _ ih => exact ⟨ih.fields, ih.types⟩
  | describe _ _ ih => exact ⟨ih.fields, ih.types⟩
  | addField h field ih => exact ih.addField h.inStep field
  | addMessage h _ ih _ => exact ih.addMessage h.inStep _
  | addEnum h nested ih => exact ih.addEnum h.inStep nested
  | addOneof _ _ ih => exact ⟨ih.fields, ih.types⟩
  | moveToFront _ order ih => exact ih.moveToFront order
  | merge h _ ih _ => exact ih.merge h.inStep _

/-- A message that is nested in a built one is built. -/
theorem nested (h : Built draft) : ∀ message ∈ draft.messages, Built message := by
  induction h with
  | fresh name => simp
  | wrapper name => simp
  | rename _ _ ih => exact ih
  | describe _ _ ih => exact ih
  | addField _ field ih => simpa using ih
  | addMessage _ hnested ih _ =>
    intro message hmessage
    rcases mem_messages_addMessage hmessage with hmem | rfl
    · exact ih message hmem
    · exact hnested
  | addEnum _ nested ih => simpa using ih
  | addOneof _ _ ih => exact ih
  | moveToFront _ _ ih => exact ih
  | merge _ _ ih ihother =>
    intro message hmessage
    rcases mem_messages_merge hmessage with hmem | hmem
    · exact ih message hmem
    · exact ihother message hmem

/-- Built types that are nested in a built message leave it built. -/
theorem nestAll (h : Built draft) {messages : List MessageDraft}
    (hmessages : ∀ message ∈ messages, Built message) (enums : List EnumDraft) :
    Built (draft.nestAll messages enums) :=
  List.foldlRecOn enums MessageDraft.addEnum
    (List.foldlRecOn messages MessageDraft.addMessage h fun _ hgrown message hmessage =>
      hgrown.addMessage (hmessages message hmessage))
    fun _ hgrown nested _ => hgrown.addEnum nested

end Built

end MessageDraft

namespace Compile

open MessageDraft (Built)

/-- Every step that puts a message together is one of the operations. -/
theorem built_stable (job : Job) (facts : Facts) : Stable job facts Built where
  fresh text comment wrapper := by
    cases wrapper with
    | false => exact (Built.fresh _).describe comment
    | true => exact (Built.wrapper _).describe comment
  union text schema := ((Built.fresh _).describe schema.description).addOneof _
  scalar text schema _ _ := ((Built.wrapper _).describe schema.description).addField _
  enum _ _ _ _ _ _ hrun := by
    simp only [enumCarrier, bind_eq_ok, pure_eq_ok] at hrun
    obtain ⟨enum, _, -, rfl, -⟩ := hrun
    exact (Built.fresh _).addEnum enum
  refer parent slot _ result _ _ hparent := by
    rcases slot.refer_cases parent result with hsame | ⟨_, field, -, -, hadded⟩
    · rwa [hsame]
    · rw [hadded]
      exact hparent.addField field
  taken parent child grown slot schema field marked _ _ htaken _ _ _ hparent hchild := by
    -- the field comes last, behind the types that come along
    refine Built.addField ?_ _
    cases htaken with
    | enum _ _ => exact hparent.addEnum _
    | enumComponent _ _ => exact hparent
    | unwrapped _ _ hunwrap =>
      obtain ⟨-, -, hmessages, -⟩ := MessageDraft.unwrap?_eq_some hunwrap
      exact hparent.nestAll (hmessages ▸ hchild.nested) _
    | message _ _ => exact hparent.addMessage (hchild.rename _)
    | component _ _ => exact hparent
  renamed _ _ name _ hchild := hchild.rename name
  merge _ _ _ _ hdraft hother := hdraft.merge hother
  moveToFront _ order hdraft := hdraft.moveToFront order
  comment _ comment hdraft := hdraft.describe comment
  payload _ _ _ _ := .fresh _

end Compile

end Protoscribe
