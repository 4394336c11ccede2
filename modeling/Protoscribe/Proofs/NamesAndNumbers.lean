import Mathlib.Data.List.Nodup
import Protoscribe.Proofs.Compile.DistinctNames
import Protoscribe.Proofs.Compile.Linked
import Protoscribe.Proofs.Link.FinishedFields

/-!
# `Protoscribe.Proofs.NamesAndNumbers`: names are distinct and numbers are dense

In every compiled message the fields are numbered from 1 without gaps, in the order in which they
stand, and neither two fields nor two nested types share a name (`WellNumbered`). The types of a
file do not share names either. `names_distinct_and_numbers_dense` states both; messages that were
handed in are kept as they are.
-/

set_option autoImplicit false

namespace Protoscribe

/-- Names are distinct in each of the two lists of a message, and fields are numbered by their
places. Numbers have 31 bits, so there is a number for every field in shorter lists only. -/
structure MessageDescriptor.WellNumbered (message : MessageDescriptor) : Prop where
  fieldNames : (message.fields.map (·.name)).Nodup
  numbers : message.fields.length < 2 ^ 31 - 1 →
    message.fields.map (fun field => field.number.map Int32.toInt) =
      (List.range message.fields.length).map fun (place : Nat) => some ((place : Int) + 1)
  typeNames : (message.messages.map (·.name) ++ message.enums.map (·.name)).Nodup

/-- The names of the messages and enums that a file declares outside any message. -/
def FileDescriptor.topLevelNames (file : FileDescriptor) : List String :=
  file.messages.map (·.name.getD "") ++ file.enums.map (·.name.getD "")

/-- The nested types of a linked message are named as in the draft. -/
theorem FileDescriptor.nestedNames_linked (file : FileDescriptor) {path : List String}
    {draft : MessageDraft} (hpath : path = path.dropLast ++ [draft.name]) :
    (file.linked path draft).messages.map (·.name) ++
      (file.linked path draft).enums.map (·.name) = draft.typeNames.map some := by
  rw [file.messages_linked hpath, file.enums_linked, List.map_map, List.map_map,
    MessageDraft.typeNames, List.map_append, List.map_map, List.map_map]
  congr 1
  exact List.map_congr_left fun nested _ => file.name_linked _ nested

/-- A draft whose numbers are in step with its fields becomes a message that is numbered by places,
with the same names. -/
theorem FileDescriptor.wellNumbered_linked {file : FileDescriptor} {path : List String}
    {draft : MessageDraft} (hpath : path = path.dropLast ++ [draft.name])
    (hstep : draft.InStep) (h : draft.DistinctNames) : (file.linked path draft).WellNumbered where
  fieldNames := by
    rw [file.fieldNames_linked]
    exact h.fields.map fun _ _ => Option.some.inj
  numbers hshort := by
    have hlength : (file.linked path draft).fields.length = draft.fields.length := by
      simpa [MessageDraft.fieldNames] using congrArg List.length (file.fieldNames_linked path draft)
    rw [hlength] at hshort ⊢
    calc (file.linked path draft).fields.map (fun field => field.number.map Int32.toInt)
        = ((file.linked path draft).fields.map (·.number)).map (Option.map Int32.toInt) := by
          rw [List.map_map]
          rfl
      _ = draft.numbers.map some := by
          rw [file.numbers_linked, MessageDraft.numbers, List.map_map, List.map_map]
          rfl
      _ = (List.range draft.fields.length).map fun (place : Nat) => some ((place : Int) + 1) := by
          rw [hstep.numbers_eq hshort, List.map_map]
          rfl
  typeNames := by
    rw [file.nestedNames_linked hpath]
    exact h.types.map fun _ _ => Option.some.inj

/-- The compiled file has the types of the draft, with its enums in another order. -/
theorem FileDraft.topLevelNames_build (file : FileDraft) :
    file.build.topLevelNames.Perm file.typeNames := by
  have hmessages : file.build.messages.map (·.name.getD "") =
      file.messages.map FileMessage.name := by
    show (Link.inMessages _ _ (file.messages.map FileMessage.build)).map _ = _
    rw [Link.inMessages_eq_map, List.map_map, List.map_map]
    refine List.map_congr_left fun message _ => ?_
    show (Link.inMessage _ _ message.build).name.getD "" = message.name
    rw [Link.inMessage_eq]
    cases message with
    | drafted draft =>
      rw [FileMessage.build, MessageDraft.name_build]
      rfl
    | finished descriptor => rfl
  have henums : (file.build.enums.map (·.name.getD "")).Perm (file.enums.map (·.name)) := by
    show ((file.sortedEnums.map EnumDraft.build).map _).Perm _
    rw [List.map_map]
    exact (perm_sortByName _ file.enums).map _
  rw [FileDescriptor.topLevelNames, FileDraft.typeNames, hmessages]
  exact henums.append_left _

namespace Compile

open OpenApi (Document)

/-- In a compiled file the types do not share names, and in each of its messages names are distinct
and fields are numbered by their places, unless the message was handed in. -/
theorem names_distinct_and_numbers_dense {document : Document} {config : Config} {out : Output}
    (h : compile document config = .ok out) :
    out.file.topLevelNames.Nodup ∧
    ∀ path message, (path, message) ∈ out.file.placed →
      message.WellNumbered ∨ out.file.IsFinished config.additionalMessages path message := by
  obtain ⟨s, -, hs, hfile⟩ := compile_eq_ok h
  rw [hfile]
  refine ⟨s.file.topLevelNames_build.nodup_iff.mpr hs.justified.names, ?_⟩
  intro path message hplaced
  refine (hs.linked_or_finished hplaced).imp_left ?_
  rintro ⟨draft, hdraft, rfl⟩
  exact FileDescriptor.wellNumbered_linked (FileDraft.path_eq_of_mem_placed hdraft)
    (hs.of_mem_placed (inStep_stable _ s.facts) hdraft)
    (hs.of_mem_placed (distinctNames_stable _ s.facts) hdraft)

/-- Variants that share a property and a nested type, and an order that moves a field to the
front. -/
def recipe : Document :=
  let step := objectNode [("text", textNode)]
  descriptionOf
    [("Recipe", .inline
       { shape := .allOf
           [objectNode [("first", step), ("title", textNode)],
            objectNode [("title", textNode), ("first", step), ("last", step)]]
           [("note", textNode)] []
         propertyOrder := some (.list [.text "note", .text "title"]) })]

/-- The names and numbers of the recipe are distinct and dense. -/
theorem names_distinct_and_numbers_dense_recipe :
    ∃ out, compile recipe {} = .ok out ∧ out.file.topLevelNames.Nodup ∧
      ∀ path message, (path, message) ∈ out.file.placed →
        message.WellNumbered ∨ out.file.IsFinished [] path message := by
  have hcompiles : compilesTo recipe {} (fun _ => true) = true := by decide +kernel
  obtain ⟨out, -, hout, -⟩ := exists_of_compilesTo hcompiles
  exact ⟨out, hout, names_distinct_and_numbers_dense hout⟩

end Compile

end Protoscribe
