import Protoscribe.Draft.Comment
import Protoscribe.Draft.Registry

/-!
# `Protoscribe.Draft.Enum`: an enum that is being written

A value gets its number when it comes in: that of its position, from 0. A name is taken once.
-/

set_option autoImplicit false

namespace Protoscribe

/-- An enum with its values in order. Each value has a name and a number, and the names are kept in
a registry as well. -/
structure EnumDraft where
  name : String
  comment : Option String := none
  numbered : List (String × Int32) := []
  takenValues : Registry := .empty
  deriving Repr, DecidableEq

namespace EnumDraft

/-- The names of the values. -/
def values (draft : EnumDraft) : List String :=
  draft.numbered.map (·.1)

/-- Is the name of a value taken? -/
def hasValue (draft : EnumDraft) (name : String) : Bool :=
  draft.takenValues.contains name

/-- Appends a value with the next number, unless its name is taken. -/
def addValue (draft : EnumDraft) (name : String) : EnumDraft :=
  if draft.hasValue name then draft
  else
    { draft with
      numbered := draft.numbered ++ [(name, Draft.position draft.numbered.length)]
      takenValues := draft.takenValues.take name }

/-- The finished enum. -/
def build (draft : EnumDraft) : EnumDescriptor :=
  ⟨some draft.name, draft.numbered.map fun value => ⟨some value.1, some value.2⟩⟩

/-- Where the comment of the enum at `path` is stored. -/
def locations (draft : EnumDraft) (path : List Int32) : List Location :=
  Draft.located path draft.comment

end EnumDraft

end Protoscribe
