import Protoscribe.Json.Numeral

/-!
# `Protoscribe.Json.Tree`: a JSON text as a tree

A tree holds a text as far as it is JSON. Where the text stops being JSON the tree has a
`Break`, and every list and object around that place ends with the same break. So a reader that
walks the tree in order finds a fault of the text exactly when it comes to the place, and what
it finds before counts first.

Some faults show only when a place is read and not when it is skipped: half of a surrogate pair
in a text, and a number beyond the largest double. The tree keeps both as leaves.
-/

set_option autoImplicit false

namespace Protoscribe.Json

/-- Why a text is not JSON: something stands where it may not, or the text ends too early. -/
inductive Fault where
  | malformed
  | cutShort
  deriving Repr, DecidableEq

/-- A place where a text stops being JSON. The fault may differ for a reader that skips the
place. -/
structure Break where
  whenRead : Fault
  whenSkipped : Fault
  deriving Repr, DecidableEq

namespace Break

/-- A place with the same fault for every reader. -/
def always (fault : Fault) : Break := ⟨fault, fault⟩

/-- Something stands where it may not. -/
def malformed : Break := always .malformed

/-- The text ends too early. -/
def cutShort : Break := always .cutShort

/-- The text ends inside a number: too early for a reader, and in a wrong place for one that skips
the number. -/
def insideNumber : Break := ⟨.cutShort, .malformed⟩

end Break

/-- A JSON text as a tree. A text leaf without content holds half of a surrogate pair. -/
inductive Tree where
  | null
  | bool (value : Bool)
  | number (numeral : Numeral)
  | text (content : Option String)
  | list (elements : List Tree) (ending : Option Break)
  | object (members : List (Option String × Tree)) (ending : Option Break)
  | broken (place : Break)
  deriving Inhabited

end Protoscribe.Json
