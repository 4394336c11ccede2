/-!
# `Protoscribe.OpenApi.Reference`: references into the component sections

A reference is a text such as `#/components/schemas/Pet`: the pointer of a section and one escaped
segment. `Reference.key?` takes the pointer off and undoes the escapes. A reference into another
section or another document names nothing.
-/

set_option autoImplicit false

namespace Protoscribe.OpenApi

/-- The component sections that references lead into. -/
inductive Section where
  | schemas
  | parameters
  | requestBodies
  | responses
  deriving Repr, DecidableEq

/-- The text in front of the key in a reference into the section. -/
def Section.pointer : Section → String
  | .schemas => "#/components/schemas/"
  | .parameters => "#/components/parameters/"
  | .requestBodies => "#/components/requestBodies/"
  | .responses => "#/components/responses/"

namespace Reference

/-- Replaces each pair of a tilde and `digit`, from left to right. -/
def replaceEscape (digit replacement : Char) : List Char → List Char
  | [] => []
  | [c] => [c]
  | c :: next :: rest =>
    if c = '~' && next = digit then replacement :: replaceEscape digit replacement rest
    else c :: replaceEscape digit replacement (next :: rest)

/-- Undoes the escapes of a pointer segment. `~1` goes first, so that `~01` stands for `~1`. -/
def unescape (segment : List Char) : List Char :=
  replaceEscape '0' '~' (replaceEscape '1' '/' segment)

/-- The segment that follows `pointer` in a reference, when there is one segment and no more. -/
def segment? (pointer reference : List Char) : Option (List Char) :=
  match List.isPrefixOf? pointer reference with
  | some segment => if segment.isEmpty || segment.contains '/' then none else some segment
  | none => none

/-- The key that a reference names behind `pointer`. -/
def key? (pointer reference : String) : Option String :=
  (segment? pointer.toList reference.toList).map fun segment => String.ofList (unescape segment)

end Reference

/-- The key that a reference names in the section. -/
def Section.key? (part : Section) (reference : String) : Option String :=
  Reference.key? part.pointer reference

end Protoscribe.OpenApi
