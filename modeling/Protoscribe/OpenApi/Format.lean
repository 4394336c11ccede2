import Protoscribe.Descriptor.HttpRule

/-!
# `Protoscribe.OpenApi.Format`: the format of a description file

A file whose name ends in `json` behind a point holds JSON, every other file holds YAML. A point
at the start of a name begins no ending.
-/

set_option autoImplicit false

namespace Protoscribe.OpenApi

/-- The formats of a description. -/
inductive Format where
  | json
  | yaml
  deriving Repr, DecidableEq

namespace Format

/-- The parts of a path, without empty ones and those that stand for the same directory. -/
def segments (path : List Char) : List (List Char) :=
  (path.splitOn '/').filter fun segment => segment ≠ [] && segment ≠ ['.']

/-- The ending of a file name: what follows its last point, unless nothing stands before that. -/
def ending? (name : List Char) : Option (List Char) :=
  if name = ['.', '.'] then none
  else
    match name.reverse.span (· ≠ '.') with
    | (reversed, '.' :: _ :: _) => some reversed.reverse
    | _ => none

/-- The format of the file at a path. -/
def ofPath (path : String) : Format :=
  match (segments path.toList).getLast?.bind ending? with
  | some ending => if ending.map Char.toLower = ['j', 's', 'o', 'n'] then .json else .yaml
  | none => .yaml

end Format

end Protoscribe.OpenApi
