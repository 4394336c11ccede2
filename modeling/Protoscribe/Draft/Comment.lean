import Protoscribe.Descriptor.Basic
import Protoscribe.Text.Blank

/-!
# `Protoscribe.Draft.Comment`: where a comment is stored

A comment is free text. It is stored with one blank in front of every line that is not empty,
under the path of the element that it stands above. A comment of white space is no comment.
-/

set_option autoImplicit false

namespace Protoscribe.Draft

/-- One line of a stored comment. -/
def commentLine (line : List Char) : List Char :=
  match Text.trimEnd line with
  | [] => ['\n']
  | text => ' ' :: text ++ ['\n']

/-- The stored form of a comment, when it holds anything but white space. -/
def storedComment? (comment : Option String) : Option String :=
  match comment with
  | none => none
  | some text =>
    match Text.trim text.toList with
    | [] => none
    | trimmed => some (String.ofList ((Text.lines trimmed).flatMap commentLine))

/-- The location of the element at `path`, when its comment is not blank. -/
def located (path : List Int32) (comment : Option String) : List Location :=
  (storedComment? comment).toList.map fun stored => ⟨path, [0, 0, 0], some stored⟩

/-- A position as a 32-bit number; positions beyond the largest one share it. -/
def position (index : Nat) : Int32 :=
  Int32.ofNat (min index 2147483647)

/-- The path of the `index`-th element under `tag`. -/
def pathBelow (path : List Int32) (tag : Int32) (index : Nat) : List Int32 :=
  path ++ [tag, position index]

end Protoscribe.Draft
