import Protoscribe.Yaml.Layout

/-!
# `Protoscribe.Yaml.Fold`: white space inside a scalar

Between two parts of a plain or quoted scalar stands a `Gap`. Blanks of one line stand for
themselves. A line feed is a blank, and more of them are one less than they are. Blanks around
line breaks count for nothing.
-/

set_option autoImplicit false

namespace Protoscribe.Yaml

/-- White space between two parts of a scalar. Lists have the last character first. -/
inductive Gap where
  /-- Blanks of one line, maybe none. -/
  | blanks (reversed : List Char)
  /-- Line breaks: the first one, unless that is escaped, and the others. -/
  | breaks (first : Option Char) (reversed : List Char)

namespace Gap

/-- Is there nothing between the parts? -/
def isEmpty : Gap → Bool
  | .blanks [] => true
  | _ => false

/-- Does a line end between the parts? -/
def hasBreak : Gap → Bool
  | .blanks _ => false
  | .breaks _ _ => true

/-- The gap with a blank behind it. -/
def addBlank (c : Char) : Gap → Gap
  | .blanks reversed => .blanks (c :: reversed)
  | gap => gap

/-- The gap with a line break behind it. -/
def addBreak (c : Char) : Gap → Gap
  | .blanks _ => .breaks (some c) []
  | .breaks first reversed => .breaks first (c :: reversed)

/-- The characters that the gap stands for, last one first. -/
def folded : Gap → List Char
  | .blanks reversed => reversed
  | .breaks (some '\n') [] => [' ']
  | .breaks (some '\n') reversed => reversed
  | .breaks first reversed => reversed ++ first.toList

end Gap

end Protoscribe.Yaml
