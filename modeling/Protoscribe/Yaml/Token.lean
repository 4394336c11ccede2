/-!
# `Protoscribe.Yaml.Token`: the tokens of a YAML text

Tokens make the nesting of a text explicit: what a block collection says by its indentation has
a start and an end here, as a flow collection has by its brackets. Every key of a map has the
token `key` in front of it.
-/

set_option autoImplicit false

namespace Protoscribe.Yaml

/-- How a scalar is written. -/
inductive Style where
  | plain
  | singleQuoted
  | doubleQuoted
  | literal
  | folded
  deriving Repr, DecidableEq

/-- A token. -/
inductive Token where
  /-- The directive that gives the version of the format. -/
  | version (major minor : Nat)
  /-- The directive that gives the meaning of a tag handle. -/
  | handle (name meaning : String)
  | documentStart
  | documentEnd
  | blockListStart
  | blockMapStart
  | blockEnd
  | flowListStart
  | flowListEnd
  | flowMapStart
  | flowMapEnd
  /-- The sign in front of an element of a block list. -/
  | entry
  /-- The comma between elements of a flow collection. -/
  | separator
  | key
  | value
  | alias (name : String)
  | anchor (name : String)
  | tag (handle suffix : String)
  | scalar (style : Style) (text : String)
  deriving Repr, DecidableEq

end Protoscribe.Yaml
