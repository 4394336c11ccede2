import Protoscribe.Yaml.Fold

/-!
# `Protoscribe.Yaml.Plain`: scalars without quotes

A plain scalar goes on over white space and line ends, until a comment, a sign that ends it, a
marker between documents, or a line that is indented too little.
-/

set_option autoImplicit false

namespace Protoscribe.Yaml

/-- Ends the character a plain scalar inside brackets? -/
def isFlowSign (c : Char) : Bool :=
  c = ',' || c = '[' || c = ']' || c = '\x7b' || c = '\x7d'

/-- A scanned plain scalar. `endsLines` says that line ends follow it. -/
structure PlainScalar where
  text : String
  endsLines : Bool
  position : Position

/-- Does a plain scalar end behind a gap, in front of the given text? -/
def endsBehindGap (inFlow : Bool) (margin column : Nat) (gap : Gap) (text : List Char) : Bool :=
  (gap.hasBreak && !inFlow && column < margin) || (column = 0 && isMarker text) ||
    text.head? = some '#'

/-- Is the colon in front of the given text refused? That is so inside brackets, in front of a
sign. -/
def isLostColon (inFlow : Bool) (behind : List Char) : Bool :=
  inFlow && behind.head?.any fun c => isFlowSign c || c = '?'

/-- The scalar that is known, in front of a gap. -/
def PlainScalar.before (gap : Gap) (reversed : List Char) (position : Position) : PlainScalar :=
  ⟨String.ofList reversed.reverse, gap.hasBreak, position⟩

/-- Scans a plain scalar, of which `reversed` is known already. Lines have to be indented by
`margin` columns. -/
def plainFrom (inFlow : Bool) (margin : Nat) (reversed : List Char) (gap : Gap)
    (line column : Nat) : List Char → Option PlainScalar
  | [] => some (.before gap reversed ⟨[], line, column⟩)
  | c :: rest =>
    if isBlank c then
      -- a tab is no indentation
      if c = '\t' && gap.hasBreak && column < margin then none
      else plainFrom inFlow margin reversed (gap.addBlank c) line (column + 1) rest
    else if isBreak c then plainFrom inFlow margin reversed (gap.addBreak c) (line + 1) 0 rest
    else if !gap.isEmpty && endsBehindGap inFlow margin column gap (c :: rest) then
      some (.before gap reversed ⟨c :: rest, line, column⟩)
    else if c = ':' && isLostColon inFlow rest then none
    else if (c = ':' && endsWord rest) || (inFlow && isFlowSign c) then
      some (.before gap reversed ⟨c :: rest, line, column⟩)
    else
      plainFrom inFlow margin (c :: (gap.folded ++ reversed)) (.blanks []) line
        (column + c.utf8Size) rest

/-- Scans the plain scalar at a position. -/
def Position.plain? (position : Position) (inFlow : Bool) (margin : Nat) : Option PlainScalar :=
  plainFrom inFlow margin [] (.blanks []) position.line position.column position.rest

end Protoscribe.Yaml
