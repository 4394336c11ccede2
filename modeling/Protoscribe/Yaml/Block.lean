import Protoscribe.Yaml.Layout

/-!
# `Protoscribe.Yaml.Block`: scalars that are written as indented lines

The header says what happens to the line ends at the end, and maybe how far the lines are
indented; otherwise the first line that is not empty shows that. A literal scalar keeps its line
ends. In a folded one, a line end between two lines that start with no white space is a blank.
-/

set_option autoImplicit false

namespace Protoscribe.Yaml

/-- What happens to the line ends at the end of a block scalar. -/
inductive Chomping where
  /-- All are taken off. -/
  | strip
  /-- One is kept. -/
  | clip
  /-- All are kept. -/
  | keep

/-- What the header of a block scalar says. -/
structure BlockHeader where
  chomping : Chomping := .clip
  indentation : Option Nat := none

/-- The sign for a way of chomping. -/
def chomping? (c : Char) : Option Chomping :=
  if c = '+' then some .keep else if c = '-' then some .strip else none

/-- The digit of a header. Zero is none. -/
def indentation? (c : Char) : Option Nat :=
  if c.isDigit then some (c.toNat - '0'.toNat) else none

/-- Reads a header. -/
def Position.blockHeader? (position : Position) : Option (BlockHeader × Position) :=
  let header : BlockHeader × Nat :=
    match position.rest with
    | [] => ({}, 0)
    | a :: rest =>
      -- the two parts of a header come in either order
      let b := rest.head?
      match chomping? a, indentation? a with
      | some chomping, _ =>
        match b.bind indentation? with
        | some digit => ({ chomping, indentation := some digit }, 2)
        | none => ({ chomping }, 1)
      | none, some digit =>
        match b.bind chomping? with
        | some chomping => ({ chomping, indentation := some digit }, 2)
        | none => ({ indentation := some digit }, 1)
      | none, none => ({}, 0)
  if header.1.indentation = some 0 then none
  else ((position.skip header.2).nextLine?).map fun next => (header.1, next)

/-- A block scalar that is being read. Lists have the last character first. -/
structure BlockText where
  /-- What is known of the text. -/
  reversed : List Char := []
  /-- The end of the line before. -/
  lineEnd : Option Char := none
  /-- The ends of empty lines since then. -/
  emptyLines : List Char := []
  /-- Did the line before start with white space? -/
  startedBlank : Bool := false

namespace BlockText

/-- The text in front of a line, which starts with white space or does not. -/
def startLine (text : BlockText) (fold startsBlank : Bool) : BlockText :=
  let joined :=
    if fold && text.lineEnd = some '\n' && !text.startedBlank && !startsBlank then
      -- empty lines in between stand for the line end themselves
      if text.emptyLines.isEmpty then [' '] else []
    else text.lineEnd.toList
  { reversed := text.emptyLines ++ joined ++ text.reversed, startedBlank := startsBlank }

/-- The whole text. -/
def finish (text : BlockText) (chomping : Chomping) : String :=
  let ending :=
    match chomping with
    | .strip => []
    | .clip => text.lineEnd.toList
    | .keep => text.emptyLines ++ text.lineEnd.toList
  String.ofList (ending ++ text.reversed).reverse

end BlockText

/-- Finds the indentation of a block scalar: that of the first line that is not empty, or of an
empty line in front of it that has more blanks. `deepest` is the most that has been seen. -/
def detectIndentation (margin deepest : Nat) (emptyLines : List Char) (line column : Nat) :
    List Char → Option (Nat × List Char × Position)
  | [] => some (max (max deepest column) (max margin 1), emptyLines, ⟨[], line, column⟩)
  | c :: rest =>
    if c = ' ' then detectIndentation margin deepest emptyLines line (column + 1) rest
    else if c = '\t' then none
    else if isBreak c then
      detectIndentation margin (max deepest column) (c :: emptyLines) (line + 1) 0 rest
    else some (max (max deepest column) (max margin 1), emptyLines, ⟨c :: rest, line, column⟩)

/-- Reads the lines of a block scalar. `inLine` says that the indentation of this line is
passed. -/
def blockLines (fold : Bool) (indentation : Nat) (text : BlockText) (inLine : Bool)
    (line column : Nat) : List Char → Option (BlockText × Position)
  | [] => some (text, ⟨[], line, column⟩)
  | c :: rest =>
    if inLine then
      if isBreak c then
        blockLines fold indentation { text with lineEnd := some c } false (line + 1) 0 rest
      else
        blockLines fold indentation { text with reversed := c :: text.reversed } true line
          (column + c.utf8Size) rest
    else if isBreak c then
      blockLines fold indentation { text with emptyLines := c :: text.emptyLines } false
        (line + 1) 0 rest
    -- the line is either indented further or behind the scalar
    else if column < indentation then
      if c = ' ' then blockLines fold indentation text false line (column + 1) rest
      else if c = '\t' then none
      else some (text, ⟨c :: rest, line, column⟩)
    else
      let started := text.startLine fold (isBlank c)
      blockLines fold indentation { started with reversed := c :: started.reversed } true line
        (column + c.utf8Size) rest

/-- Scans the block scalar that starts behind its sign. `margin` is the number of columns by which
lines are indented at least. -/
def Position.block? (position : Position) (fold : Bool) (margin : Nat) :
    Option (String × Position) := do
  let (header, start) ← position.blockHeader?
  let (indentation, emptyLines, start) ←
    match header.indentation with
    -- the header counts from the column of the collection that the scalar stands in
    | some more => some (margin - 1 + more, [], start)
    | none => detectIndentation margin 0 [] start.line start.column start.rest
  let (text, behind) ←
    blockLines fold indentation { emptyLines } false start.line start.column start.rest
  some (text.finish header.chomping, behind)

end Protoscribe.Yaml
