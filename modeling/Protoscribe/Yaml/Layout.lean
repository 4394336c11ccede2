/-!
# `Protoscribe.Yaml.Layout`: characters, lines and columns of a YAML text

A text may hold a fixed set of characters. Line ends of any system are one line feed; the two
separators of Unicode end a line too and stay what they are. A `Position` says what is left of a
text and where that starts. Only blanks and signs of one byte stand in front of a place where the
column counts as indentation, so that bytes are columns there.
-/

set_option autoImplicit false

namespace Protoscribe.Yaml

/-- May the character occur in a text? -/
def isAllowed (c : Char) : Bool :=
  c = '\t' || c = '\n' || c = '\r' || (' ' ≤ c && c ≤ '~') || c.toNat = 0x85 ||
    (0xA0 ≤ c.toNat && c.toNat ≤ 0xFFFD) || 0x10000 ≤ c.toNat

/-- The text with a line feed for each line end. -/
def unifyBreaks : List Char → List Char
  | [] => []
  | '\r' :: '\n' :: rest => '\n' :: unifyBreaks rest
  | c :: rest => (if c = '\r' || c.toNat = 0x85 then '\n' else c) :: unifyBreaks rest

/-- Does the character end a line? -/
def isBreak (c : Char) : Bool :=
  c = '\n' || c.toNat = 0x2028 || c.toNat = 0x2029

/-- A blank or a tab. -/
def isBlank (c : Char) : Bool :=
  c = ' ' || c = '\t'

/-- Is the character a byte order mark? -/
def isByteOrderMark (c : Char) : Bool :=
  c.toNat = 0xFEFF

/-- Does a word end here, at white space or at the end of the text? -/
def endsWord : List Char → Bool
  | [] => true
  | c :: _ => isBlank c || isBreak c

/-- Does a line end here, or the text? -/
def endsLine : List Char → Bool
  | [] => true
  | c :: _ => isBreak c

/-- Does a marker between documents stand here? It counts at the start of a line only. -/
def isMarker : List Char → Bool
  | '-' :: '-' :: '-' :: rest => endsWord rest
  | '.' :: '.' :: '.' :: rest => endsWord rest
  | _ => false

/-- A letter, a digit, an underscore or a hyphen. -/
def isNameChar (c : Char) : Bool :=
  c.isAlphanum || c = '_' || c = '-'

/-- What is left of a text, and the line and the column where it starts, from 0. -/
structure Position where
  rest : List Char
  line : Nat := 0
  /-- The bytes in front of it on the line. A byte order mark that starts the line is one. -/
  column : Nat := 0

namespace Position

/-- The position behind some characters of a line. -/
def skip (position : Position) (count : Nat) : Position :=
  let column := (position.rest.take count).foldl (fun column c => column + c.utf8Size)
    position.column
  ⟨position.rest.drop count, position.line, column⟩

/-- The characters of a line that have a property, and the position behind them. -/
def span (property : Char → Bool) (position : Position) : List Char × Position :=
  let taken := position.rest.takeWhile property
  (taken, position.skip taken.length)

/-- The position behind the characters of a line that have a property. -/
def skipWhile (property : Char → Bool) (position : Position) : Position :=
  (position.span property).2

/-- The position behind a character, when that character stands here. -/
def expect? (c : Char) (position : Position) : Option Position :=
  if position.rest.head? = some c then some (position.skip 1) else none

/-- The position behind the end of a line, when that is here. -/
def skipBreak (position : Position) : Position :=
  match position.rest with
  | c :: rest => if isBreak c then ⟨rest, position.line + 1, 0⟩ else position
  | [] => position

/-- The position behind the comment that starts here, if one does. -/
def skipComment (position : Position) : Position :=
  if position.rest.head? = some '#' then position.skipWhile fun c => !isBreak c else position

/-- The start of the next line, when the rest of this one holds only blanks and a comment. -/
def nextLine? (position : Position) : Option Position :=
  let behind := (position.skipWhile isBlank).skipComment
  if endsLine behind.rest then some behind.skipBreak else none

end Position

end Protoscribe.Yaml
