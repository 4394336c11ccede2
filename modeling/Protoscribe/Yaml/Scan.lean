import Protoscribe.Yaml.Block
import Protoscribe.Yaml.Plain
import Protoscribe.Yaml.Property
import Protoscribe.Yaml.Quoted

/-!
# `Protoscribe.Yaml.Scan`: from a YAML text to its tokens

Whether something is a key shows only at the colon behind it. So a place where a key may start
is remembered as a `Candidate`, one for each level of brackets, and the tokens for a key are put
in there when the colon comes. A candidate ends with its line and after 1024 bytes. The first word
of a line in a block map has to turn out to be a key.

`Scan.next?` scans one token and has no result where the text is malformed.
-/

set_option autoImplicit false

namespace Protoscribe.Yaml

/-- A place where a key may have started. -/
structure Candidate where
  /-- Is it an error if no key started here? -/
  required : Bool
  /-- The number of tokens in front of it. -/
  index : Nat
  line : Nat
  column : Nat

/-- How far a text is scanned. -/
structure Scan where
  position : Position
  /-- The tokens so far, last one first. -/
  tokens : List Token := []
  /-- The number of tokens so far. -/
  count : Nat := 0
  /-- The columns by which the content of the innermost block collection is indented at least. -/
  margin : Nat := 0
  /-- The margins around it. -/
  margins : List Nat := []
  /-- The place where a key may have started on this level of brackets. -/
  candidate : Option Candidate := none
  /-- The same for the levels around it. -/
  outer : List (Option Candidate) := []
  /-- May a key start here? -/
  keyAllowed : Bool := true

namespace Scan

/-- Is the place inside brackets? -/
def inFlow (scan : Scan) : Bool :=
  !scan.outer.isEmpty

/-- Appends a token. -/
def push (scan : Scan) (token : Token) : Scan :=
  { scan with tokens := token :: scan.tokens, count := scan.count + 1 }

/-- Puts a token in behind the first `index` ones. -/
def insert (scan : Scan) (index : Nat) (token : Token) : Scan :=
  { scan with
    -- the last token comes first, so the place is counted from behind
    tokens := scan.tokens.insertIdx (scan.count - index) token, count := scan.count + 1 }

/-- Appends a token that takes up some characters. -/
def take (scan : Scan) (length : Nat) (token : Token) : Scan :=
  { scan.push token with position := scan.position.skip length }

/-- Appends a token with the position behind it. -/
def takeTo (scan : Scan) (token : Token) (position : Position) : Scan :=
  { scan.push token with position }

/-- Drops candidates that no longer can be keys. -/
def refresh (position : Position) : Option Candidate → Option (Option Candidate)
  | none => some none
  | some candidate =>
    if candidate.line < position.line || candidate.column + 1024 < position.column then
      if candidate.required then none else some none
    else some (some candidate)

/-- Drops candidates of all levels that no longer can be keys. -/
def refreshAll (scan : Scan) : Option Scan := do
  let candidate ← refresh scan.position scan.candidate
  let outer ← scan.outer.mapM (refresh scan.position)
  some { scan with candidate, outer }

/-- Gives up the candidate of this level. -/
def dropCandidate (scan : Scan) : Option Scan :=
  if scan.candidate.any (·.required) then none else some { scan with candidate := none }

/-- Makes this place a candidate, if a key may start here. -/
def markCandidate (scan : Scan) : Option Scan := do
  if !scan.keyAllowed then return scan
  let scan ← scan.dropCandidate
  let column := scan.position.column
  -- the first word of a line in a block map can only be a key
  let required := !scan.inFlow && scan.margin = column + 1
  some { scan with candidate := some ⟨required, scan.count, scan.position.line, column⟩ }

/-- Ends block collections until the margin is at most `limit`. -/
def closeBlocks (limit : Nat) (scan : Scan) : List Nat → Scan
  | [] => scan
  | margin :: margins =>
    if limit < scan.margin then
      closeBlocks limit { scan.push .blockEnd with margin, margins } margins
    else scan

/-- Ends the block collections that are indented further than `limit` says. Inside brackets,
indentation does not count. -/
def unindent (scan : Scan) (limit : Nat) : Scan :=
  if scan.inFlow then scan else closeBlocks limit scan scan.margins

/-- Starts a block collection at a column with the token at a place, unless one is open there. -/
def indent (scan : Scan) (column index : Nat) (token : Token) : Scan :=
  if scan.inFlow || column < scan.margin then scan
  else
    { scan.insert index token with margin := column + 1, margins := scan.margin :: scan.margins }

/-- Passes over white space, comments and line ends. A tab counts as white space only where no
key may start, and a byte order mark only at the start of a line. -/
def skipSpace (inFlow : Bool) (keyAllowed inComment : Bool) (line column : Nat) :
    List Char → Bool × Position
  | [] => (keyAllowed, ⟨[], line, column⟩)
  | c :: rest =>
    if isBreak c then skipSpace inFlow (keyAllowed || !inFlow) false (line + 1) 0 rest
    else if inComment || c = ' ' || (c = '\t' && (inFlow || !keyAllowed)) then
      skipSpace inFlow keyAllowed inComment line (column + c.utf8Size) rest
    else if column = 0 && isByteOrderMark c then skipSpace inFlow keyAllowed false line 1 rest
    else if c = '#' then skipSpace inFlow keyAllowed true line (column + 1) rest
    else (keyAllowed, ⟨c :: rest, line, column⟩)

/-- Goes on to where the next token starts. -/
def toToken (scan : Scan) : Option Scan := do
  let position := scan.position
  let (keyAllowed, position) :=
    skipSpace scan.inFlow scan.keyAllowed false position.line position.column position.rest
  let scan ← refreshAll { scan with keyAllowed, position }
  some (scan.unindent (position.column + 1))

/-- A directive or a marker between documents ends everything that is open. -/
def betweenDocuments (scan : Scan) : Option Scan := do
  some { ← (scan.unindent 0).dropCandidate with keyAllowed := false }

/-- The start of a flow collection. -/
def openFlow (scan : Scan) (token : Token) : Option Scan := do
  let scan ← scan.markCandidate
  some
    { scan.take 1 token with
      -- the collection itself may be the key, so its candidate waits outside
      candidate := none, outer := scan.candidate :: scan.outer, keyAllowed := true }

/-- The end of a flow collection. -/
def closeFlow (scan : Scan) (token : Token) : Option Scan := do
  let scan := { (← scan.dropCandidate).take 1 token with keyAllowed := false }
  match scan.outer with
  | [] => some scan
  | candidate :: outer => some { scan with candidate, outer }

/-- A comma. -/
def separator (scan : Scan) : Option Scan := do
  some { (← scan.dropCandidate).take 1 .separator with keyAllowed := true }

/-- Starts the block collection that a sign shows. It may only stand where a key may. -/
def startBlock (scan : Scan) (token : Token) : Option Scan :=
  if scan.inFlow then some scan
  else if scan.keyAllowed then some (scan.indent scan.position.column scan.count token)
  else none

/-- The sign of an element of a block list. -/
def entry (scan : Scan) : Option Scan := do
  let scan ← (← scan.startBlock .blockListStart).dropCandidate
  some { scan.take 1 .entry with keyAllowed := true }

/-- The sign of a key. -/
def key (scan : Scan) : Option Scan := do
  let scan ← (← scan.startBlock .blockMapStart).dropCandidate
  some { scan.take 1 .key with keyAllowed := !scan.inFlow }

/-- The colon in front of a value. It makes a key of the candidate. -/
def value (scan : Scan) : Option Scan :=
  match scan.candidate with
  | some candidate =>
    let scan :=
      (scan.insert candidate.index .key).indent candidate.column candidate.index .blockMapStart
    some { scan.take 1 .value with candidate := none, keyAllowed := false }
  | none => do
    -- the key is empty, or its own sign stood in front of it
    let scan ← scan.startBlock .blockMapStart
    some { scan.take 1 .value with keyAllowed := !scan.inFlow }

/-- Something that may be a key: it is scanned behind `skipped` characters. -/
def word (scan : Scan) (skipped : Nat) (read : Position → Option (Token × Position)) :
    Option Scan := do
  let scan ← scan.markCandidate
  let (token, position) ← read (scan.position.skip skipped)
  some { scan.takeTo token position with keyAllowed := false }

/-- A scalar that is written as indented lines. -/
def block (scan : Scan) (fold : Bool) : Option Scan := do
  let scan ← scan.dropCandidate
  let (text, position) ← (scan.position.skip 1).block? fold scan.margin
  some { scan.takeTo (.scalar (if fold then .folded else .literal) text) position with
    keyAllowed := true }

/-- A scalar without quotes. -/
def plain (scan : Scan) : Option Scan := do
  let scan ← scan.markCandidate
  let found ← scan.position.plain? scan.inFlow scan.margin
  some { scan.takeTo (.scalar .plain found.text) found.position with keyAllowed := found.endsLines }

/-- May a plain scalar start with the character, in front of the given text? -/
def startsPlain (inFlow : Bool) (c : Char) (behind : List Char) : Bool :=
  if c = '-' then !behind.head?.any isBlank
  else if c = '?' || c = ':' then !inFlow && !endsWord behind
  else !",[]\x7b\x7d#&*!|>'\"%@`".toList.contains c && !isBlank c

/-- Scans the next token, whose first character is given and not part of a marker or a
directive. -/
def token? (scan : Scan) (c : Char) (behind : List Char) : Option Scan :=
  -- inside brackets a sign need not stand alone
  let signEnds := scan.inFlow || endsWord behind
  if c = '[' then scan.openFlow .flowListStart
  else if c = '\x7b' then scan.openFlow .flowMapStart
  else if c = ']' then scan.closeFlow .flowListEnd
  else if c = '\x7d' then scan.closeFlow .flowMapEnd
  else if c = ',' then scan.separator
  else if c = '-' && endsWord behind then scan.entry
  else if c = '?' && signEnds then scan.key
  else if c = ':' && signEnds then scan.value
  else if c = '*' then scan.word 1 (Position.name? · |>.map fun found => (.alias found.1, found.2))
  else if c = '&' then scan.word 1 (Position.name? · |>.map fun found => (.anchor found.1, found.2))
  else if c = '!' then scan.word 0 (·.wholeTag? scan.inFlow)
  else if c = '|' && !scan.inFlow then scan.block false
  else if c = '>' && !scan.inFlow then scan.block true
  else if c = '\'' then
    scan.word 1
      (Position.singleQuoted? · |>.map fun found => (.scalar .singleQuoted found.1, found.2))
  else if c = '"' then
    scan.word 1
      (Position.doubleQuoted? · |>.map fun found => (.scalar .doubleQuoted found.1, found.2))
  else if startsPlain scan.inFlow c behind then scan.plain
  else none

/-- Scans one more token. At the end of the text, the first part says that all is done. -/
def next? (scan : Scan) : Option (Bool × Scan) := do
  let scan ← scan.toToken
  let position := scan.position
  match position.rest with
  -- what is open ends with the text
  | [] => some (true, ← (scan.unindent 0).dropCandidate)
  | c :: behind =>
    if position.column = 0 && c = '%' then
      let scan ← scan.betweenDocuments
      let (token, next) ← (position.skip 1).directive?
      some (false, scan.takeTo token next)
    else if position.column = 0 && isMarker position.rest then
      let scan ← scan.betweenDocuments
      some (false, scan.take 3 (if c = '-' then .documentStart else .documentEnd))
    else (scan.token? c behind).map fun scan => (false, scan)

/-- Scans the rest of a text. Every token takes up a character, so the length of the text is
`fuel` enough. -/
def run : Nat → Scan → Option (List Token)
  | 0, _ => none
  | fuel + 1, scan => do
    let (done, scan) ← scan.next?
    if done then some scan.tokens.reverse else run fuel scan

end Scan

/-- The tokens of a text. -/
def tokens? (text : String) : Option (List Token) :=
  let chars := text.toList
  if chars.all isAllowed then
    Scan.run (chars.length + 1) { position := { rest := unifyBreaks chars } }
  else none

end Protoscribe.Yaml
