import Protoscribe.Text.Digit
import Protoscribe.Yaml.Layout
import Protoscribe.Yaml.Token

/-!
# `Protoscribe.Yaml.Property`: anchors, tags and directives

A tag is written in full between angle brackets, or as a handle and a suffix. The handle is one
exclamation mark, two, or a name between two; a directive may say what it stands for.
-/

set_option autoImplicit false

namespace Protoscribe.Yaml

namespace Position

/-- The name of an anchor or an alias. -/
def name? (position : Position) : Option (String × Position) :=
  let (name, behind) := position.span isNameChar
  let ends :=
    endsWord behind.rest || behind.rest.head?.any fun c => "?:,]\x7d%@`".toList.contains c
  if name.isEmpty || !ends then none else some (String.ofList name, behind)

/-- A tag handle: an exclamation mark with a name and maybe another mark. -/
def handle? (position : Position) : Option (List Char × Position) := do
  let (name, behind) := (← position.expect? '!').span isNameChar
  match behind.expect? '!' with
  | some closed => some ('!' :: name ++ ['!'], closed)
  | none => some ('!' :: name, behind)

end Position

/-- May the character stand in a tag? Some may only in a tag that is written in full. -/
def isTagChar (inFull : Bool) (c : Char) : Bool :=
  isNameChar c || ";/?:@&=+$.!~*'()".toList.contains c ||
    (inFull && (c = ',' || c = '[' || c = ']'))

/-- The number of bytes of a character, by the first of them. -/
def sequenceLength? (byte : Nat) : Option Nat :=
  if byte < 0x80 then some 1
  else if byte < 0xC0 then none
  else if byte < 0xE0 then some 2
  else if byte < 0xF0 then some 3
  else if byte < 0xF8 then some 4
  else none

/-- Reads the characters of a tag. A percent sign and two digits stand for a byte, which is kept
as the character with that code; `due` more of them have to follow before a character is
whole. -/
def tagCharsFrom (inFull : Bool) (due : Nat) : List Char → Option (List Char × List Char)
  | [] => if due = 0 then some ([], []) else none
  | '%' :: high :: low :: rest => do
    let byte := 16 * (← Text.hexDigit? high) + (← Text.hexDigit? low)
    let left ←
      if due = 0 then (sequenceLength? byte).map (· - 1)
      else if 0x80 ≤ byte ∧ byte < 0xC0 then some (due - 1)
      else none
    let (taken, behind) ← tagCharsFrom inFull left rest
    some (Char.ofNat byte :: taken, behind)
  | c :: rest =>
    if c = '%' || due ≠ 0 then none
    else if isTagChar inFull c then
      (tagCharsFrom inFull 0 rest).map fun found => (c :: found.1, found.2)
    else some ([], c :: rest)

namespace Position

/-- The characters of a tag. -/
def tagChars? (position : Position) (inFull : Bool) : Option (List Char × Position) :=
  (tagCharsFrom inFull 0 position.rest).map fun found =>
    (found.1, position.skip (position.rest.length - found.2.length))

/-- A tag: its handle and its suffix. Where the handle is empty, the suffix is the whole tag. -/
def tag? (position : Position) : Option ((String × String) × Position) := do
  match position.rest with
  | '!' :: '<' :: _ =>
    let (name, behind) ← (position.skip 2).tagChars? true
    if name.isEmpty then none
    else some (("", String.ofList name), ← behind.expect? '>')
  | _ =>
    let (handle, behind) ← position.handle?
    let (suffix, behind) ← behind.tagChars? false
    if 1 < handle.length && handle.getLast? = some '!' then
      if suffix.isEmpty then none
      else some ((String.ofList handle, String.ofList suffix), behind)
    else
      match handle.drop 1 ++ suffix with
      | [] => some (("", "!"), behind)
      | suffix => some (("!", String.ofList suffix), behind)

/-- A tag and the white space that has to follow it. Inside brackets a comma may follow as
well. -/
def wholeTag? (position : Position) (inFlow : Bool) : Option (Token × Position) := do
  let ((handle, suffix), behind) ← position.tag?
  if endsWord behind.rest || (inFlow && behind.rest.head? = some ',') then
    some (.tag handle suffix, behind)
  else none

/-- A number of a version: one to nine digits. -/
def versionNumber? (position : Position) : Option (Nat × Position) := do
  let (digits, behind) := position.span Char.isDigit
  if digits.length ≤ 9 then some (← Text.number? 10 digits, behind) else none

/-- The version of the format. -/
def version? (position : Position) : Option (Token × Position) := do
  let (major, behind) ← (position.skipWhile isBlank).versionNumber?
  let (minor, behind) ← (← behind.expect? '.').versionNumber?
  some (.version major minor, behind)

/-- What a handle stands for. -/
def handleMeaning? (position : Position) : Option (Token × Position) := do
  let (handle, behind) ← (position.skipWhile isBlank).handle?
  if 1 < handle.length && handle.getLast? ≠ some '!' then none
  else if !behind.rest.head?.any isBlank then none
  else
    let (meaning, behind) ← (behind.skipWhile isBlank).tagChars? true
    if meaning.isEmpty || !endsWord behind.rest then none
    else some (.handle (String.ofList handle) (String.ofList meaning), behind)

/-- A directive, which starts behind its percent sign and fills the line. -/
def directive? (position : Position) : Option (Token × Position) := do
  let (name, behind) := position.span isNameChar
  if !endsWord behind.rest then none
  let (token, behind) ←
    match String.ofList name with
    | "YAML" => behind.version?
    | "TAG" => behind.handleMeaning?
    | _ => none
  some (token, ← behind.nextLine?)

end Position

end Protoscribe.Yaml
