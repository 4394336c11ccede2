import Protoscribe.Json.Tree
import Protoscribe.Text.Digit

/-!
# `Protoscribe.Json.Scan`: from a JSON text to its tree

`Json.ofText` reads a text as far as it is JSON. Every function here takes the characters that are
left and gives back those behind what it read, or the place where the text stops being JSON.
-/

set_option autoImplicit false

namespace Protoscribe.Json

/-- What was read and what follows it, or the place where the text stops being JSON. -/
abbrev Rest := Except Break (List Char)

/-- White space between the parts of a JSON text. -/
def isSpace (c : Char) : Bool :=
  c = ' ' || c = '\n' || c = '\t' || c = '\r'

/-- The text behind leading white space. -/
def skipSpace (text : List Char) : List Char :=
  text.dropWhile isSpace

/-- The text behind a word that has to stand here. -/
def expect : List Char → List Char → Rest
  | [], text => .ok text
  | _ :: _, [] => .error .cutShort
  | c :: word, d :: text => if c = d then expect word text else .error .malformed

/-- The value of four hexadecimal digits. -/
def hexUnit? (a b c d : Char) : Option Nat :=
  Text.number? 16 [a, b, c, d]

/-- The character that a letter behind a backslash stands for. -/
def escaped? : Char → Option Char
  | '"' => some '"'
  | '\\' => some '\\'
  | '/' => some '/'
  | 'b' => some '\x08'
  | 'f' => some '\x0c'
  | 'n' => some '\n'
  | 'r' => some '\r'
  | 't' => some '\t'
  | _ => none

/-- What has been read of a text: its characters, last one first, a first half of a surrogate pair
that waits for the second half, and whether all halves so far are paired. -/
structure Content where
  reversed : List Char := []
  half : Option Nat := none
  paired : Bool := true

namespace Content

/-- Appends a character. -/
def push (content : Content) (c : Char) : Content :=
  { content with
    reversed := c :: content.reversed, half := none
    paired := content.paired && content.half.isNone }

/-- Appends a 16-bit unit. -/
def pushUnit (content : Content) (unit : Nat) : Content :=
  if 0xDC00 ≤ unit && unit ≤ 0xDFFF then
    match content.half with
    | some first =>
      -- `push` would count the waiting half as one that is not paired
      { content.push (Char.ofNat (0x10000 + (first - 0xD800) * 0x400 + (unit - 0xDC00))) with
        paired := content.paired }
    | none => { content with paired := false }
  else if 0xD800 ≤ unit && unit ≤ 0xDBFF then
    { content with half := some unit, paired := content.paired && content.half.isNone }
  else content.push (Char.ofNat unit)

/-- The text, unless it holds half of a surrogate pair. -/
def text? (content : Content) : Option String :=
  if content.paired && content.half.isNone then some (String.ofList content.reversed.reverse)
  else none

/-- The place of a fault behind the content. A half that is not paired shows first, when the
text is read. -/
def broken (content : Content) (fault : Fault) : Break :=
  ⟨if content.paired then fault else .malformed, fault⟩

end Content

/-- The fault of an escape that four hexadecimal digits should follow: too short in bytes, or not
digits. -/
def unitFault (text : List Char) : Fault :=
  if (String.ofList text).utf8ByteSize < 4 then .cutShort else .malformed

/-- A text behind its opening quotation mark. -/
def scanText (content : Content) : List Char → Except Break (Option String × List Char)
  | [] => .error (content.broken .cutShort)
  | '"' :: rest => .ok (content.text?, rest)
  | ['\\'] => .error (content.broken .cutShort)
  | '\\' :: 'u' :: a :: b :: c :: d :: rest =>
    match hexUnit? a b c d with
    | some unit => scanText (content.pushUnit unit) rest
    | none => .error (content.broken .malformed)
  | '\\' :: 'u' :: short => .error (content.broken (unitFault short))
  | '\\' :: letter :: rest =>
    match escaped? letter with
    | some c => scanText (content.push c) rest
    | none => .error (content.broken .malformed)
  | c :: rest =>
    if c.toNat < 32 then .error (content.broken .malformed) else scanText (content.push c) rest

/-- The exponent of a number, when one stands here. -/
def scanExponent (numeral : Numeral) : List Char → Except Break (Numeral × List Char)
  | [] => .ok (numeral, [])
  | mark :: text =>
    if mark ≠ 'e' && mark ≠ 'E' then .ok (numeral, mark :: text)
    else
      let negative := text.head? = some '-'
      let behindSign := if negative || text.head? = some '+' then text.drop 1 else text
      match behindSign.takeWhile Char.isDigit with
      | [] => .error (if behindSign.isEmpty then .insideNumber else .malformed)
      | digits =>
        .ok
          ({ numeral with exponent := some (negative, digits) },
            behindSign.dropWhile Char.isDigit)

/-- The rest of a number behind the digits in front of the point. -/
def scanFraction (numeral : Numeral) : List Char → Except Break (Numeral × List Char)
  | '.' :: text =>
    match text.takeWhile Char.isDigit with
    | [] => .error (if text.isEmpty then .insideNumber else .malformed)
    | digits => scanExponent { numeral with fraction := digits } (text.dropWhile Char.isDigit)
  | text => scanExponent numeral text

/-- A number behind its sign. A zero in front stands alone. -/
def scanNumber (negative : Bool) : List Char → Except Break (Numeral × List Char)
  | [] => .error .insideNumber
  | '0' :: text =>
    if text.head?.any Char.isDigit then .error .malformed
    else scanFraction ⟨negative, ['0'], [], none⟩ text
  | c :: text =>
    if c.isDigit then
      scanFraction ⟨negative, c :: text.takeWhile Char.isDigit, [], none⟩
        (text.dropWhile Char.isDigit)
    else .error .malformed

/-- A leaf, or the place where it breaks off. -/
def leaf {α : Type} (make : α → Tree) : Except Break (α × List Char) → Tree × Rest
  | .ok (value, rest) => (make value, .ok rest)
  | .error place => (.broken place, .error place)

/-- A word that stands for a value. -/
def word (value : Tree) (remaining text : List Char) : Tree × Rest :=
  match expect remaining text with
  | .ok rest => (value, .ok rest)
  | .error place => (.broken place, .error place)

/-- How a list or an object ends: with a break or not. -/
def ending : Rest → Option Break
  | .ok _ => none
  | .error place => some place

mutual

/-- The value that stands here. Every nested value takes one step of `fuel`. -/
def scan : Nat → List Char → Tree × Rest
  | 0, _ => (.broken .cutShort, .error .cutShort)
  | fuel + 1, text =>
    match skipSpace text with
    | [] => (.broken .cutShort, .error .cutShort)
    | 'n' :: rest => word .null ['u', 'l', 'l'] rest
    | 't' :: rest => word (.bool true) ['r', 'u', 'e'] rest
    | 'f' :: rest => word (.bool false) ['a', 'l', 's', 'e'] rest
    | '"' :: rest => leaf .text (scanText {} rest)
    | '-' :: rest => leaf .number (scanNumber true rest)
    | '[' :: rest =>
      match skipSpace rest with
      | ']' :: rest => (.list [] none, .ok rest)
      | rest =>
        let (elements, after) := scanElements fuel rest
        (.list elements (ending after), after)
    | '\x7b' :: rest =>
      match skipSpace rest with
      | '\x7d' :: rest => (.object [] none, .ok rest)
      | rest =>
        let (members, after) := scanMembers fuel rest
        (.object members (ending after), after)
    | c :: rest =>
      if c.isDigit then leaf .number (scanNumber false (c :: rest))
      else (.broken .malformed, .error .malformed)

/-- The elements of a list, of which one has to stand here, up to the closing bracket. -/
def scanElements : Nat → List Char → List Tree × Rest
  | 0, _ => ([], .error .cutShort)
  | fuel + 1, text =>
    let (element, after) := scan fuel text
    match after with
    | .error place => ([element], .error place)
    | .ok rest =>
      match skipSpace rest with
      | ']' :: rest => ([element], .ok rest)
      | ',' :: rest =>
        let (others, after) := scanElements fuel rest
        (element :: others, after)
      | [] => ([element], .error .cutShort)
      | _ => ([element], .error .malformed)

/-- The members of an object, of which one has to stand here, up to the closing brace. A member
without a colon has a broken value. -/
def scanMembers : Nat → List Char → List (Option String × Tree) × Rest
  | 0, _ => ([], .error .cutShort)
  | fuel + 1, text =>
    match skipSpace text with
    | [] => ([], .error .cutShort)
    | '"' :: rest =>
      match scanText {} rest with
      | .error place => ([], .error place)
      | .ok (key, rest) =>
        match skipSpace rest with
        | ':' :: rest =>
          let (value, after) := scan fuel rest
          match after with
          | .error place => ([(key, value)], .error place)
          | .ok rest =>
            match skipSpace rest with
            | '\x7d' :: rest => ([(key, value)], .ok rest)
            | ',' :: rest =>
              let (others, after) := scanMembers fuel rest
              ((key, value) :: others, after)
            | [] => ([(key, value)], .error .cutShort)
            | _ => ([(key, value)], .error .malformed)
        | [] => ([(key, .broken .cutShort)], .error .cutShort)
        | _ => ([(key, .broken .malformed)], .error .malformed)
    | _ => ([], .error .malformed)

end

/-- The tree of a text, and whether nothing but white space follows it. Each value takes at
least one character, so the fuel outlasts the text. -/
def ofText (text : String) : Tree × Bool :=
  let characters := text.toList
  let (tree, after) := scan (2 * characters.length + 2) characters
  match after with
  | .ok rest => (tree, (skipSpace rest).isEmpty)
  | .error _ => (tree, true)

end Protoscribe.Json
