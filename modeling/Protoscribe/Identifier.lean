/-!
# `Protoscribe.Identifier`: legal identifiers from free-form names

Names in an API description are free text (`pet-store`, `userIDs`, `2fa`). A schema file wants
`UpperCamelCase` message names, `lower_snake_case` field names and `UPPER_SNAKE_CASE` enum values.
All three share one word splitter, `words`, which cuts a text at everything that is not an ASCII
letter or digit and at changes of letter case. The table `Acronyms` keeps well-known abbreviations
in their own spelling inside message names.
-/

set_option autoImplicit false

namespace Protoscribe

namespace Identifier

/-- Is the text after a capital an `s` that closes a run of capitals, as in `IDs`? -/
def isPluralEnding : List Char → Bool
  | 's' :: next :: _ => !next.isLower
  | ['s'] => true
  | _ => false

/-- Does a new word start at `current`, which stands after `previous` and before `after`?

A capital starts a word after a lower-case letter or a digit. Inside a run of capitals only the
last one does, when lower case follows it that is more than a plural `s`. -/
def startsWord (previous current : Char) (after : List Char) : Bool :=
  current.isUpper &&
    (previous.isLower || previous.isDigit ||
      (previous.isUpper && (after.head?.any Char.isLower) && !isPluralEnding after))

/-- Puts a character in front of the first word. -/
def extend (c : Char) : List (List Char) → List (List Char)
  | [] => [[c]]
  | word :: rest => (c :: word) :: rest

/-- The words of a text: its runs of ASCII letters and digits, cut where `startsWord` says. -/
def words : List Char → List (List Char)
  | [] => []
  | [c] => if c.isAlphanum then [[c]] else []
  | c :: next :: rest =>
    if !c.isAlphanum then words (next :: rest)
    else if next.isAlphanum && !startsWord c next rest then extend c (words (next :: rest))
    else [c] :: words (next :: rest)

/-- The first letter in upper case. -/
def capitalize : List Char → List Char
  | [] => []
  | c :: rest => c.toUpper :: rest

/-- An identifier does not start with a digit: an underscore goes in front of one. -/
def guardDigit : List Char → List Char
  | [] => []
  | c :: rest => if c.isDigit then '_' :: c :: rest else c :: rest

/-- The words in lower case, joined by underscores. -/
def snake (text : List Char) : List Char :=
  guardDigit (['_'].intercalate ((words text).map (·.map Char.toLower)))

/-- `lower_snake_case`, as fields are named. -/
def fieldName (text : String) : String :=
  String.ofList (snake text.toList)

/-- `UPPER_SNAKE_CASE`, as enum values are named. -/
def enumValueName (text : String) : String :=
  String.ofList ((snake text.toList).map Char.toUpper)

end Identifier

/-- Abbreviations that message names keep in their own spelling. Two spellings that differ only in
ASCII letter case stand for one abbreviation, and the later one counts. -/
structure Acronyms where
  spellings : List String := []
  deriving Repr, DecidableEq

namespace Acronyms

open Identifier

/-- The spelling of an abbreviation that is given in lower case. -/
def spelling? (acronyms : Acronyms) (lower : List Char) : Option (List Char) :=
  if lower.isEmpty then none
  else (acronyms.spellings.map String.toList).reverse.find? (·.map Char.toLower == lower)

/-- One word of a message name: an abbreviation in its spelling, also with a plural `s`, and any
other word with its first letter in upper case and the others in lower case. -/
def wordInMessage (acronyms : Acronyms) (word : List Char) : List Char :=
  let lower := word.map Char.toLower
  match acronyms.spelling? lower with
  | some spelling => spelling
  | none =>
    match (if lower.getLast? = some 's' then acronyms.spelling? lower.dropLast else none) with
    | some spelling => spelling ++ ['s']
    | none => capitalize lower

/-- The characters of a message name. -/
def camel (acronyms : Acronyms) (text : List Char) : List Char :=
  guardDigit ((words text).flatMap acronyms.wordInMessage)

/-- `UpperCamelCase`, as messages, enums and methods are named. -/
def messageName (acronyms : Acronyms) (text : String) : String :=
  String.ofList (acronyms.camel text.toList)

end Acronyms

end Protoscribe
