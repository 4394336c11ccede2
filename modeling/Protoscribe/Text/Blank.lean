/-!
# `Protoscribe.Text.Blank`: white space, trimming and lines

White space is the Unicode property `White_Space`: 25 code points, the same in every version since
6.3. `trim` and `trimEnd` take it off, `lines` cuts a text at its line feeds.
-/

set_option autoImplicit false

namespace Protoscribe.Text

/-- Closed ranges of code points with the property `White_Space`, ascending and apart. -/
def blankRanges : List (Nat × Nat) :=
  [(0x09, 0x0D), (0x20, 0x20), (0x85, 0x85), (0xA0, 0xA0), (0x1680, 0x1680), (0x2000, 0x200A),
   (0x2028, 0x2029), (0x202F, 0x202F), (0x205F, 0x205F), (0x3000, 0x3000)]

/-- Has the character the property `White_Space`? -/
def isBlank (c : Char) : Bool :=
  blankRanges.any fun range => range.1 ≤ c.toNat && c.toNat ≤ range.2

/-- The text without white space at its end. -/
def trimEnd (text : List Char) : List Char :=
  (text.reverse.dropWhile isBlank).reverse

/-- The text without white space at either end. -/
def trim (text : List Char) : List Char :=
  trimEnd (text.dropWhile isBlank)

/-- The text without white space at either end. -/
def trimmed (text : String) : String :=
  String.ofList (trim text.toList)

/-- The lines of a text. A line ends at a line feed, or at a carriage return and a line feed; what
follows the last line feed is a line too unless it is empty. -/
def lines : List Char → List (List Char)
  | [] => []
  | '\n' :: rest => [] :: lines rest
  | c :: rest =>
    match lines rest with
    | [] => [[c]]
    | line :: others =>
      if c = '\r' && line.isEmpty && rest.head? = some '\n' then [] :: others
      else (c :: line) :: others

end Protoscribe.Text
