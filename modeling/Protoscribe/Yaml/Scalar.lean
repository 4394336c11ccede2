import Protoscribe.Text.Digit
import Protoscribe.Value
import Protoscribe.Yaml.Token

/-!
# `Protoscribe.Yaml.Scalar`: the values of scalars

A plain scalar may be null, a truth value or a number; one in quotes is a text. Whole numbers
may be written in base 2, 8, 10 and 16. Decimal digits behind a zero are a text, since they may
be meant in base 8. A tag asks for one kind of value, and a tag of the text's own has no value.
-/

set_option autoImplicit false

namespace Protoscribe.Yaml

/-- A word for null. -/
def isNullWord (text : String) : Bool :=
  text == "null" || text == "Null" || text == "NULL" || text == "~"

/-- The truth value of a word. -/
def truthValue? (text : String) : Option Bool :=
  if text == "true" || text == "True" || text == "TRUE" then some true
  else if text == "false" || text == "False" || text == "FALSE" then some false
  else none

/-- The text without the sign in front of it. -/
def withoutSign : List Char → List Char
  | '+' :: rest => rest
  | '-' :: rest => rest
  | text => text

/-- Are these decimal digits behind a zero? -/
def hasLeadingZero (text : List Char) : Bool :=
  match withoutSign text with
  | '0' :: next :: rest => (next :: rest).all Char.isDigit
  | _ => false

/-- The number that digits write, with the base in front of them unless that is 10. -/
def magnitude? : List Char → Option Nat
  | '0' :: 'x' :: digits => Text.number? 16 digits
  | '0' :: 'o' :: digits => Text.number? 8 digits
  | '0' :: 'b' :: digits => Text.number? 2 digits
  | digits => Text.number? 10 digits

/-- The whole number that a text writes. -/
def integer? (text : List Char) : Option Int :=
  if hasLeadingZero text then none
  else
    match text with
    | '-' :: rest => (magnitude? rest).map fun magnitude => -(magnitude : Int)
    | _ => (magnitude? (withoutSign text)).map Int.ofNat

/-- Is the whole number one that can be a value? -/
def fitsWord (number : Int) : Bool :=
  -(twoTo 63 : Int) ≤ number && number < twoTo 64

/-- Is the whole number read as such? Longer ones are read as numbers with a fraction. -/
def fitsDoubleWord (number : Int) : Bool :=
  -(twoTo 127 : Int) ≤ number && number < twoTo 128

/-- The power of ten behind a mantissa, zero when none is written. -/
def exponent? : List Char → Option Int
  | [] => some 0
  | c :: rest =>
    if c = 'e' || c = 'E' then
      match rest with
      | '-' :: digits => (Text.number? 10 digits).map fun power => -(power : Int)
      | '+' :: digits => (Text.number? 10 digits).map Int.ofNat
      | digits => (Text.number? 10 digits).map Int.ofNat
    else none

/-- A number with a power of ten as a double, unless it is beyond the largest one. Numbers far
below the smallest one are zero. -/
def scaled? (digits : List Char) (power : Int) : Option Float := do
  let mantissa ← Text.number? 10 digits
  let height := power + digits.length
  if mantissa = 0 || height < -400 then some 0.0
  else if 400 < height - (digits.takeWhile (· = '0')).length then none
  else
    let value := Float.ofScientific mantissa (power < 0) power.natAbs
    if value.isInf then none else some value

/-- The double that decimal digits with a point and an exponent write. -/
def decimal? (text : List Char) : Option Float := do
  let whole := text.takeWhile Char.isDigit
  let behind := text.dropWhile Char.isDigit
  let (fraction, behind) :=
    match behind with
    | '.' :: rest => (rest.takeWhile Char.isDigit, rest.dropWhile Char.isDigit)
    | _ => ([], behind)
  let power ← exponent? behind
  scaled? (whole ++ fraction) (power - fraction.length)

/-- Is this a word for a number without an end, behind its sign? -/
def isInfinityWord (text : List Char) : Bool :=
  text == ".inf".toList || text == ".Inf".toList || text == ".INF".toList

/-- Is this a word for what is no number? -/
def isNanWord (text : List Char) : Bool :=
  text == ".nan".toList || text == ".NaN".toList || text == ".NAN".toList

/-- The double that a text writes. -/
def float? (text : List Char) : Option Float :=
  let magnitude := withoutSign text
  let isNegative := text.head? = some '-'
  if isInfinityWord magnitude then some (if isNegative then -(1.0 / 0.0) else 1.0 / 0.0)
  else if isNanWord text then some (0.0 / 0.0)
  else (decimal? magnitude).map fun value => if isNegative then -value else value

/-- The value of a plain scalar that is no whole number. -/
def fractionOrText (text : String) : Value :=
  if hasLeadingZero text.toList then .text text
  else
    match float? text.toList with
    | some value => .float value
    | none => .text text

/-- The value of a plain scalar. A whole number that is too large has none. -/
def plainValue? (text : String) : Option Value :=
  if text.isEmpty || isNullWord text then some .null
  else
    match truthValue? text, integer? text.toList with
    | some value, _ => some (.bool value)
    | none, some number =>
      if fitsWord number then some (.integer number)
      else if fitsDoubleWord number then none
      else some (fractionOrText text)
    | none, none => some (fractionOrText text)

/-- The name of a tag of the format itself. -/
def coreTag (name : String) : String :=
  "tag:yaml.org,2002:" ++ name

/-- The value of a scalar that has no tag. -/
def untaggedValue? (style : Style) (text : String) : Option Value :=
  if style = .plain then plainValue? text else some (.text text)

/-- The value of a scalar. -/
def scalarValue? (tag : Option String) (style : Style) (text : String) : Option Value :=
  match tag with
  | none => untaggedValue? style text
  | some tag =>
    if tag.toList.head? = some '!' then none
    else if tag = coreTag "bool" then (truthValue? text).map .bool
    else if tag = coreTag "int" then
      ((integer? text.toList).filter fitsWord).map .integer
    else if tag = coreTag "float" then (float? text.toList).map .float
    else if tag = coreTag "null" then if isNullWord text then some .null else none
    else some (.text text)

end Protoscribe.Yaml
