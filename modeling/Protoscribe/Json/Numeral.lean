import Protoscribe.Value

/-!
# `Protoscribe.Json.Numeral`: the numbers of a JSON text

A `Numeral` keeps a number as it is written. Its value is exact when it is an integer that fits
64 bits. Every other value is a double that is found in one multiplication or division: the
leading digits that fit 64 bits make a whole number, and a power of ten scales it.
`Numeral.value?` has no value for a number beyond the largest double.
-/

set_option autoImplicit false

namespace Protoscribe.Json

/-- A number as it is written: its sign, its digits in front of and behind the point, and its
exponent with the sign of that. -/
structure Numeral where
  negative : Bool
  whole : List Char
  fraction : List Char := []
  exponent : Option (Bool × List Char) := none
  deriving Repr, DecidableEq

namespace Numeral

/-- The value of a decimal digit. -/
def digit (c : Char) : Nat :=
  c.toNat - '0'.toNat

/-- The value of decimal digits. -/
def digits (text : List Char) : Nat :=
  text.foldl (fun n c => 10 * n + digit c) 0

/-- The largest whole number that digits are gathered into. -/
def largest : Nat := twoTo 64 - 1

/-- Appends leading digits to a number while it fits 64 bits. The second part counts the digits
that are taken. -/
def gather (start : Nat) : List Char → Nat × Nat
  | [] => (start, 0)
  | c :: rest =>
    let next := 10 * start + digit c
    if next > largest then (start, 0)
    else
      let (final, taken) := gather next rest
      (final, taken + 1)

/-- The digits that count and the power of ten that scales them, without the written exponent.
Digits in front of the point that do not fit count in the power; a digit behind the point may
still be taken after them. -/
def significand (numeral : Numeral) : Nat × Int :=
  let (whole, takenWhole) := gather 0 numeral.whole
  let (all, takenFraction) := gather whole numeral.fraction
  (all, (numeral.whole.length - takenWhole : Nat) - (takenFraction : Int))

/-- Divides by a power of ten, in steps that each stay within the range of doubles. -/
def divide (value : Float) (power : Nat) : Float :=
  if power ≤ 308 then value / Float.ofScientific 1 false power
  else if value == 0.0 then value
  else divide (value / Float.ofScientific 1 false 308) (power - 308)
termination_by power

/-- A whole number scaled by a power of ten, when it is not beyond the largest double. -/
def scaled? (whole : Nat) (power : Int) : Option Float :=
  let value := Float.ofScientific whole false 0
  if power < 0 then some (divide value (-power).toNat)
  else if power ≤ 308 then
    let product := value * Float.ofScientific 1 false power.toNat
    if product.isInf then none else some product
  else if value == 0.0 then some value
  else none

/-- The number as a double. An exponent beyond 32 bits makes zero of a number, or leaves it
without a value when it is positive and the number is not zero. -/
def float? (numeral : Numeral) : Option Float :=
  let (whole, power) := numeral.significand
  let magnitude? : Option Float :=
    match numeral.exponent with
    | none => scaled? whole power
    | some (negative, written) =>
      let size := digits written
      if size > 2147483647 then
        if whole ≠ 0 && !negative then none else some 0.0
      else scaled? whole (if negative then power - size else power + size)
  magnitude?.map fun magnitude => if numeral.negative then -magnitude else magnitude

/-- The value of a number, unless it is beyond the largest double. -/
def value? (numeral : Numeral) : Option Value :=
  let magnitude := digits numeral.whole
  let isInteger := numeral.fraction.isEmpty && numeral.exponent.isNone
  if isInteger && !numeral.negative && magnitude ≤ largest then some (.integer magnitude)
  else if isInteger && numeral.negative && 0 < magnitude && magnitude ≤ twoTo 63 then
    some (.integer (-magnitude))
  else numeral.float?.map .float

end Numeral

end Protoscribe.Json
