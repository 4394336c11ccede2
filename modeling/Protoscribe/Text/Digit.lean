/-!
# `Protoscribe.Text.Digit`: digits and the numbers that they write

A digit of base 16 is a decimal digit or one of the letters `a` to `f` in either case.
-/

set_option autoImplicit false

namespace Protoscribe.Text

/-- The value of a hexadecimal digit. -/
def hexDigit? (c : Char) : Option Nat :=
  if c.isDigit then some (c.toNat - 48)
  else if 'a' ≤ c && c ≤ 'f' then some (c.toNat - 87)
  else if 'A' ≤ c && c ≤ 'F' then some (c.toNat - 55)
  else none

/-- The value of a digit of a base up to 16. -/
def digit? (base : Nat) (c : Char) : Option Nat :=
  (hexDigit? c).filter (· < base)

/-- The number that digits write behind others that make `start`. -/
def numberFrom? (base : Nat) (start : Nat) : List Char → Option Nat
  | [] => some start
  | c :: rest =>
    match digit? base c with
    | some value => numberFrom? base (base * start + value) rest
    | none => none

/-- The number that one or more digits write. -/
def number? (base : Nat) : List Char → Option Nat
  | [] => none
  | text => numberFrom? base 0 text

end Protoscribe.Text
