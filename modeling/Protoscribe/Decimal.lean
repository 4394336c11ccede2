/-!
# `Protoscribe.Decimal`: the text of binary fractions

A finite double is `significand * 2 ^ exponent`. Its text has the fewest decimal digits that
read back to it: `Decimal.shortest` tries one digit, two digits and so on, and tests the two
neighbours of the value on each decimal grid in exact arithmetic. `Decimal.render` lays the
digits out, with or without a plus sign in front of a positive exponent.
-/

set_option autoImplicit false

namespace Protoscribe

/-- A power of two. -/
def twoTo (n : Nat) : Nat :=
  Nat.pow 2 n

/-- A power of ten. -/
def tenTo (n : Nat) : Nat :=
  Nat.pow 10 n

/-- A finite non-negative double. `narrow` says that the gap to the value below is half the gap to
the value above. -/
structure Binary where
  significand : Nat
  exponent : Int
  narrow : Bool
  deriving Repr, DecidableEq

namespace Binary

/-- The magnitude behind the bits of a finite double. -/
def ofBits (bits : UInt64) : Binary :=
  let exponent : Nat := bits.toNat / twoTo 52 % twoTo 11
  let fraction : Nat := bits.toNat % twoTo 52
  -- doubles below the normal ones share the smallest exponent
  if exponent = 0 then ⟨fraction, -1074, false⟩
  else ⟨twoTo 52 + fraction, (exponent : Int) - 1075, fraction = 0 && exponent > 1⟩

end Binary

/-- `digits * 10 ^ exponent`. -/
structure Decimal where
  digits : Nat
  exponent : Int
  deriving Repr, DecidableEq

namespace Decimal

/-- Compares `a * 10 ^ i` with `n * 2 ^ j`. -/
def compareScaled (a : Nat) (i : Int) (n : Nat) (j : Int) : Ordering :=
  compare (a * tenTo i.toNat * twoTo (-j).toNat) (n * twoTo j.toNat * tenTo (-i).toNat)

/-- Does the decimal lie among the reals that round to the double? The ends of that interval
belong to it when the significand is even. -/
def readsBack (value : Binary) (decimal : Decimal) : Bool :=
  -- in quarters of a unit, half the gap to either neighbour is a whole number
  let lower := if value.narrow then 4 * value.significand - 1 else 4 * value.significand - 2
  let upper := 4 * value.significand + 2
  let closed := value.significand % 2 = 0
  let below := compareScaled decimal.digits decimal.exponent lower (value.exponent - 2)
  let above := compareScaled decimal.digits decimal.exponent upper (value.exponent - 2)
  (below = .gt || (closed && below = .eq)) && (above = .lt || (closed && above = .eq))

/-- The number of decimal digits. -/
def length (n : Nat) : Nat :=
  (Nat.toDigits 10 n).length

/-- The least `k` such that a positive double is below `10 ^ k`. -/
def scale (value : Binary) : Int :=
  let whole := value.significand * twoTo value.exponent.toNat / twoTo (-value.exponent).toNat
  if whole > 0 then length whole
  else
    -- The value is below 1, and `10 ^ j` times the value stays below 1 while `10 ^ j ≤ room`.
    let room := (twoTo (-value.exponent).toNat - 1) / value.significand
    1 - (length room : Int)

/-- The value in units of `10 ^ exponent`, rounded down. -/
def floorOn (value : Binary) (exponent : Int) : Nat :=
  value.significand * twoTo value.exponent.toNat * tenTo (-exponent).toNat /
    (twoTo (-value.exponent).toNat * tenTo exponent.toNat)

/-- The decimal of one grid that reads back: the nearer of the two neighbours of the value, and
the even one when both are equally near. -/
def onGrid? (value : Binary) (exponent : Int) : Option Decimal :=
  let below : Decimal := ⟨floorOn value exponent, exponent⟩
  let above : Decimal := ⟨below.digits + 1, exponent⟩
  match readsBack value below, readsBack value above with
  | false, false => none
  | true, false => some below
  | false, true => some above
  | true, true =>
    match compareScaled (2 * below.digits + 1) exponent (2 * value.significand) value.exponent with
    | .gt => some below
    | .lt => some above
    | .eq => some (if below.digits % 2 = 0 then below else above)

/-- Takes up to `fuel` zeros off the end of the digits. -/
def dropZeros : Nat → Decimal → Decimal
  | 0, decimal => decimal
  | fuel + 1, decimal =>
    if decimal.digits % 10 = 0 then dropZeros fuel ⟨decimal.digits / 10, decimal.exponent + 1⟩
    else decimal

/-- The decimal with the fewest digits that reads back to a positive double. Seventeen digits are
enough for every double. -/
def shortest (value : Binary) : Decimal :=
  let top := scale value
  let found := (List.range 17).findSome? fun (more : Nat) => onGrid? value (top - (more + 1 : Nat))
  dropZeros 20 (found.getD ⟨floorOn value (top - 17), top - 17⟩)

/-- A text of zeros. -/
def zeros (count : Nat) : String :=
  String.ofList (List.replicate count '0')

/-- Lays out a positive decimal. With the value as `0.D * 10 ^ k`, exponents `k` from -4 to 16
are written positionally, with a digit on both sides of the point; all others with one digit in
front of the point and an exponent of ten. -/
def layout (exponentPlus : Bool) (decimal : Decimal) : String :=
  let digits := toString decimal.digits
  let count := digits.length
  let k := decimal.exponent + count
  if 0 < k && k ≤ 16 then
    if count ≤ k then digits ++ zeros (k.toNat - count) ++ ".0"
    else
      String.ofList (digits.toList.take k.toNat) ++ "." ++
        String.ofList (digits.toList.drop k.toNat)
  else if -5 < k && k ≤ 0 then "0." ++ zeros (-k).toNat ++ digits
  else
    let mantissa :=
      if count = 1 then digits
      else String.ofList (digits.toList.take 1) ++ "." ++ String.ofList (digits.toList.drop 1)
    let exponent := k - 1
    mantissa ++ "e" ++ (if exponentPlus && exponent ≥ 0 then "+" else "") ++ toString exponent

/-- The text of a double. -/
def render (exponentPlus : Bool) (value : Float) : String :=
  let bits := value.toBits
  let negative := bits ≥ 0x8000000000000000
  let magnitude := Binary.ofBits bits
  if value.isNaN then ".nan"
  else
    (if negative then "-" else "") ++
      if value.isInf then ".inf"
      else if magnitude.significand = 0 then "0.0"
      else layout exponentPlus (shortest magnitude)

end Decimal

end Protoscribe
