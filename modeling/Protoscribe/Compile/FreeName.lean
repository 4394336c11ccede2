/-!
# `Protoscribe.Compile.FreeName`: numbered names

When a name is taken, numbered names are tried one after the other.
-/

set_option autoImplicit false

namespace Protoscribe.Compile

/-- The first of the texts `make n`, `make (n + 1)`, … that is not taken. After `fuel` taken
ones the next is not looked at. -/
def firstFree (taken : String → Bool) (make : Nat → String) : Nat → Nat → String
  | 0, n => make n
  | fuel + 1, n => if taken (make n) then firstFree taken make fuel (n + 1) else make n

end Protoscribe.Compile
