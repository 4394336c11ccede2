import Protoscribe.Decimal

/-!
# `Protoscribe.Value`: free values

A `Value` is what a description holds where any value may stand, and what a node is read into
before it is known what the node is. `Value.numberText?` is the text of a number.
`Value.isWellKeyed` says that no map in a value repeats a key.
-/

set_option autoImplicit false

namespace Protoscribe

/-- A free value. The keys of a map may be values of any kind. -/
inductive Value where
  | null
  | bool (value : Bool)
  | integer (value : Int)
  | float (value : Float)
  | text (value : String)
  | list (items : List Value)
  | map (entries : List (Value × Value))
  /-- A value with a tag, which is kept without its exclamation mark. -/
  | tagged (tag : String) (value : Value)
  deriving Inhabited

namespace Value

/-- The text of a number. -/
def numberText? : Value → Option String
  | .integer value => some (toString value)
  | .float value => some (Decimal.render false value)
  | _ => none

/-- The value behind all of its tags. -/
def untagged : Value → Value
  | .tagged _ value => untagged value
  | value => value

/-- Are two numbers with a fraction the same key? All values that are not a number are one key. -/
def sameFloat (a b : Float) : Bool :=
  a == b || (a.isNaN && b.isNaN)

mutual

/-- Are two values the same key? Maps are compared without regard to the order of their
entries. -/
def same : Value → Value → Bool
  | .null, .null => true
  | .bool a, .bool b => a == b
  | .integer a, .integer b => a == b
  | .float a, .float b => sameFloat a b
  | .text a, .text b => a == b
  | .list as, .list bs => sameItems as bs
  | .map as, .map bs => as.length == bs.length && sameEntries as bs
  | .tagged tag a, .tagged tag' b => tag == tag' && same a b
  | _, _ => false

/-- Are two lists of values the same, item by item? -/
def sameItems : List Value → List Value → Bool
  | [], [] => true
  | a :: as, b :: bs => same a b && sameItems as bs
  | _, _ => false

/-- Is each entry of the first list the same as some entry of the second one? -/
def sameEntries : List (Value × Value) → List (Value × Value) → Bool
  | [], _ => true
  | (key, value) :: rest, others =>
    others.any (fun other => same key other.1 && same value other.2) && sameEntries rest others

end

/-- Is no key of the entries the same as a later one? -/
def distinctKeys : List (Value × Value) → Bool
  | [] => true
  | (key, _) :: rest => !(rest.any fun other => same key other.1) && distinctKeys rest

mutual

/-- Does no map in the value repeat a key? -/
def isWellKeyed : Value → Bool
  | .list items => areWellKeyed items
  | .map entries => distinctKeys entries && entriesWellKeyed entries
  | .tagged _ value => isWellKeyed value
  | _ => true

/-- Does no map in the values of a list repeat a key? -/
def areWellKeyed : List Value → Bool
  | [] => true
  | item :: rest => isWellKeyed item && areWellKeyed rest

/-- Does no map in the keys and values of entries repeat a key? -/
def entriesWellKeyed : List (Value × Value) → Bool
  | [] => true
  | (key, value) :: rest => isWellKeyed key && isWellKeyed value && entriesWellKeyed rest

end

end Value

end Protoscribe
