import Protoscribe.Value

/-!
# `Protoscribe.Reading.Part`: the parts of a value

A value that has been read to its end is taken apart here. Every part comes with a proof that it
is smaller than the whole, so that a reader of nested values ends. What does not fit is `none`:
there is one failure for everything that can be wrong inside such a value.

A record is a map from member names, where a whole number stands for the member at that place,
or a list of the members in order. Members that are not known are skipped, but keys of other
kinds and members that occur twice are refused.
-/

set_option autoImplicit false

namespace Protoscribe.Value

/-- A value inside another one. -/
abbrev Part (whole : Value) := { part : Value // sizeOf part < sizeOf whole }

/-- A text. Numbers and truth values are not texts. -/
def text? : Value → Option String
  | .text value => some value
  | _ => none

/-- A truth value. -/
def bool? : Value → Option Bool
  | .bool value => some value
  | _ => none

/-- The text of a key that may be a text, a whole number or a truth value. -/
def keyText? : Value → Option String
  | .text value => some value
  | .integer value => some (toString value)
  | .bool value => some (if value then "true" else "false")
  | _ => none

/-- An element is smaller than its list. -/
theorem sizeOf_item_lt {items : List Value} {item : Value} (h : item ∈ items) :
    sizeOf item < sizeOf (Value.list items) := by
  have := List.sizeOf_lt_of_mem h
  simp only [Value.list.sizeOf_spec]
  omega

/-- The value of an entry is smaller than its map. -/
theorem sizeOf_entry_lt {entries : List (Value × Value)} {entry : Value × Value}
    (h : entry ∈ entries) : sizeOf entry.2 < sizeOf (Value.map entries) := by
  have inside := List.sizeOf_lt_of_mem h
  have parts : sizeOf entry = 1 + sizeOf entry.1 + sizeOf entry.2 := by
    cases entry
    simp
  simp only [Value.map.sizeOf_spec]
  omega

/-- The elements of a list. -/
def elements? (whole : Value) : Option (List whole.Part) :=
  match whole with
  | .list items => some (items.attach.map fun item => ⟨item.1, sizeOf_item_lt item.2⟩)
  | _ => none

/-- The entries of a map, with their keys read by `key?`. -/
def entries? (key? : Value → Option String) (whole : Value) : Option (List (String × whole.Part)) :=
  match whole with
  | .map entries =>
    entries.attach.mapM fun entry =>
      (key? entry.1.1).map fun key => (key, ⟨entry.1.2, sizeOf_entry_lt entry.2⟩)
  | _ => none

/-- The members that a record sets, by name. -/
abbrev Members (whole : Value) := List (String × whole.Part)

/-- The member that a key stands for, if it is a known one. -/
def memberName? (names : List String) : Value → Option (Option String)
  | .text name => some (if names.contains name then some name else none)
  | .integer place => if place < 0 then none else some names[place.toNat]?
  | _ => none

/-- The members that a record with members of the given names sets. -/
def record? (names : List String) (whole : Value) : Option whole.Members :=
  match whole with
  | .map entries => do
    let found ← entries.attach.mapM fun entry =>
      (memberName? names entry.1.1).map fun name =>
        name.map fun name => (name, ⟨entry.1.2, sizeOf_entry_lt entry.2⟩)
    let set := found.filterMap id
    if (set.map (·.1)).Nodup then some set else none
  | .list items =>
    if items.length ≤ names.length then
      some (names.zip (items.attach.map fun item => ⟨item.1, sizeOf_item_lt item.2⟩))
    else none
  | _ => none

namespace Members

variable {whole : Value} {α : Type}

/-- A member that has a default value. -/
def getD (set : whole.Members) (name : String) (read : whole.Part → Option α) (default : α) :
    Option α :=
  match set.lookup name with
  | none => some default
  | some part => read part

/-- A member that may be absent. -/
def get? (set : whole.Members) (name : String) (read : whole.Part → Option α) : Option (Option α) :=
  match set.lookup name with
  | none => some none
  | some ⟨.null, _⟩ => some none
  | some part => (read part).map some

/-- A text, empty by default. -/
def text (set : whole.Members) (name : String) : Option String :=
  set.getD name (fun part => part.1.text?) ""

/-- A text that may be absent. -/
def text? (set : whole.Members) (name : String) : Option (Option String) :=
  set.get? name fun part => part.1.text?

/-- A truth value, false by default. -/
def flag (set : whole.Members) (name : String) : Option Bool :=
  set.getD name (fun part => part.1.bool?) false

/-- A list of texts, empty by default. -/
def texts (set : whole.Members) (name : String) : Option (List String) :=
  set.getD name
    (fun part => part.1.elements?.bind fun items => items.mapM fun item => item.1.text?) []

/-- A free value. No map inside it may repeat a key. -/
def free? (part : whole.Part) : Option Value :=
  if part.1.isWellKeyed then some part.1 else none

end Members

/-- The reference that a map holds under `$ref`. A list is no reference. -/
def reference? (whole : Value) : Option String :=
  match whole with
  | .map entries =>
    ((Value.map entries).record? ["$ref"]).bind fun set =>
      (set.lookup "$ref").bind fun part => part.1.text?
  | _ => none

end Protoscribe.Value
