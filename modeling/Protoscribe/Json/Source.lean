import Protoscribe.Json.Scan
import Protoscribe.Reading.Source
import Protoscribe.Text.Escape

/-!
# `Protoscribe.Json.Source`: reading values from a JSON tree

The parts of a tree are read in the order of the text, so the first fault of the text or of its
content is the one that counts. Lists and objects nest at most 127 deep where they are read; a
value that is skipped may nest deeper. A list may stand for a record: its elements are the
members in order.
-/

set_option autoImplicit false

namespace Protoscribe.Json

/-- What is found where something else is wanted. -/
inductive Found where
  | null
  | bool (value : Bool)
  | integer (value : Int)
  | float (value : Float)
  | text (value : String)
  | list
  | object

/-- What is wanted. -/
inductive Wanted where
  | text
  | flag
  | list
  | map
  | orderedMap
  | record (title : String)

/-- Why a description cannot be read from a JSON text. -/
inductive ReadError where
  /-- The text is not JSON. -/
  | fault (fault : Fault)
  | wrongKind (found : Found) (wanted : Wanted)
  | repeatedMember (name : String)
  /-- A node is neither a reference nor what it should be. -/
  | noVariant

namespace Found

/-- What is found, in words. -/
def message : Found → String
  | .null => "null"
  | .bool value => "boolean `" ++ (if value then "true" else "false") ++ "`"
  | .integer value => "integer `" ++ toString value ++ "`"
  | .float value => "floating point `" ++ Decimal.render true value ++ "`"
  | .text value => "string " ++ Text.quoted value
  | .list => "sequence"
  | .object => "map"

end Found

namespace Wanted

/-- What is wanted, in words. -/
def message : Wanted → String
  | .text => "a string"
  | .flag => "a boolean"
  | .list => "a sequence"
  | .map => "a map"
  | .orderedMap => "a mapping"
  | .record title => "struct " ++ title

end Wanted

namespace ReadError

/-- The text of an error. -/
def message : ReadError → String
  | .fault .malformed => "syntax"
  | .fault .cutShort => "eof"
  | .wrongKind found wanted => "invalid type: " ++ found.message ++ ", expected " ++ wanted.message
  | .repeatedMember name => "duplicate field `" ++ name ++ "`"
  | .noVariant => "data did not match any variant of untagged enum RefOr"

end ReadError

/-- A tree and how many levels of lists and objects may still open in it. -/
structure Cursor where
  room : Nat
  tree : Tree

/-- The outcome of reading. -/
abbrev Result := Except ReadError

namespace Cursor

/-- A fault of the text as an error. -/
def fault {α : Type} (fault : Fault) : Result α :=
  .error (.fault fault)

/-- The error of a tree that is not what is wanted. A fault inside a scalar comes first. -/
def unwanted {α : Type} (wanted : Wanted) : Tree → Result α
  | .null => .error (.wrongKind .null wanted)
  | .bool value => .error (.wrongKind (.bool value) wanted)
  | .number numeral =>
    match numeral.value? with
    | some (.integer value) => .error (.wrongKind (.integer value) wanted)
    | some (.float value) => .error (.wrongKind (.float value) wanted)
    | _ => fault .malformed
  | .text (some value) => .error (.wrongKind (.text value) wanted)
  | .text none => fault .malformed
  | .list _ _ => .error (.wrongKind .list wanted)
  | .object _ _ => .error (.wrongKind .object wanted)
  | .broken place => fault place.whenRead

/-- What is left of the room inside a list or an object. -/
def enter (room : Nat) : Result Nat :=
  match room with
  | room + 2 => .ok (room + 1)
  | _ => fault .malformed

/-- Comes to the end of a list or an object. -/
def close : Option Break → Result Unit
  | none => .ok ()
  | some place => fault place.whenRead

/-- Passes over a value. -/
def skip : Tree → Result Unit
  | .broken place => fault place.whenSkipped
  | .list _ (some place) => fault place.whenSkipped
  | .object _ (some place) => fault place.whenSkipped
  | _ => .ok ()

/-- The text of a key. -/
def key : Option String → Result String
  | some name => .ok name
  | none => fault .malformed

/-- A text. -/
def text (cursor : Cursor) : Result String :=
  match cursor.tree with
  | .text (some value) => .ok value
  | tree => unwanted .text tree

/-- A truth value. -/
def flag (cursor : Cursor) : Result Bool :=
  match cursor.tree with
  | .bool value => .ok value
  | tree => unwanted .flag tree

/-- A value that `null` leaves out. -/
def optional {α : Type} (read : Cursor → Result α) (cursor : Cursor) : Result (Option α) :=
  match cursor.tree with
  | .null => .ok none
  | _ => some <$> read cursor

/-- A list. -/
def list {α : Type} (read : Cursor → Result α) (cursor : Cursor) : Result (List α) :=
  match cursor.tree with
  | .list elements ending => do
    let room ← enter cursor.room
    let values ← elements.mapM fun element => read ⟨room, element⟩
    close ending
    pure values
  | tree => unwanted .list tree

/-- The entries of an object. -/
def entries {α : Type} (wanted : Wanted) (read : Cursor → Result α) (cursor : Cursor) :
    Result (List (String × α)) :=
  match cursor.tree with
  | .object members ending => do
    let room ← enter cursor.room
    let values ← members.mapM fun entry => do
      let name ← key entry.1
      pure (name, ← read ⟨room, entry.2⟩)
    close ending
    pure values
  | tree => unwanted wanted tree

/-- The changes that the members of an object make, where `seen` are the members that have
occurred. Members that are not known are skipped. -/
def changes {α : Type} (room : Nat) (known : List (Member Cursor Result α)) :
    List String → List (Option String × Tree) → Result (List (α → α))
  | _, [] => .ok []
  | seen, (name, tree) :: rest => do
    let name ← key name
    match known.find? (·.name == name) with
    | none =>
      skip tree
      changes room known seen rest
    | some member =>
      if seen.contains name then .error (.repeatedMember name)
      else
        let change ← member.read ⟨room, tree⟩
        pure (change :: (← changes room known (name :: seen) rest))

/-- The changes that the elements of a list make, which are the values of the known members in
order. There may be fewer of them, but not more. -/
def changesInOrder {α : Type} (room : Nat) :
    List (Member Cursor Result α) → List Tree → Result (List (α → α))
  | _, [] => .ok []
  | [], _ :: _ => fault .malformed
  | member :: known, tree :: rest => do
    let change ← member.read ⟨room, tree⟩
    pure (change :: (← changesInOrder room known rest))

/-- A record. -/
def record {α : Type} (title : String) (known : List (Member Cursor Result α)) (cursor : Cursor) :
    Result (List (α → α)) :=
  match cursor.tree with
  | .object members ending => do
    let room ← enter cursor.room
    let made ← changes room known [] members
    close ending
    pure made
  | .list elements ending => do
    let room ← enter cursor.room
    let made ← changesInOrder room known elements
    close ending
    pure made
  | tree => unwanted (.record title) tree

mutual

/-- A value of any kind. -/
def value (room : Nat) : Tree → Result Value
  | .null => .ok .null
  | .bool value => .ok (.bool value)
  | .number numeral =>
    match numeral.value? with
    | some value => .ok value
    | none => fault .malformed
  | .text (some value) => .ok (.text value)
  | .text none => fault .malformed
  | .list elements ending => do
    let room ← enter room
    let items ← values room elements
    close ending
    pure (.list items)
  | .object members ending => do
    let room ← enter room
    let entries ← valueEntries room members
    close ending
    pure (.map entries)
  | .broken place => fault place.whenRead

/-- The values of the elements of a list. -/
def values (room : Nat) : List Tree → Result (List Value)
  | [] => .ok []
  | element :: rest => do
    let item ← value room element
    pure (item :: (← values room rest))

/-- The values of the members of an object, with their keys. -/
def valueEntries (room : Nat) : List (Option String × Tree) → Result (List (Value × Value))
  | [] => .ok []
  | (name, tree) :: rest => do
    let name ← key name
    let item ← value room tree
    pure ((.text name, item) :: (← valueEntries room rest))

end

end Cursor

instance : Source Cursor Result where
  text := Cursor.text
  flag := Cursor.flag
  optional := Cursor.optional
  list := Cursor.list
  entries := Cursor.entries .map
  ordered := Cursor.entries .orderedMap
  record := Cursor.record
  value cursor := Cursor.value cursor.room cursor.tree
  refuse := .error .noVariant

/-- Reads a whole text. What follows the value is looked at last. -/
def readText {α : Type} (read : Cursor → Result α) (text : String) : Result α := do
  let (tree, complete) := ofText text
  let result ← read ⟨128, tree⟩
  if complete then pure result else Cursor.fault .malformed

end Protoscribe.Json
