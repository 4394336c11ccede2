import Protoscribe.Reading.Part
import Protoscribe.Reading.Source
import Protoscribe.Yaml.Node
import Protoscribe.Yaml.Scalar
import Protoscribe.Yaml.Scan

/-!
# `Protoscribe.Yaml.Source`: reading values from a YAML tree

Where a text is wanted, any scalar is one, just as it is written. An empty scalar is a record, a
list or a map without content; a word for null is none of these. A free value is read by the
rules for scalars.

Aliases may make a short text stand for a very large tree. So collections nest at most 128 deep,
and the number of aliases that are followed is at most 100 times the size of the text.
-/

set_option autoImplicit false

namespace Protoscribe.Yaml

/-- The outcome of reading, with the number of aliases that may still be followed. -/
abbrev Reading := StateT Nat Option

/-- A node, and how many levels of collections may still open in it. A text without content has no
node. -/
structure Cursor where
  slots : Nat → Option Node
  room : Nat
  node : Option Node

namespace Cursor

/-- The cursor at another node. -/
def moveTo (cursor : Cursor) (node : Node) : Cursor :=
  { cursor with node := some node }

/-- The node that a node stands for. -/
def follow (slots : Nat → Option Node) (node : Node) : Reading Node :=
  match node with
  | .alias slot => fun left =>
    match left, slots slot with
    | left + 1, some node => some (node, left)
    | _, _ => none
  | node => pure node

/-- The node at a cursor, with aliases followed. -/
def resolve (cursor : Cursor) : Reading (Option Node) :=
  match cursor.node with
  | some node => some <$> follow cursor.slots node
  | none => pure none

/-- The cursor in a collection that is opened. -/
def enter (cursor : Cursor) : Reading Cursor :=
  match cursor.room with
  | room + 1 => pure { cursor with room }
  | 0 => failure

/-- Is there nothing where a collection is wanted? -/
def isNothing : Option Node → Bool
  | none => true
  | some (.scalar _ .plain text) => text.isEmpty
  | _ => false

/-- The text of a scalar. -/
def text (cursor : Cursor) : Reading String := do
  match ← cursor.resolve with
  | some (.scalar _ _ text) => pure text
  | _ => failure

/-- A truth value. It is written without quotes, or as a literal with the tag for it. -/
def flag (cursor : Cursor) : Reading Bool := do
  match ← cursor.resolve with
  | some (.scalar properties style text) =>
    let isBare := style = .plain || (style = .literal && properties.tag = some (coreTag "bool"))
    match truthValue? text with
    | some value => if isBare then pure value else failure
    | none => failure
  | _ => failure

/-- Is a scalar that has no tag, or some tag, absent? There is no answer for a word that is not
null but has the tag for it. -/
def isAbsent? (tag : Option String) (text : String) : Option Bool :=
  match tag with
  | none => some (text.isEmpty || isNullWord text)
  | some tag =>
    if tag = coreTag "null" then if isNullWord text then some true else none else some false

/-- A value that may be absent. -/
def optional {α : Type} (read : Cursor → Reading α) (cursor : Cursor) : Reading (Option α) := do
  match ← cursor.resolve with
  | none => pure none
  | some (.scalar properties .plain text) =>
    match isAbsent? properties.tag text with
    | some true => pure none
    | some false => some <$> read (cursor.moveTo (.scalar properties .plain text))
    | none => failure
  | some node => some <$> read (cursor.moveTo node)

/-- A list. -/
def list {α : Type} (read : Cursor → Reading α) (cursor : Cursor) : Reading (List α) := do
  match ← cursor.resolve with
  | some (.list _ items) =>
    let inside ← cursor.enter
    items.mapM fun item => read (inside.moveTo item)
  | node => if isNothing node then pure [] else failure

/-- The entries of a map. -/
def entriesOf {α : Type} (key : Cursor → Reading String) (read : Cursor → Reading α)
    (cursor : Cursor) : Reading (List (String × α)) := do
  match ← cursor.resolve with
  | some (.map _ entries) =>
    let inside ← cursor.enter
    entries.mapM fun entry => do
      let name ← key (inside.moveTo entry.1)
      pure (name, ← read (inside.moveTo entry.2))
  | node => if isNothing node then pure [] else failure

/-- The text of a key that may also be a whole number or a truth value. -/
def scalarKey (cursor : Cursor) : Reading String := do
  match ← cursor.resolve with
  | some (.scalar properties style text) =>
    StateT.lift ((scalarValue? properties.tag style text).bind Value.keyText?)
  | _ => failure

/-- The changes that entries make, where `seen` are the members that have occurred. -/
def changes {α : Type} (known : List (Member Cursor Reading α)) (inside : Cursor) :
    List String → List (Node × Node) → Reading (List (α → α))
  | _, [] => pure []
  | seen, (key, value) :: rest => do
    let name ← text (inside.moveTo key)
    match known.find? (·.name == name) with
    | none => changes known inside seen rest
    | some member =>
      if seen.contains name then failure
      else
        let change ← member.read (inside.moveTo value)
        pure (change :: (← changes known inside (name :: seen) rest))

/-- A record. -/
def record {α : Type} (known : List (Member Cursor Reading α)) (cursor : Cursor) :
    Reading (List (α → α)) := do
  match ← cursor.resolve with
  | some (.map _ entries) => changes known (← cursor.enter) [] entries
  | node => if isNothing node then pure [] else failure

/-- Does a collection have a tag of the text's own? -/
def hasOwnTag (properties : Properties) : Bool :=
  properties.tag.any fun tag => tag.toList.head? = some '!'

/-- A value of any kind, where `room` levels of collections may open. -/
def value (slots : Nat → Option Node) (room : Nat) (node : Node) : Reading Value := do
  match ← follow slots node with
  | .scalar properties style text => StateT.lift (scalarValue? properties.tag style text)
  | .list properties items =>
    match room with
    | 0 => failure
    | room + 1 =>
      if hasOwnTag properties then failure
      else .list <$> items.mapM (value slots room)
  | .map properties entries =>
    match room with
    | 0 => failure
    | room + 1 =>
      if hasOwnTag properties then failure
      else
        .map <$> entries.mapM fun entry => do
          let key ← value slots room entry.1
          pure (key, ← value slots room entry.2)
  | .alias _ => failure

end Cursor

instance : Source Cursor Reading where
  text := Cursor.text
  flag := Cursor.flag
  optional := Cursor.optional
  list := Cursor.list
  entries := Cursor.entriesOf Cursor.text
  ordered := Cursor.entriesOf Cursor.scalarKey
  record _ := Cursor.record
  value cursor :=
    match cursor.node with
    | some node => Cursor.value cursor.slots cursor.room node
    | none => failure
  refuse := failure

/-- Reads a whole text. -/
def readText {α : Type} (read : Cursor → Reading α) (text : String) : Option α := do
  let document ← Document.ofTokens? (← tokens? text)
  let result ← (read ⟨document.node?, 128, document.root⟩).run (100 * document.size)
  some result.1

end Protoscribe.Yaml
