import Protoscribe.Yaml.Token

/-!
# `Protoscribe.Yaml.Node`: from the tokens of a YAML text to a tree

An anchor gives a node a slot, and an alias stands for the node in a slot. A name that is used
for an anchor again gets the next free slot, but does not use it up: the next new name gets the
same one. What counts is the node that a slot is given to last, also for aliases in front of it.

`Document.ofTokens?` has no result for tokens in an order that makes no sense, for an alias
without an anchor, and for more than one document.
-/

set_option autoImplicit false

namespace Protoscribe.Yaml

/-- What stands in front of a node: the slot that it is put into, and its tag. -/
structure Properties where
  slot : Option Nat := none
  tag : Option String := none
  deriving Repr, DecidableEq, Inhabited

/-- A node. -/
inductive Node where
  | alias (slot : Nat)
  | scalar (properties : Properties) (style : Style) (text : String)
  | list (properties : Properties) (items : List Node)
  | map (properties : Properties) (entries : List (Node × Node))
  deriving Inhabited

/-- The scalar that stands where nothing is written. -/
def Node.empty (properties : Properties) : Node :=
  .scalar properties .plain ""

/-! ## Slots -/

/-- A token in which anchors and aliases are replaced by slots. -/
inductive Placed where
  | token (token : Token)
  | anchor (slot : Nat)
  | alias (slot : Nat)

/-- Replaces anchors and aliases by slots. `slots` holds the slot of each name that has
occurred. -/
def placeSlots (slots : List (String × Nat)) : List Token → Option (List Placed)
  | [] => some []
  | .anchor name :: rest =>
    let slot := slots.length
    let others := slots.filter (·.1 ≠ name)
    (placeSlots ((name, slot) :: others) rest).map (.anchor slot :: ·)
  | .alias name :: rest =>
    match slots.lookup name with
    | some slot => (placeSlots slots rest).map (.alias slot :: ·)
    | none => none
  | token :: rest => (placeSlots slots rest).map (.token token :: ·)

/-! ## Nodes -/

/-- What tag handles stand for. -/
abbrev Handles := List (String × String)

/-- The tag that a handle and a suffix make. -/
def Handles.tag? (handles : Handles) (handle suffix : String) : Option String :=
  if handle.isEmpty then some suffix else (handles.lookup handle).map (· ++ suffix)

/-- The properties in front of a node: an anchor and a tag in any order. The flag says whether
there are any. -/
def properties? (handles : Handles) : List Placed → Option (Bool × Properties × List Placed)
  | .anchor slot :: .token (.tag handle suffix) :: rest
  | .token (.tag handle suffix) :: .anchor slot :: rest =>
    (handles.tag? handle suffix).map fun tag => (true, { slot := some slot, tag := some tag }, rest)
  | .anchor slot :: rest => some (true, { slot := some slot }, rest)
  | .token (.tag handle suffix) :: rest =>
    (handles.tag? handle suffix).map fun tag => (true, { tag := some tag }, rest)
  | tokens => some (false, {}, tokens)

/-- Is one of some tokens next? -/
def isNext (ends : List Token) : List Placed → Bool
  | .token token :: _ => ends.contains token
  | _ => false

/-- The tokens behind one that has to be next. -/
def expect? (wanted : Token) : List Placed → Option (List Placed)
  | .token token :: rest => if token = wanted then some rest else none
  | _ => none

/-- Where a node stands. -/
inductive Context where
  /-- Inside brackets. -/
  | flow
  /-- In a block list, or alone. -/
  | block
  /-- In a block map, where a list need not be indented. -/
  | blockMap
  deriving DecidableEq

mutual

/-- The next node. -/
def node? (handles : Handles) (fuel : Nat) (context : Context) (tokens : List Placed) :
    Option (Node × List Placed) :=
  match fuel with
  | 0 => none
  | fuel + 1 =>
    match tokens with
    | .alias slot :: rest => some (.alias slot, rest)
    | tokens => do
      let (any, properties, tokens) ← properties? handles tokens
      let list (found : List Node × List Placed) := (Node.list properties found.1, found.2)
      let map (found : List (Node × Node) × List Placed) := (Node.map properties found.1, found.2)
      -- such a list stands at the column of its key, and no token starts it
      if context = .blockMap && isNext [.entry] tokens then
        list <$> looseItems? handles fuel tokens
      else
        match tokens with
        | .token (.scalar style text) :: rest => some (.scalar properties style text, rest)
        | .token .flowListStart :: rest => list <$> flowItems? handles fuel true rest
        | .token .flowMapStart :: rest => map <$> flowEntries? handles fuel true rest
        | .token .blockListStart :: rest =>
          if context = .flow then none else list <$> blockItems? handles fuel rest
        | .token .blockMapStart :: rest =>
          if context = .flow then none else map <$> blockEntries? handles fuel rest
        -- an anchor or a tag alone belongs to an empty node
        | tokens => if any then some (Node.empty properties, tokens) else none

/-- A node, or an empty one when one of some tokens is next. -/
def nodeUnless? (handles : Handles) (fuel : Nat) (context : Context) (ends : List Token)
    (tokens : List Placed) : Option (Node × List Placed) :=
  match fuel with
  | 0 => none
  | fuel + 1 =>
    if isNext ends tokens then some (Node.empty {}, tokens) else node? handles fuel context tokens

/-- The elements of a block list. -/
def blockItems? (handles : Handles) (fuel : Nat) (tokens : List Placed) :
    Option (List Node × List Placed) :=
  match fuel with
  | 0 => none
  | fuel + 1 =>
    match tokens with
    | .token .entry :: rest => do
      let (item, rest) ← nodeUnless? handles fuel .block [.entry, .blockEnd] rest
      let (items, rest) ← blockItems? handles fuel rest
      some (item :: items, rest)
    | .token .blockEnd :: rest => some ([], rest)
    | _ => none

/-- The elements of a list in a block map that is not indented. It ends where no element is
next. -/
def looseItems? (handles : Handles) (fuel : Nat) (tokens : List Placed) :
    Option (List Node × List Placed) :=
  match fuel with
  | 0 => none
  | fuel + 1 =>
    match tokens with
    | .token .entry :: rest => do
      let (item, rest) ← nodeUnless? handles fuel .block [.entry, .key, .value, .blockEnd] rest
      let (items, rest) ← looseItems? handles fuel rest
      some (item :: items, rest)
    | tokens => some ([], tokens)

/-- The entries of a block map. -/
def blockEntries? (handles : Handles) (fuel : Nat) (tokens : List Placed) :
    Option (List (Node × Node) × List Placed) :=
  match fuel with
  | 0 => none
  | fuel + 1 =>
    match tokens with
    | .token .key :: rest => do
      let (key, rest) ← nodeUnless? handles fuel .blockMap [.key, .value, .blockEnd] rest
      let (value, rest) ← blockValue? handles fuel rest
      let (entries, rest) ← blockEntries? handles fuel rest
      some ((key, value) :: entries, rest)
    | .token .blockEnd :: rest => some ([], rest)
    | _ => none

/-- The value of an entry of a block map. -/
def blockValue? (handles : Handles) (fuel : Nat) (tokens : List Placed) :
    Option (Node × List Placed) :=
  match fuel with
  | 0 => none
  | fuel + 1 =>
    match tokens with
    | .token .value :: rest => nodeUnless? handles fuel .blockMap [.key, .value, .blockEnd] rest
    | tokens => some (Node.empty {}, tokens)

/-- The elements of a flow list. A key in it is a map of one entry. -/
def flowItems? (handles : Handles) (fuel : Nat) (isFirst : Bool) (tokens : List Placed) :
    Option (List Node × List Placed) :=
  match fuel with
  | 0 => none
  | fuel + 1 =>
    match tokens with
    | .token .flowListEnd :: rest => some ([], rest)
    | tokens => do
      let tokens ← if isFirst then some tokens else expect? .separator tokens
      match tokens with
      -- a comma may stand behind the last element
      | .token .flowListEnd :: rest => some ([], rest)
      | .token .key :: rest => do
        let (key, rest) ← flowListKey? handles fuel rest
        let (value, rest) ← flowValue? handles fuel [.separator, .flowListEnd] rest
        let (items, rest) ← flowItems? handles fuel false rest
        some (.map {} [(key, value)] :: items, rest)
      | tokens => do
        let (item, rest) ← node? handles fuel .flow tokens
        let (items, rest) ← flowItems? handles fuel false rest
        some (item :: items, rest)

/-- The key of an entry in a flow list. Where the key is empty, the token behind its sign is
passed over with it. -/
def flowListKey? (handles : Handles) (fuel : Nat) (tokens : List Placed) :
    Option (Node × List Placed) :=
  match fuel with
  | 0 => none
  | fuel + 1 =>
    if isNext [.value, .separator, .flowListEnd] tokens then some (Node.empty {}, tokens.drop 1)
    else node? handles fuel .flow tokens

/-- The value of an entry inside brackets. -/
def flowValue? (handles : Handles) (fuel : Nat) (ends : List Token) (tokens : List Placed) :
    Option (Node × List Placed) :=
  match fuel with
  | 0 => none
  | fuel + 1 =>
    match tokens with
    | .token .value :: rest => nodeUnless? handles fuel .flow ends rest
    | tokens => some (Node.empty {}, tokens)

/-- The entries of a flow map. A node without the sign of a key is a key without a value. -/
def flowEntries? (handles : Handles) (fuel : Nat) (isFirst : Bool) (tokens : List Placed) :
    Option (List (Node × Node) × List Placed) :=
  match fuel with
  | 0 => none
  | fuel + 1 =>
    match tokens with
    | .token .flowMapEnd :: rest => some ([], rest)
    | tokens => do
      let tokens ← if isFirst then some tokens else expect? .separator tokens
      match tokens with
      | .token .flowMapEnd :: rest => some ([], rest)
      | .token .key :: rest => do
        let (key, rest) ← nodeUnless? handles fuel .flow [.value, .separator, .flowMapEnd] rest
        let (value, rest) ← flowValue? handles fuel [.separator, .flowMapEnd] rest
        let (entries, rest) ← flowEntries? handles fuel false rest
        some ((key, value) :: entries, rest)
      | tokens => do
        let (key, rest) ← node? handles fuel .flow tokens
        let (entries, rest) ← flowEntries? handles fuel false rest
        some ((key, Node.empty {}) :: entries, rest)

end

/-! ## Documents -/

/-- The handles that need no directive. -/
def defaultHandles : Handles :=
  [("!", "!"), ("!!", "tag:yaml.org,2002:")]

/-- Reads the directives in front of a document. Neither the version nor a handle may be given
twice. -/
def directives? (seenVersion : Bool) (handles : Handles) :
    List Placed → Option (Handles × List Placed)
  | .token (.version major minor) :: rest =>
    if seenVersion || major ≠ 1 || (minor ≠ 1 && minor ≠ 2) then none
    else directives? true handles rest
  | .token (.handle name meaning) :: rest =>
    if (handles.lookup name).isSome then none
    else directives? seenVersion (handles ++ [(name, meaning)]) rest
  | tokens => some (handles ++ defaultHandles, tokens)

/-- Does a text start with a directive or a marker? -/
def startsExplicitly : List Placed → Bool
  | .token (.version _ _) :: _ => true
  | .token (.handle _ _) :: _ => true
  | .token .documentStart :: _ => true
  | _ => false

/-- May no node start here? -/
def endsDocument (tokens : List Placed) : Bool :=
  tokens.isEmpty || startsExplicitly tokens || isNext [.documentEnd] tokens

/-- The first document of a text; nothing for a text without one. -/
def root? (tokens : List Placed) : Option (Option Node × List Placed) := do
  let fuel := 3 * tokens.length + 4
  if tokens.isEmpty then return (none, [])
  if startsExplicitly tokens then
    let (handles, tokens) ← directives? false [] tokens
    let tokens ← expect? .documentStart tokens
    if endsDocument tokens then return (some (Node.empty {}), tokens)
    let (node, rest) ← node? handles fuel .block tokens
    return (some node, rest)
  let (node, rest) ← node? defaultHandles fuel .block tokens
  return (some node, rest)

/-- Passes over the markers behind a document. -/
def skipEnds : List Placed → List Placed
  | .token .documentEnd :: rest => skipEnds rest
  | tokens => tokens

mutual

/-- The number of aliases, scalars, and starts and ends of collections. -/
def Node.size : Node → Nat
  | .alias _ => 1
  | .scalar _ _ _ => 1
  | .list _ items => 2 + itemsSize items
  | .map _ entries => 2 + entriesSize entries

/-- The size of all nodes of a list. -/
def itemsSize : List Node → Nat
  | [] => 0
  | item :: rest => item.size + itemsSize rest

/-- The size of all keys and values. -/
def entriesSize : List (Node × Node) → Nat
  | [] => 0
  | (key, value) :: rest => key.size + value.size + entriesSize rest

end

/-- The slot that properties give a node. -/
def Properties.anchored (properties : Properties) (node : Node) : List (Nat × Node) :=
  properties.slot.toList.map fun slot => (slot, node)

mutual

/-- The nodes with slots, in the order in which they start. -/
def Node.anchored : Node → List (Nat × Node)
  | .alias _ => []
  | .scalar properties style text => properties.anchored (.scalar properties style text)
  | .list properties items => properties.anchored (.list properties items) ++ anchoredItems items
  | .map properties entries =>
    properties.anchored (.map properties entries) ++ anchoredEntries entries

/-- The nodes with slots in a list. -/
def anchoredItems : List Node → List (Nat × Node)
  | [] => []
  | item :: rest => item.anchored ++ anchoredItems rest

/-- The nodes with slots in keys and values. -/
def anchoredEntries : List (Node × Node) → List (Nat × Node)
  | [] => []
  | (key, value) :: rest => key.anchored ++ value.anchored ++ anchoredEntries rest

end

/-- A document. A text without content has no root. -/
structure Document where
  root : Option Node
  /-- The nodes in slots, last one first. -/
  slots : List (Nat × Node) := []
  /-- The number of aliases, scalars, and starts and ends of collections. -/
  size : Nat := 0

namespace Document

/-- The node in a slot: the one that was put there last. -/
def node? (document : Document) (slot : Nat) : Option Node :=
  document.slots.lookup slot

/-- The only document in some tokens. -/
def ofTokens? (tokens : List Token) : Option Document := do
  let (root, rest) ← root? (← placeSlots [] tokens)
  if !(skipEnds rest).isEmpty then none
  match root with
  | none => some ⟨none, [], 0⟩
  | some root => some ⟨some root, root.anchored.reverse, root.size⟩

end Document

end Protoscribe.Yaml
