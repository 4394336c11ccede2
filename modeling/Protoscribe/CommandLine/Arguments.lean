import Protoscribe.CommandLine.Help

/-!
# `Protoscribe.CommandLine.Arguments`: the words of a command

A command names the file of a description and maybe a package. Switches and options stand
anywhere among them, each at most once; an option has a value, in the same word or in the next
one. Behind `--` every word is a name. A question ends the command: what follows it is not looked
at. `Request.ofWords?` has no result for a command of any other form.
-/

set_option autoImplicit false

namespace Protoscribe.CommandLine

/-- Something that is on or off. -/
inductive Switch where
  /-- Methods get the option that maps them to their requests. -/
  | annotations
  /-- The service is left out. -/
  | skipRpc
  /-- Deprecated operations are left out. -/
  | skipDeprecated
  /-- The name of an enum does not go in front of its values. -/
  | noEnumPrefix
  /-- Scalars that are not required become messages that hold them. -/
  | wrapPrimitives
  deriving Repr, DecidableEq

/-- Something with a path as its value. -/
inductive PathOption where
  /-- The settings file to read. -/
  | config
  /-- The file that the schema goes to. -/
  | output
  /-- The file that the binary descriptors go to. -/
  | descriptorOut
  deriving Repr, DecidableEq

/-- One part of a command. -/
inductive Item where
  | name (text : String)
  | switch (switch : Switch)
  | option (option : PathOption) (path : String)
  | question (topic : Topic)
  deriving Repr, DecidableEq

/-- The switch of a name. -/
def Switch.ofName? : String → Option Switch
  | "annotations" => some .annotations
  | "skip-rpc" => some .skipRpc
  | "skip-deprecated" => some .skipDeprecated
  | "no-enum-prefix" => some .noEnumPrefix
  | "wrap-primitives" => some .wrapPrimitives
  | _ => none

/-- The option of a name. -/
def PathOption.ofName? : String → Option PathOption
  | "config" => some .config
  | "output" => some .output
  | "descriptor-out" => some .descriptorOut
  | _ => none

/-- The option of a letter. -/
def PathOption.ofLetter? : Char → Option PathOption
  | 'c' => some .config
  | 'o' => some .output
  | _ => none

/-- The question of a name. -/
def Topic.ofName? : String → Option Topic
  | "help" => some .details
  | "version" => some .version
  | _ => none

/-- The question of a letter. -/
def Topic.ofLetter? : Char → Option Topic
  | 'h' => some .summary
  | 'V' => some .version
  | _ => none

/-- What a word is by itself. -/
inductive Word where
  /-- A part of a command. -/
  | whole (item : Item)
  /-- An option whose value is the next word. -/
  | pending (option : PathOption)

namespace Word

/-- A word behind two hyphens. -/
def ofLong? (text : List Char) : Option Word :=
  let name := String.ofList (text.takeWhile (· ≠ '='))
  match text.dropWhile (· ≠ '=') with
  | [] =>
    match Switch.ofName? name, Topic.ofName? name with
    | some switch, _ => some (.whole (.switch switch))
    | none, some topic => some (.whole (.question topic))
    | none, none => (PathOption.ofName? name).map .pending
  | _ :: value =>
    (PathOption.ofName? name).map fun option => .whole (.option option (String.ofList value))

/-- A word behind one hyphen: a letter and maybe a value. Behind the letter of a question nothing
counts. -/
def ofShort? (letter : Char) (value : List Char) : Option Word :=
  match Topic.ofLetter? letter with
  | some topic => some (.whole (.question topic))
  | none =>
    (PathOption.ofLetter? letter).map fun option =>
      match value with
      | [] => .pending option
      | '=' :: value => .whole (.option option (String.ofList value))
      | value => .whole (.option option (String.ofList value))

/-- A word. A hyphen alone is a name. -/
def ofText? (text : String) : Option Word :=
  match text.toList with
  | '-' :: '-' :: rest => ofLong? rest
  | '-' :: letter :: value => ofShort? letter value
  | _ => some (.whole (.name text))

end Word

/-- May a word be the value of the option in front of it? -/
def isValue (text : String) : Bool :=
  text == "-" || text.toList.head? ≠ some '-'

/-- The parts of a command, up to a question if there is one. -/
def items? : List String → Option (List Item)
  | [] => some []
  | text :: rest =>
    if text = "--" then some (rest.map .name)
    else
      match Word.ofText? text, rest with
      | none, _ => none
      | some (.whole (.question topic)), _ => some [.question topic]
      | some (.whole item), rest => (items? rest).map (item :: ·)
      | some (.pending _), [] => none
      | some (.pending option), value :: rest =>
        if isValue value then (items? rest).map (.option option value :: ·) else none

/-- What a command asks for. -/
structure Arguments where
  file : String
  package : Option String := none
  /-- The switches that are on. -/
  switches : List Switch := []
  /-- The paths of the options that are set. -/
  paths : List (PathOption × String) := []
  deriving Repr, DecidableEq

namespace Arguments

/-- Is a switch on? -/
def isOn (arguments : Arguments) (switch : Switch) : Bool :=
  arguments.switches.contains switch

/-- The path of an option. -/
def path? (arguments : Arguments) (option : PathOption) : Option String :=
  arguments.paths.lookup option

end Arguments

/-- What a command is about: a question or a compilation. -/
inductive Request where
  | tell (topic : Topic)
  | compile (arguments : Arguments)
  deriving Repr, DecidableEq

namespace Request

/-- The names of a command. -/
def namesOf (items : List Item) : List String :=
  items.filterMap fun item => match item with
    | .name text => some text
    | _ => none

/-- The switches of a command. -/
def switchesOf (items : List Item) : List Switch :=
  items.filterMap fun item => match item with
    | .switch switch => some switch
    | _ => none

/-- The options of a command with their paths. -/
def pathsOf (items : List Item) : List (PathOption × String) :=
  items.filterMap fun item => match item with
    | .option option path => some (option, path)
    | _ => none

/-- The question of a command. -/
def topicOf? (items : List Item) : Option Topic :=
  items.findSome? fun item => match item with
    | .question topic => some topic
    | _ => none

/-- Can the parts stand in one command? At most two of them are names, and no switch or option
occurs twice. No path may be empty, while a package may. -/
def areCompatible (items : List Item) : Bool :=
  let names := namesOf items
  let paths := pathsOf items
  names.length ≤ 2 && names.head? ≠ some "" && decide (switchesOf items).Nodup &&
    decide (paths.map (·.1)).Nodup && paths.all fun entry => entry.2 ≠ ""

/-- What the parts of a command are about. Only a question needs no file. -/
def ofItems? (items : List Item) : Option Request :=
  if !areCompatible items then none
  else
    match topicOf? items, namesOf items with
    | some topic, _ => some (.tell topic)
    | none, [] => none
    | none, file :: others =>
      some (.compile ⟨file, others.head?, switchesOf items, pathsOf items⟩)

/-- What a command is about. -/
def ofWords? (words : List String) : Option Request :=
  (items? words).bind ofItems?

end Request

end Protoscribe.CommandLine
