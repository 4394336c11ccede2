import Protoscribe.Descriptor.Basic
import Protoscribe.Text.Blank

/-!
# `Protoscribe.Printer`: a file descriptor as schema source

`Printer.file` turns a descriptor into lines, `Printer.source` joins them. A `Line` says whether
it is blank, a comment or a statement, so that the comments of a file can be told from its code.
The fields of a message are arranged first (`Printer.members`): a oneof group stands where its
first field stands and holds all of its fields. Types are written relative to the package.
-/

set_option autoImplicit false

namespace Protoscribe.Printer

/-- One line of source text. -/
inductive Line where
  | blank
  | comment (depth : Nat) (text : String)
  | code (depth : Nat) (text : String)
  deriving Repr, DecidableEq

namespace Line

/-- Two spaces for each level of nesting. -/
def indentation (depth : Nat) : String :=
  String.ofList (List.replicate (2 * depth) ' ')

/-- The line with its indentation and the line feed that ends it. -/
def render : Line → String
  | .blank => "\n"
  | .comment depth text => indentation depth ++ "//" ++ text ++ "\n"
  | .code depth text => indentation depth ++ text ++ "\n"

end Line

/-- The texts of lines, one after the other. -/
def render (lines : List Line) : String :=
  String.join (lines.map Line.render)

/-- The path of the `index`-th element under `tag`. -/
def child (path : List Int32) (tag : Int32) (index : Nat) : List Int32 :=
  path ++ [tag, Int32.ofNat (min index 2147483647)]

/-- The characters of a text inside a literal: a backslash goes in front of every quotation mark and
every backslash. -/
def escape : List Char → List Char
  | [] => []
  | c :: rest => if c = '\\' || c = '"' then '\\' :: c :: escape rest else c :: escape rest

/-- A text as a string literal: escaped, and between quotation marks. -/
def literal (text : String) : String :=
  "\"" ++ String.ofList (escape text.toList) ++ "\""

/-- The text that a name in the package starts with: dot, package and dot. -/
def packageStart (package : String) : String :=
  if package.isEmpty then "." else "." ++ package ++ "."

/-- A type name as it is written in a file of the package: without the package or, failing that,
without the dot in front. -/
def relative (package name : String) : String :=
  match List.isPrefixOf? (packageStart package).toList name.toList with
  | some rest => String.ofList rest
  | none =>
    match name.toList with
    | '.' :: rest => String.ofList rest
    | _ => name

/-- The type of a field as it is written: a keyword, or the name of a declared type. -/
def typeText (package : String) (field : FieldDescriptor) : String :=
  if field.effectiveType.isNamed then relative package (field.typeName.getD "")
  else field.effectiveType.keyword

/-- The oneof group that a field is printed in. A field with proto3 presence stands alone. -/
def group? (field : FieldDescriptor) : Option Int32 :=
  if field.proto3Optional.getD false then none else field.oneofIndex

/-- A part of a message body: a field on its own, or a oneof group with its fields. Each field
comes with its index in the message. -/
inductive Member where
  | field (index : Nat) (field : FieldDescriptor)
  | oneof (group : Int32) (fields : List (Nat × FieldDescriptor))
  deriving Repr, DecidableEq

/-- The fields of a list that belong to a group. -/
def fieldsOf (group : Int32) (fields : List (Nat × FieldDescriptor)) :
    List (Nat × FieldDescriptor) :=
  fields.filter fun field => group? field.2 == some group

/-- Arranges the fields that remain, where `all` are the fields of the message and `seen` the
groups that stand already. -/
def arrange (all : List (Nat × FieldDescriptor)) :
    List Int32 → List (Nat × FieldDescriptor) → List Member
  | _, [] => []
  | seen, (index, field) :: rest =>
    match group? field with
    | none => .field index field :: arrange all seen rest
    | some group =>
      if seen.contains group then arrange all seen rest
      else .oneof group (fieldsOf group all) :: arrange all (group :: seen) rest

/-- Elements with their positions. -/
def indexed {α : Type} (items : List α) : List (Nat × α) :=
  items.zipIdx.map fun item => (item.2, item.1)

/-- The parts of a message body in order. -/
def members (fields : List FieldDescriptor) : List Member :=
  arrange (indexed fields) [] (indexed fields)

/-- What printing an element needs to know about its file. -/
structure Surroundings where
  package : String
  locations : List Location

namespace Surroundings

/-- The comment above the element at `path`. Of several locations with a comment the last
counts. -/
def comment? (around : Surroundings) (path : List Int32) : Option String :=
  (around.locations.filter fun location =>
    location.path == path && location.comment.isSome).getLast?.bind
    (·.comment)

/-- The comment lines above the element at `path`. -/
def comments (around : Surroundings) (depth : Nat) (path : List Int32) : List Line :=
  match around.comment? path with
  | none => []
  | some text => (Text.lines text.toList).map fun line => .comment depth (String.ofList line)

end Surroundings

/-- A field statement. -/
def field (around : Surroundings) (depth : Nat) (path : List Int32) (field : FieldDescriptor) :
    List Line :=
  let label :=
    if field.effectiveLabel = .repeated then "repeated "
    else if field.proto3Optional.getD false then "optional "
    else ""
  around.comments depth path ++
    [.code depth (label ++ typeText around.package field ++ " " ++ field.name.getD "" ++ " = " ++
      toString (field.number.getD 0) ++ ";")]

/-- The name that a group is declared under, empty for an index that is not declared. -/
def oneofName (oneofs : List OneofDescriptor) (group : Int32) : String :=
  if group < 0 then "" else ((oneofs[group.toNatClampNeg]?).bind (·.name)).getD ""

/-- One part of a message body. -/
def member (around : Surroundings) (depth : Nat) (path : List Int32)
    (oneofs : List OneofDescriptor) :
    Member → List Line
  | .field index item => field around depth (child path 2 index) item
  | .oneof group fields =>
    [.code depth ("oneof " ++ oneofName oneofs group ++ " \x7b")] ++
      (fields.flatMap fun item => field around (depth + 1) (child path 2 item.1) item.2) ++
      [.code depth "\x7d"]

/-- An enum. -/
def enum (around : Surroundings) (depth : Nat) (path : List Int32) (enum : EnumDescriptor) :
    List Line :=
  around.comments depth path ++ [.code depth ("enum " ++ enum.name.getD "" ++ " \x7b")] ++
    ((indexed enum.values).flatMap fun value =>
      around.comments (depth + 1) (child path 2 value.1) ++
        [.code (depth + 1)
          (value.2.name.getD "" ++ " = " ++ toString (value.2.number.getD 0) ++ ";")]) ++
    [.code depth "\x7d"]

/-- Parts with a blank line between each two of them; empty parts count too. -/
def separated : List (List Line) → List Line
  | [] => []
  | [part] => part
  | part :: rest => part ++ .blank :: separated rest

mutual

/-- A message: its enums, its messages and its fields, with a blank line between each two
parts. -/
def message (around : Surroundings) (depth : Nat) (path : List Int32) :
    MessageDescriptor → List Line
  | ⟨name, fields, nested, enums, oneofs⟩ =>
    let body := (members fields).flatMap (member around (depth + 1) path oneofs)
    around.comments depth path ++ [.code depth ("message " ++ name.getD "" ++ " \x7b")] ++
      separated
        (((indexed enums).map fun item => enum around (depth + 1) (child path 4 item.1) item.2) ++
          messages around (depth + 1) path 3 0 nested ++
          (if fields.isEmpty then [] else [body])) ++
      [.code depth "\x7d"]

/-- Messages in a row, of which the first has the index `index` under `tag`. -/
def messages (around : Surroundings) (depth : Nat) (path : List Int32) (tag : Int32) (index : Nat) :
    List MessageDescriptor → List (List Line)
  | [] => []
  | item :: rest =>
    message around depth (child path tag index) item ::
      messages around depth path tag (index + 1) rest

end

/-- The pattern of a rule. -/
def pattern : HttpPattern → String
  | .custom kind path =>
    "custom: \x7b kind: " ++ literal kind ++ " path: " ++ literal path ++ " \x7d"
  | other => other.verb ++ ": " ++ literal other.path

/-- The option that maps a method to a request. -/
def rule (depth : Nat) (rule : HttpRule) : List Line :=
  [.code depth "option (google.api.http) = \x7b"] ++
    (rule.pattern.toList.map fun item => .code (depth + 1) (pattern item)) ++
    (if rule.body.isEmpty then [] else [.code (depth + 1) ("body: " ++ literal rule.body)]) ++
    [.code depth "\x7d;"]

/-- A method. -/
def method (around : Surroundings) (depth : Nat) (path : List Int32) (method : MethodDescriptor) :
    List Line :=
  let signature :=
    "rpc " ++ method.name.getD "" ++ "(" ++ relative around.package (method.inputType.getD "") ++
      ") returns (" ++ relative around.package (method.outputType.getD "") ++ ")"
  let options :=
    (if method.isDeprecated then [.code (depth + 1) "option deprecated = true;"] else []) ++
      method.http.toList.flatMap (rule (depth + 1))
  around.comments depth path ++
    (if options.isEmpty then [.code depth (signature ++ ";")]
     else [.code depth (signature ++ " \x7b")] ++ options ++ [.code depth "\x7d"])

/-- A service. -/
def service (around : Surroundings) (depth : Nat) (path : List Int32)
    (service : ServiceDescriptor) :
    List Line :=
  around.comments depth path ++ [.code depth ("service " ++ service.name.getD "" ++ " \x7b")] ++
    ((indexed service.methods).flatMap fun item =>
      method around (depth + 1) (child path 2 item.1) item.2) ++
    [.code depth "\x7d"]

/-- The lines of a file: the language version, the package, the imports, then the enums, the
messages and the services. -/
def file (file : FileDescriptor) : List Line :=
  let package := file.package.getD ""
  let around : Surroundings := ⟨package, file.locations.getD []⟩
  let version := file.syntaxName.getD ""
  let declarations :=
    ((indexed file.enums).map fun item => enum around 0 (child [] 5 item.1) item.2) ++
      messages around 0 [] 4 0 file.messages ++
      ((indexed file.services).map fun item => service around 0 (child [] 6 item.1) item.2)
  [.code 0 ("syntax = \"" ++ (if version.isEmpty then "proto3" else version) ++ "\";")] ++
    (if package.isEmpty then []
     else .blank :: around.comments 0 [2] ++ [.code 0 ("package " ++ package ++ ";")]) ++
    (if file.dependencies.isEmpty then []
     else .blank :: file.dependencies.map fun name => .code 0 ("import " ++ literal name ++ ";")) ++
    declarations.flatMap fun part => .blank :: part

/-- The source text of a file. -/
def source (descriptor : FileDescriptor) : String :=
  render (file descriptor)

end Protoscribe.Printer
