import Protoscribe.Descriptor.Basic

/-!
# `Protoscribe.Draft.Link`: type names made absolute

While a file is written, a field names its type as seen from its own message. `link` rewrites
every such name to the full name of the type. A name is looked up in the innermost scope first
and then outward, up to the root. One that is declared nowhere is taken to be absolute as it
stands.
-/

set_option autoImplicit false

namespace Protoscribe.Link

/-- The full name of `name` in a scope. A scope is empty or starts with a dot. -/
def qualify (scope name : String) : String :=
  scope ++ "." ++ name

/-- The texts that end in front of a dot of a reversed text, longest first. -/
def cuts : List Char → List (List Char)
  | [] => []
  | c :: rest => if c = '.' then rest.reverse :: cuts rest else cuts rest

/-- A scope and the scopes around it, innermost first. -/
def scopes (scope : List Char) : List (List Char) :=
  scope :: cuts scope.reverse

/-- The full name that `name` stands for in a scope, where `known` are the full names of all
declared types. -/
def resolve (known : List String) (scope name : String) : String :=
  -- a name with a dot in front is absolute already
  if name.toList.head? = some '.' then name
  else
    (((scopes scope.toList).map fun around => qualify (String.ofList around) name).find?
      known.contains).getD ("." ++ name)

mutual

/-- The full names of a message and of all types nested in it. -/
def namesIn (scope : String) : MessageDescriptor → List String
  | ⟨name, _, messages, enums, _⟩ =>
    let full := qualify scope (name.getD "")
    (enums.map fun enum => qualify full (enum.name.getD "")) ++ namesInAll full messages ++
      [full]

/-- The full names of the types that a list of messages declares. -/
def namesInAll (scope : String) : List MessageDescriptor → List String
  | [] => []
  | message :: rest => namesIn scope message ++ namesInAll scope rest

end

/-- The full names of all types that a file declares under a root. -/
def declaredNames (root : String) (file : FileDescriptor) : List String :=
  namesInAll root file.messages ++ file.enums.map fun enum => qualify root (enum.name.getD "")

mutual

/-- A message in a scope with the type names of its fields made absolute, at every depth. -/
def inMessage (known : List String) (scope : String) : MessageDescriptor → MessageDescriptor
  | ⟨name, fields, messages, enums, oneofs⟩ =>
    let full := qualify scope (name.getD "")
    { name
      fields := fields.map fun field =>
        { field with typeName := field.typeName.map (resolve known full) }
      messages := inMessages known full messages
      enums
      oneofs }

/-- The messages of a list with their type names made absolute. -/
def inMessages (known : List String) (scope : String) :
    List MessageDescriptor → List MessageDescriptor
  | [] => []
  | message :: rest => inMessage known scope message :: inMessages known scope rest

end

/-- A method with its type names made absolute. -/
def inMethod (known : List String) (root : String) (method : MethodDescriptor) :
    MethodDescriptor :=
  { method with
    inputType := method.inputType.map (resolve known root)
    outputType := method.outputType.map (resolve known root) }

/-- The scope of a package. -/
def rootScope (package : Option String) : String :=
  match package with
  | some name => if name.isEmpty then "" else "." ++ name
  | none => ""

/-- The file with every type name made absolute. -/
def link (file : FileDescriptor) : FileDescriptor :=
  let root := rootScope file.package
  let known := declaredNames root file
  { file with
    messages := inMessages known root file.messages
    services := file.services.map fun service =>
      { service with methods := service.methods.map (inMethod known root) } }

end Protoscribe.Link
