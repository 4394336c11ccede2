import Protoscribe.Descriptor.HttpRule

/-!
# `Protoscribe.Descriptor.Basic`: what a schema file declares

The types follow the messages of the descriptor format: a member that may be unset is an `Option`,
a repeated one is a list. A label and a field type are kept as their codes, because a descriptor
may carry codes that no name stands for; `FieldDescriptor.effectiveLabel` and
`FieldDescriptor.effectiveType` give the meaning of a code.
-/

set_option autoImplicit false

namespace Protoscribe

/-- How often a field occurs. -/
inductive FieldLabel where
  | optional
  | required
  | repeated
  deriving Repr, DecidableEq

/-- The type of a field. -/
inductive FieldType where
  | double
  | float
  | int64
  | uint64
  | int32
  | fixed64
  | fixed32
  | bool
  | string
  | group
  | message
  | bytes
  | uint32
  | enum
  | sfixed32
  | sfixed64
  | sint32
  | sint64
  deriving Repr, DecidableEq

namespace FieldLabel

/-- Every label, in the order of the codes. -/
def all : List FieldLabel := [.optional, .required, .repeated]

/-- The code of a label. -/
def code : FieldLabel → Int32
  | .optional => 1
  | .required => 2
  | .repeated => 3

/-- The label of a code. -/
def ofCode? (code : Int32) : Option FieldLabel :=
  all.find? fun label => label.code == code

end FieldLabel

namespace FieldType

/-- Every type, in the order of the codes. -/
def all : List FieldType :=
  [.double, .float, .int64, .uint64, .int32, .fixed64, .fixed32, .bool, .string, .group, .message,
   .bytes, .uint32, .enum, .sfixed32, .sfixed64, .sint32, .sint64]

/-- The code of a type. -/
def code : FieldType → Int32
  | .double => 1
  | .float => 2
  | .int64 => 3
  | .uint64 => 4
  | .int32 => 5
  | .fixed64 => 6
  | .fixed32 => 7
  | .bool => 8
  | .string => 9
  | .group => 10
  | .message => 11
  | .bytes => 12
  | .uint32 => 13
  | .enum => 14
  | .sfixed32 => 15
  | .sfixed64 => 16
  | .sint32 => 17
  | .sint64 => 18

/-- The type of a code. -/
def ofCode? (code : Int32) : Option FieldType :=
  all.find? fun type => type.code == code

/-- The word that declares a field of the type. -/
def keyword : FieldType → String
  | .double => "double"
  | .float => "float"
  | .int64 => "int64"
  | .uint64 => "uint64"
  | .int32 => "int32"
  | .fixed64 => "fixed64"
  | .fixed32 => "fixed32"
  | .bool => "bool"
  | .string => "string"
  | .group => "group"
  | .message => "message"
  | .bytes => "bytes"
  | .uint32 => "uint32"
  | .enum => "enum"
  | .sfixed32 => "sfixed32"
  | .sfixed64 => "sfixed64"
  | .sint32 => "sint32"
  | .sint64 => "sint64"

/-- Does a field of the type refer to a declared type by name? -/
def isNamed : FieldType → Bool
  | .message | .enum | .group => true
  | _ => false

end FieldType

/-- A field of a message, or an extension. -/
structure FieldDescriptor where
  name : Option String := none
  number : Option Int32 := none
  label : Option Int32 := none
  type : Option Int32 := none
  typeName : Option String := none
  oneofIndex : Option Int32 := none
  proto3Optional : Option Bool := none
  deriving Repr, DecidableEq

namespace FieldDescriptor

/-- The label that counts: an unset or unknown code means optional. -/
def effectiveLabel (field : FieldDescriptor) : FieldLabel :=
  (field.label.bind FieldLabel.ofCode?).getD .optional

/-- The type that counts: an unset or unknown code means double. -/
def effectiveType (field : FieldDescriptor) : FieldType :=
  (field.type.bind FieldType.ofCode?).getD .double

end FieldDescriptor

/-- One value of an enum. -/
structure EnumValueDescriptor where
  name : Option String := none
  number : Option Int32 := none
  deriving Repr, DecidableEq

/-- An enum. -/
structure EnumDescriptor where
  name : Option String := none
  values : List EnumValueDescriptor := []
  deriving Repr, DecidableEq

/-- A oneof group. -/
structure OneofDescriptor where
  name : Option String := none
  deriving Repr, DecidableEq

/-- A message and the types nested in it. -/
structure MessageDescriptor where
  name : Option String := none
  fields : List FieldDescriptor := []
  messages : List MessageDescriptor := []
  enums : List EnumDescriptor := []
  oneofs : List OneofDescriptor := []
  deriving Repr, Inhabited

/-- The options of a method. -/
structure MethodOptions where
  deprecated : Option Bool := none
  http : Option HttpRule := none
  deriving Repr, DecidableEq

/-- A method of a service. -/
structure MethodDescriptor where
  name : Option String := none
  inputType : Option String := none
  outputType : Option String := none
  options : Option MethodOptions := none
  clientStreaming : Option Bool := none
  serverStreaming : Option Bool := none
  deriving Repr, DecidableEq

namespace MethodDescriptor

/-- The REST mapping of a method. -/
def http (method : MethodDescriptor) : Option HttpRule :=
  method.options.bind (·.http)

/-- The verb and the path that a method is mapped to. -/
def httpPattern (method : MethodDescriptor) : Option HttpPattern :=
  method.http.bind (·.pattern)

/-- Is the method marked as deprecated? -/
def isDeprecated (method : MethodDescriptor) : Bool :=
  (method.options.bind (·.deprecated)).getD false

end MethodDescriptor

/-- A service. -/
structure ServiceDescriptor where
  name : Option String := none
  methods : List MethodDescriptor := []
  deriving Repr, DecidableEq

/-- A comment and the path of the element that it stands above. -/
structure Location where
  path : List Int32 := []
  span : List Int32 := []
  comment : Option String := none
  deriving Repr, DecidableEq

/-- A schema file. `locations` is unset in a file without source information. -/
structure FileDescriptor where
  name : Option String := none
  package : Option String := none
  dependencies : List String := []
  messages : List MessageDescriptor := []
  enums : List EnumDescriptor := []
  services : List ServiceDescriptor := []
  extensions : List FieldDescriptor := []
  locations : Option (List Location) := none
  syntaxName : Option String := none
  deriving Repr, Inhabited

/-- A set of schema files. -/
structure FileSet where
  files : List FileDescriptor := []
  deriving Repr, Inhabited

end Protoscribe
