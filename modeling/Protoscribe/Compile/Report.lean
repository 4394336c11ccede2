/-!
# `Protoscribe.Compile.Report`: errors and warnings of a compilation

An error ends a compilation, a warning does not. Both name the place in the description that
they are about by its breadcrumb.
-/

set_option autoImplicit false

namespace Protoscribe.Compile

/-- Why a description cannot be compiled. -/
inductive CompileError where
  /-- A reference names nothing in the section that it should lead into. -/
  | unresolvedReference (reference place : String)
  /-- A component needs itself. The chain lists the components in the order in which they need
  each other, up to the one that occurs a second time. -/
  | cycle (name : String) (chain : List String)
  /-- A schema of a primitive type has no field type. -/
  | missingFieldType (place : String)
  /-- The order of properties is no list of names. -/
  | invalidPropertyOrder (place : String)
  /-- The recursion ran longer than any description makes it run. -/
  | exhausted
  deriving Repr, DecidableEq

/-- The text of an error. -/
def CompileError.message : CompileError → String
  | .unresolvedReference reference place =>
    "unresolved reference '" ++ reference ++ "' at " ++ place
  | .cycle name chain =>
    "reference cycle through component '" ++ name ++ "': " ++ " -> ".intercalate chain
  | .missingFieldType place => "no protobuf field type for primitive schema at " ++ place
  | .invalidPropertyOrder place =>
    "invalid x-propertyOrder at " ++ place ++ ": expected a list of property names"
  | .exhausted => "nesting without an end"

/-- Something that a compilation leaves out or renames. -/
inductive Warning where
  | nonScalarLiteral (place : String)
  | renamedValue (place value renamed : String)
  | repeatedVariant (place field : String)
  | repeatedField (place field : String)
  | ignoredVariant (place : String)
  | renamedType (place component renamed : String)
  | repeatedMethod (path verb method : String)
  | parameterWithoutSchema (place parameter : String)
  | reusedMessage (name : String)
  deriving Repr, DecidableEq

/-- The members of a warning with their names, in the order in which they are recorded. -/
def Warning.members : Warning → List (String × String)
  | .nonScalarLiteral place =>
    [("message", "skipping non-scalar enum literal"), ("schema", place)]
  | .renamedValue place value renamed =>
    [("message", "duplicate enum value renamed"), ("schema", place), ("value", value),
     ("renamed", renamed)]
  | .repeatedVariant place field =>
    [("message", "skipping duplicate oneof variant"), ("schema", place), ("field", field)]
  | .repeatedField place field =>
    [("message", "skipping duplicate field"), ("schema", place), ("field", field)]
  | .ignoredVariant place =>
    [("message", "skipping allOf variant that is not an object"), ("schema", place)]
  | .renamedType place component renamed =>
    [("message", "inline type named like a component of another kind"), ("schema", place),
     ("component", component), ("renamed", renamed)]
  | .repeatedMethod path verb method =>
    [("message", "skipping duplicate method"), ("path", path), ("verb", verb), ("method", method)]
  | .parameterWithoutSchema place parameter =>
    [("message", "parameter without schema"), ("schema", place), ("parameter", parameter)]
  | .reusedMessage name =>
    [("message", "name already declared; reusing the existing type"), ("message", name)]

end Protoscribe.Compile
