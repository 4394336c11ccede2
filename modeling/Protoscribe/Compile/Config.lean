import Protoscribe.Descriptor.Basic

/-!
# `Protoscribe.Compile.Config`: what a compilation can be told

Enum values are prefixed with the name of their enum unless that is turned off. Everything else
is off or empty unless it is asked for.
-/

set_option autoImplicit false

namespace Protoscribe.Compile

/-- The settings of a compilation. -/
structure Config where
  /-- The package. When it is unset or empty, the title of the description gives it. -/
  package : Option String := none
  /-- Does every method get the option that maps it to its request? -/
  useAnnotation : Bool := false
  /-- Is the service left out? -/
  skipRpc : Bool := false
  /-- Are deprecated operations left out? -/
  skipDeprecatedRpc : Bool := false
  /-- Does the name of an enum go in front of its values? -/
  prefixEnumValues : Bool := true
  /-- Does a scalar that is not required become a message that holds it? -/
  wrapPrimitives : Bool := false
  /-- The spellings that message names keep. -/
  acronyms : List String := []
  /-- Finished messages that go in front of the compiled ones. -/
  additionalMessages : List MessageDescriptor := []
  /-- Imports that are always there. -/
  dependencies : List String := []
  deriving Inhabited

end Protoscribe.Compile
