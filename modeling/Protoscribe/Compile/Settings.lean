import Protoscribe.Compile.Config
import Protoscribe.Reading.Source

/-!
# `Protoscribe.Compile.Settings`: a settings file

A settings file holds what is the same each time a description is compiled. Members that it does
not set have their default values.
-/

set_option autoImplicit false

namespace Protoscribe.Compile

/-- What a settings file says. -/
structure Settings where
  package : Option String := none
  acronyms : List String := []
  useAnnotation : Bool := false
  skipRpc : Bool := false
  skipDeprecatedRpc : Bool := false
  prefixEnumValues : Bool := true
  wrapPrimitives : Bool := false
  dependencies : List String := []
  deriving Repr, DecidableEq, Inhabited

namespace Settings

variable {σ : Type} {m : Type → Type} [Monad m] [Source σ m]

open Source (member recordFrom)

/-- The members of a settings file. -/
def members : List (Member σ m Settings) :=
  [member "package" (Source.optional Source.text) fun value it => { it with package := value },
   member "acronyms" (Source.list Source.text) fun value it => { it with acronyms := value },
   member "use_annotation" Source.flag fun value it => { it with useAnnotation := value },
   member "skip_rpc" Source.flag fun value it => { it with skipRpc := value },
   member "skip_deprecated_rpc" Source.flag fun value it => { it with skipDeprecatedRpc := value },
   member "prefix_enum_values" Source.flag fun value it => { it with prefixEnumValues := value },
   member "wrap_primitives" Source.flag fun value it => { it with wrapPrimitives := value },
   member "dependencies" (Source.list Source.text) fun value it =>
     { it with dependencies := value }]

/-- Settings. -/
def read (source : σ) : m Settings :=
  recordFrom {} "Settings" members source

/-- The settings on top of others. They leave a package that they do not set as it is. -/
def apply (settings : Settings) (config : Config) : Config :=
  { config with
    package := settings.package <|> config.package
    useAnnotation := settings.useAnnotation
    skipRpc := settings.skipRpc
    skipDeprecatedRpc := settings.skipDeprecatedRpc
    prefixEnumValues := settings.prefixEnumValues
    wrapPrimitives := settings.wrapPrimitives
    acronyms := settings.acronyms
    dependencies := settings.dependencies }

end Settings

end Protoscribe.Compile
