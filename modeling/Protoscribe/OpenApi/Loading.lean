import Protoscribe.Json.Source
import Protoscribe.OpenApi.Format
import Protoscribe.OpenApi.Reading
import Protoscribe.Yaml.Source

/-!
# `Protoscribe.OpenApi.Loading`: a description from a text in one of the formats

A JSON text that is no description has an error that says why. A YAML text has none.
-/

set_option autoImplicit false

namespace Protoscribe.OpenApi

/-- Why a text is no description. -/
inductive LoadError where
  | json (error : Json.ReadError)
  | yaml

namespace Document

/-- The description in a JSON text. -/
def ofJson (text : String) : Except LoadError Document :=
  (Json.readText read text).mapError .json

/-- The description in a YAML text. -/
def ofYaml (text : String) : Except LoadError Document :=
  match Yaml.readText read text with
  | some document => .ok document
  | none => .error .yaml

/-- The description in a text of the given format. -/
def ofText (format : Format) (text : String) : Except LoadError Document :=
  match format with
  | .json => ofJson text
  | .yaml => ofYaml text

end Document

end Protoscribe.OpenApi
