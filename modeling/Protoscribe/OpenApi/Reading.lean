import Protoscribe.OpenApi.Node
import Protoscribe.Reading.Source

/-!
# `Protoscribe.OpenApi.Reading`: a description from any format

Each record of a description lists its members in the order in which a list would give their
values. Nodes that may be references are read to their end first and taken apart by
`OpenApi.Node`.
-/

set_option autoImplicit false

namespace Protoscribe.OpenApi

variable {σ : Type} {m : Type → Type} [Monad m] [Source σ m]

open Source (member recordFrom interpreted)

/-- A node that may be a reference. -/
def node {α : Type} (item? : Value → Option α) (source : σ) : m (Referable α) :=
  interpreted (Referable.ofValue? item?) source

/-- Entries sorted by key, of which the last of equal keys counts. -/
def table {α : Type} (read : σ → m α) (source : σ) : m (Table α) :=
  Table.ofList <$> Source.entries read source

/-- A text that may be absent. -/
def optionalText : σ → m (Option String) :=
  Source.optional Source.text

namespace Operation

/-- The members of an operation. -/
def members : List (Member σ m Operation) :=
  [member "operationId" optionalText fun value it => { it with operationId := value },
   member "summary" optionalText fun value it => { it with summary := value },
   member "description" optionalText fun value it => { it with description := value },
   member "deprecated" Source.flag fun value it => { it with deprecated := value },
   member "parameters" (Source.list (node Parameter.ofValue?)) fun value it =>
     { it with parameters := value },
   member "requestBody" (Source.optional (node RequestBody.ofValue?)) fun value it =>
     { it with requestBody := value },
   member "responses" (Source.ordered (node Response.ofValue?)) fun value it =>
     { it with responses := value }]

/-- An operation. -/
def read (source : σ) : m Operation :=
  recordFrom {} "Operation" members source

end Operation

namespace PathItem

/-- The members of a path item. -/
def members : List (Member σ m PathItem) :=
  [member "summary" optionalText fun value it => { it with summary := value },
   member "description" optionalText fun value it => { it with description := value },
   member "parameters" (Source.list (node Parameter.ofValue?)) fun value it =>
     { it with parameters := value },
   member "get" (Source.optional Operation.read) fun value it => { it with get := value },
   member "put" (Source.optional Operation.read) fun value it => { it with put := value },
   member "post" (Source.optional Operation.read) fun value it => { it with post := value },
   member "delete" (Source.optional Operation.read) fun value it => { it with delete := value },
   member "options" (Source.optional Operation.read) fun value it => { it with options := value },
   member "head" (Source.optional Operation.read) fun value it => { it with head := value },
   member "patch" (Source.optional Operation.read) fun value it => { it with patch := value },
   member "trace" (Source.optional Operation.read) fun value it => { it with trace := value }]

/-- A path item. -/
def read (source : σ) : m PathItem :=
  recordFrom {} "PathItem" members source

end PathItem

namespace Components

/-- The members of the components. -/
def members : List (Member σ m Components) :=
  [member "schemas" (table (interpreted SchemaNode.ofValue?)) fun value it =>
     { it with schemas := value },
   member "parameters" (table (node Parameter.ofValue?)) fun value it =>
     { it with parameters := value },
   member "requestBodies" (table (node RequestBody.ofValue?)) fun value it =>
     { it with requestBodies := value },
   member "responses" (table (node Response.ofValue?)) fun value it =>
     { it with responses := value }]

/-- The components. -/
def read (source : σ) : m Components :=
  recordFrom {} "Components" members source

end Components

namespace Info

/-- The members of the information on a description. -/
def members : List (Member σ m Info) :=
  [member "title" Source.text fun value it => { it with title := value },
   member "description" optionalText fun value it => { it with description := value },
   member "version" Source.text fun value it => { it with version := value }]

/-- The information on a description. -/
def read (source : σ) : m Info :=
  recordFrom {} "Info" members source

end Info

namespace Document

/-- The members of a description. -/
def members : List (Member σ m Document) :=
  [member "openapi" Source.text fun value it => { it with openapi := value },
   member "info" Info.read fun value it => { it with info := value },
   member "paths" (table PathItem.read) fun value it => { it with paths := value },
   member "components" Components.read fun value it => { it with components := value }]

/-- A description. -/
def read (source : σ) : m Document :=
  recordFrom {} "Document" members source

end Document

end Protoscribe.OpenApi
