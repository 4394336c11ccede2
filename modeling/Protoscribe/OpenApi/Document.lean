import Protoscribe.OpenApi.Reference
import Protoscribe.Table
import Protoscribe.Value

/-!
# `Protoscribe.OpenApi.Document`: an API description

The types hold what a schema file is made from, and nothing else of a description. A schema has
one `Shape`, which is settled when it is read, so that nobody looks at its keywords again.
Sections and paths are sorted tables; properties and the responses of an operation keep the
order of the document.
-/

set_option autoImplicit false

namespace Protoscribe.OpenApi

/-- A reference to a component, or a definition in its place. -/
inductive Referable (α : Type) where
  | ref (reference : String)
  | inline (value : α)
  deriving Inhabited

/-- What a schema describes. The nodes below it are of type `node`. -/
inductive Shape (node : Type) where
  /-- An object whose members all follow one schema. -/
  | map (value : node)
  /-- One of some literals. -/
  | enum (literals : List Value)
  /-- One of some schemas. -/
  | oneOf (variants : List node)
  /-- Any of some schemas. -/
  | anyOf (variants : List node)
  /-- All of some schemas, and the properties of the schema itself. -/
  | allOf (variants : List node) (properties : List (String × node)) (required : List String)
  | boolean
  | integer (format : Option String)
  | number (format : Option String)
  | string (format : Option String)
  | array (items : Option node)
  /-- An object with named properties. -/
  | object (properties : List (String × node)) (required : List String)
  /-- Nothing in particular. -/
  | any

/-- A schema. `propertyOrder` is what the schema gives as the order of its properties, whatever
kind of value that is. -/
structure Schema where
  title : Option String := none
  description : Option String := none
  deprecated : Bool := false
  nullable : Bool := false
  propertyOrder : Option Value := none
  shape : Shape (Referable Schema) := .any

instance : Inhabited Schema := ⟨{}⟩

/-- A schema or a reference to one. -/
abbrev SchemaNode := Referable Schema

/-- Does the schema describe an object with named properties? -/
def Schema.isObject (schema : Schema) : Bool :=
  match schema.shape with
  | .object _ _ | .allOf _ _ _ => true
  | _ => false

/-- A parameter. `location` says where it goes: into the path, the query, a header or a cookie. -/
structure Parameter where
  name : String := ""
  location : String := ""
  description : Option String := none
  required : Bool := false
  deprecated : Bool := false
  schema : Option SchemaNode := none
  deriving Inhabited

/-- The payload of one media type. -/
structure MediaType where
  schema : Option SchemaNode := none
  deriving Inhabited

/-- Payloads by media type. -/
abbrev Content := Table MediaType

/-- The schema of the JSON payload. -/
def Content.jsonSchema? (content : Content) : Option SchemaNode :=
  (content.find? "application/json").bind (·.schema)

/-- A request body. -/
structure RequestBody where
  description : Option String := none
  content : Content := {}
  required : Bool := false
  deriving Inhabited

/-- A response. -/
structure Response where
  description : Option String := none
  content : Content := {}
  deriving Inhabited

/-- An operation on a path. -/
structure Operation where
  operationId : Option String := none
  summary : Option String := none
  description : Option String := none
  deprecated : Bool := false
  parameters : List (Referable Parameter) := []
  requestBody : Option (Referable RequestBody) := none
  responses : List (String × Referable Response) := []
  deriving Inhabited

/-- The response that an operation gives with a status. The first of equal ones counts. -/
def Operation.response? (operation : Operation) (status : String) : Option (Referable Response) :=
  operation.responses.lookup status

/-- The verbs of the operations on a path, in the order in which they are visited. -/
inductive Verb where
  | get
  | put
  | post
  | delete
  | options
  | head
  | patch
  | trace
  deriving Repr, DecidableEq

/-- Every verb, in order. -/
def Verb.all : List Verb :=
  [.get, .put, .post, .delete, .options, .head, .patch, .trace]

/-- The verb in lower case. -/
def Verb.name : Verb → String
  | .get => "get"
  | .put => "put"
  | .post => "post"
  | .delete => "delete"
  | .options => "options"
  | .head => "head"
  | .patch => "patch"
  | .trace => "trace"

/-- A path with its operations and what they share. -/
structure PathItem where
  summary : Option String := none
  description : Option String := none
  parameters : List (Referable Parameter) := []
  get : Option Operation := none
  put : Option Operation := none
  post : Option Operation := none
  delete : Option Operation := none
  options : Option Operation := none
  head : Option Operation := none
  patch : Option Operation := none
  trace : Option Operation := none
  deriving Inhabited

namespace PathItem

/-- The operation under a verb. -/
def operation? (item : PathItem) : Verb → Option Operation
  | .get => item.get
  | .put => item.put
  | .post => item.post
  | .delete => item.delete
  | .options => item.options
  | .head => item.head
  | .patch => item.patch
  | .trace => item.trace

/-- The operations with their verbs, in the order of the verbs. -/
def operations (item : PathItem) : List (Verb × Operation) :=
  Verb.all.filterMap fun verb => (item.operation? verb).map fun operation => (verb, operation)

end PathItem

/-- What is said about the description as a whole. -/
structure Info where
  title : String := ""
  description : Option String := none
  version : String := ""
  deriving Inhabited

/-- The reusable parts of a description. -/
structure Components where
  schemas : Table SchemaNode := {}
  parameters : Table (Referable Parameter) := {}
  requestBodies : Table (Referable RequestBody) := {}
  responses : Table (Referable Response) := {}
  deriving Inhabited

/-- An API description. -/
structure Document where
  openapi : String := ""
  info : Info := {}
  paths : Table PathItem := {}
  components : Components := {}
  deriving Inhabited

end Protoscribe.OpenApi
