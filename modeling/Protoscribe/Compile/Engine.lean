import Protoscribe.Compile.State

/-!
# `Protoscribe.Compile.Engine`: the calls between schemas

Compiling one schema may lead to any other one: to those inside it and to the components that it
refers to. The functions that do the work get these calls as an `Engine`, so that each of them
is a plain definition. `Protoscribe.Compile.Levels` puts them together.
-/

set_option autoImplicit false

namespace Protoscribe.Compile

open OpenApi (Referable RequestBody Schema SchemaNode)

/-- The calls that may lead from one schema to any other one. -/
structure Engine where
  /-- Compiles a node under a name; a reference is expanded in place. -/
  node : String → SchemaNode → M (Option MessageDraft)
  /-- Compiles a schema under a name. -/
  schema : String → Schema → M (Option MessageDraft)
  /-- Adds a variant of `allOf` to a message. -/
  absorb : MessageDraft → SchemaNode → M MessageDraft
  /-- Compiles a schema component and declares it, once. -/
  component : String → SchemaNode → M ComponentType
  /-- Compiles a request body component and declares it, once. -/
  requestBody : String → Referable RequestBody → M ComponentType

/-- The engine that makes no call. -/
def Engine.exhausted : Engine where
  node _ _ := throw .exhausted
  schema _ _ := throw .exhausted
  absorb _ _ := throw .exhausted
  component _ _ := throw .exhausted
  requestBody _ _ := throw .exhausted

end Protoscribe.Compile
