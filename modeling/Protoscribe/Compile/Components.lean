import Protoscribe.Compile.Levels

/-!
# `Protoscribe.Compile.Components`: the components of a description

The names of all schemas and request bodies are kept before anything is compiled, so that an
inline type with the name of a component is told apart from it whatever comes first. Then the
schemas are declared in the order of their keys, and the request bodies after them.
-/

set_option autoImplicit false

namespace Protoscribe.Compile

/-- Keeps the names of all components. -/
def keepNames (job : Job) : M Unit := do
  let components := job.document.components
  let keys := components.schemas.keys ++ components.requestBodies.keys
  updateFile fun file => (keys.map job.messageName).foldl FileDraft.reserve file

/-- Declares all components. -/
def declareComponents (job : Job) : M Unit := do
  keepNames job
  let components := job.document.components
  components.schemas.entries.forM fun entry => do
    let _ ← job.engine.component entry.1 entry.2
  components.requestBodies.entries.forM fun entry => do
    let _ ← job.engine.requestBody entry.1 entry.2

end Protoscribe.Compile
