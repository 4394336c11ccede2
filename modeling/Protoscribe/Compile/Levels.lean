import Protoscribe.Compile.Schema
import Protoscribe.OpenApi.Depth

/-!
# `Protoscribe.Compile.Levels`: how deep the calls between schemas nest

`Engine.step` gives an engine one more level of calls. Two things can put another level below a
call: a schema that stands inside the one being compiled, and a component that is entered. The
first happens at most as often as schemas are nested, with at most two calls for each. The
second happens at most once for each component, since a component that is being compiled is not
entered again. `Job.levels` multiplies the two, so the engine of a job does not run out of
levels.
-/

set_option autoImplicit false

namespace Protoscribe.Compile

/-- The engine with the given number of levels. -/
def Engine.ofLevels (job : Job) (levels : Nat) : Engine :=
  Nat.repeat (Engine.step job) levels Engine.exhausted

namespace Job

/-- A bound on how deep the calls between schemas nest. -/
def levels (job : Job) : Nat :=
  let components := job.document.components
  (components.schemas.size + components.requestBodies.size + 2) * (2 * job.document.deepest + 4)

/-- The engine that compiles the schemas of a job. -/
def engine (job : Job) : Engine :=
  Engine.ofLevels job job.levels

end Job

end Protoscribe.Compile
