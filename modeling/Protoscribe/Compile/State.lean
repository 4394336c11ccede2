import Protoscribe.Compile.Config
import Protoscribe.Compile.Report
import Protoscribe.Draft.File
import Protoscribe.Identifier
import Protoscribe.OpenApi.Document

/-!
# `Protoscribe.Compile.State`: what a compilation keeps while it runs

A compilation fills a `FileDraft` and remembers for each component what it became. It also keeps
a breadcrumb, the place in the description where it is, and the chain of components that are
being compiled. `within`, `under` and `entering` change these two for the time of one step and
restore them whether the step succeeds or fails.
-/

set_option autoImplicit false

namespace Protoscribe.Compile

open OpenApi (Document Referable Section SchemaNode)

/-- What a component became. -/
inductive ComponentType where
  /-- A message of the file. -/
  | message (name : String)
  /-- An enum of the file. -/
  | enum (name : String)
  /-- Nothing: the component holds nothing that a message could. -/
  | nothing
  deriving Repr, DecidableEq

/-- The state of a compilation. -/
structure State where
  file : FileDraft
  /-- What the schema components became, by key. -/
  schemas : List (String × ComponentType) := []
  /-- What the request body components became, by key. -/
  bodies : List (String × ComponentType) := []
  /-- The components that are being compiled, outermost first. -/
  chain : List String := []
  /-- The place in the description, outermost part first. -/
  scope : List String := []
  /-- The warnings so far, first one first. -/
  warnings : List Warning := []

/-- A step of a compilation. A failing step has a state too. -/
abbrev M := EStateM CompileError State

/-- What is being compiled. -/
structure Job where
  document : Document
  config : Config

namespace Job

/-- The name of a message, an enum or a method. -/
def messageName (job : Job) (text : String) : String :=
  Acronyms.messageName ⟨job.config.acronyms⟩ text

end Job

/-- The place in the description as text. -/
def place : M String := do
  let scope := (← get).scope
  pure (if scope.isEmpty then "document root" else ".".intercalate scope)

/-- Records a warning. -/
def warn (warning : Warning) : M Unit :=
  modify fun state => { state with warnings := state.warnings ++ [warning] }

/-- Fails because a reference names nothing. -/
def dangling {α : Type} (reference : String) : M α := do
  throw (.unresolvedReference reference (← place))

/-- Changes the file. -/
def updateFile (change : FileDraft → FileDraft) : M Unit :=
  modify fun state => { state with file := change state.file }

/-- Runs a step and puts the state that it leaves in order, whether it succeeds or fails. -/
def restoring {α : Type} (restore : State → State) (step : M α) : M α := fun state =>
  match step state with
  | .ok value after => .ok value (restore after)
  | .error error after => .error error (restore after)

/-- Runs a step one part further down in the description. -/
def within {α : Type} (part : String) (step : M α) : M α := do
  modify fun state => { state with scope := state.scope ++ [part] }
  restoring (fun state => { state with scope := state.scope.dropLast }) step

/-- Runs a step at another place in the description. -/
def under {α : Type} (parts : List String) (step : M α) : M α := do
  let scope := (← get).scope
  modify fun state => { state with scope := parts }
  restoring (fun state => { state with scope }) step

/-- Runs a step inside a component. A component that is being compiled already needs itself. -/
def entering {α : Type} (key : String) (step : M α) : M α := do
  let chain := (← get).chain
  -- the chain that is reported ends where the circle closes
  if chain.contains key then throw (.cycle key (chain ++ [key]))
  modify fun state => { state with chain := state.chain ++ [key] }
  restoring (fun state => { state with chain := state.chain.dropLast }) step

/-- The schema component that a reference names, with its key. -/
def findSchema (job : Job) (reference : String) : M (String × SchemaNode) :=
  match Section.schemas.key? reference with
  | none => dangling reference
  | some key =>
    match job.document.components.schemas.find? key with
    | none => dangling reference
    | some node => pure (key, node)

/-- Follows references inside one section up to a definition, where `seen` are the keys on the
way. Every reference takes one step of `fuel`. -/
def followFrom {α : Type} (part : Section) (table : Table (Referable α)) :
    Nat → List String → Referable α → M α
  | _, _, .inline item => pure item
  | 0, _, .ref _ => throw .exhausted
  | fuel + 1, seen, .ref reference =>
    match part.key? reference with
    | none => dangling reference
    | some key =>
      if seen.contains key then throw (.cycle key (seen ++ [key]))
      else
        match table.find? key with
        | none => dangling reference
        | some node => followFrom part table fuel (seen ++ [key]) node

/-- The definition that a node stands for, through references into one section. A chain of
references visits each key of the section at most once and then one of them again. -/
def follow {α : Type} (part : Section) (table : Table (Referable α)) (node : Referable α) : M α :=
  followFrom part table (table.size + 1) [] node

/-- Declares a compiled component: an enum for the carrier of one, nothing for an empty
message. -/
def declareType (compiled : Option MessageDraft) : M ComponentType :=
  match compiled.filter fun draft => !draft.isEmpty with
  | none => pure .nothing
  | some draft =>
    match draft.carriedEnum? with
    | some enum => do
      updateFile (·.addEnum enum)
      pure (.enum enum.name)
    | none => do
      updateFile (·.addMessage draft)
      pure (.message draft.name)

end Protoscribe.Compile
