import Protoscribe.CommandLine.Arguments
import Protoscribe.Compile.Compilation
import Protoscribe.Compile.Settings
import Protoscribe.Descriptor.Wire
import Protoscribe.OpenApi.Loading
import Protoscribe.Printer

/-!
# `Protoscribe.CommandLine.Run`: what a command does

A command reads the settings file and the description, compiles, and writes the binary
descriptors first and the schema last, to a file or to the standard output. The first failure
ends it. Files are reached through `Files`, so that a command can be run on a directory in
memory too.
-/

set_option autoImplicit false

namespace Protoscribe.CommandLine

/-- Access to files. -/
class Files (m : Type → Type) where
  /-- The text of a file, when it can be read. -/
  read : String → m (Option String)
  /-- Writes a file, and says whether that succeeds. -/
  write : String → Wire.Bytes → m Bool

/-- Why a command fails. -/
inductive Failure where
  | config (path : String)
  | document (path : String)
  | compile (path : String) (error : Compile.CompileError)
  | descriptor (path : String)
  | output (path : String)

/-- A text whose further lines are indented. -/
def indented (text : String) : String :=
  "    " ++ "\n    ".intercalate (text.splitOn "\n")

/-- What is told of a failure. -/
def Failure.message : Failure → String
  | .config path => "Failed to load config: " ++ path
  | .document path => "Failed to load document: " ++ path
  | .compile path error =>
    "Failed to compile " ++ path ++ "\n\nCaused by:\n" ++ indented error.message
  | .descriptor path => "Failed to write descriptor: " ++ path
  | .output path => "Failed to write output: " ++ path

/-- How a command ends: its exit code, its standard output, and the lines of its error output. -/
structure Outcome where
  code : UInt32
  output : String := ""
  log : List String := []

/-- A step of a command, with the lines of the error output so far. -/
abbrev Task (m : Type → Type) := ExceptT Failure (StateT (List String) m)

variable {m : Type → Type} [Monad m] [Files m]

/-- Adds a line to the error output. -/
def say (line : String) : Task m Unit :=
  modify (· ++ [line])

/-- Reads a file and what is in it. -/
def load {α : Type} (path : String) (failure : Failure) (parse : String → Option α) : Task m α := do
  match (← liftM (Files.read (m := m) path)).bind parse with
  | some value => pure value
  | none => throw failure

/-- Writes a file. -/
def save (path : String) (failure : Failure) (content : Wire.Bytes) : Task m Unit := do
  if !(← liftM (Files.write (m := m) path content)) then throw failure

/-- The settings of a command. What the command says itself counts more than the settings file. -/
def overrides (arguments : Arguments) (config : Compile.Config) : Compile.Config :=
  { config with
    package := arguments.package <|> config.package
    useAnnotation := arguments.isOn .annotations || config.useAnnotation
    skipRpc := arguments.isOn .skipRpc || config.skipRpc
    skipDeprecatedRpc := arguments.isOn .skipDeprecated || config.skipDeprecatedRpc
    prefixEnumValues := !arguments.isOn .noEnumPrefix && config.prefixEnumValues
    wrapPrimitives := arguments.isOn .wrapPrimitives || config.wrapPrimitives }

/-- The settings of a command and its settings file. -/
def loadConfig (arguments : Arguments) : Task m Compile.Config := do
  match arguments.path? .config with
  | none => pure (overrides arguments {})
  | some path =>
    say ("Loading config: " ++ path)
    let settings ← load path (.config path) (Yaml.readText Compile.Settings.read)
    pure (overrides arguments (settings.apply {}))

/-- The description that a command names. -/
def loadDocument (path : String) : Task m OpenApi.Document :=
  load path (.document path) fun text =>
    (OpenApi.Document.ofText (OpenApi.Format.ofPath path) text).toOption

/-- Does what a command asks for and gives its standard output. -/
def perform (arguments : Arguments) : Task m String := do
  let config ← loadConfig arguments
  let document ← loadDocument arguments.file
  match compile document config with
  | .error error => throw (.compile arguments.file error)
  | .ok compiled =>
    if let some path := arguments.path? .descriptorOut then
      save path (.descriptor path) (Wire.ofFileSet ⟨[compiled.file]⟩)
      say ("Wrote descriptor set to " ++ path)
    let source := Printer.source compiled.file
    match arguments.path? .output with
    | none => pure source
    | some path =>
      save path (.output path) (Wire.utf8 source)
      say ("Wrote " ++ path)
      pure ""

/-- Runs a command. A question is answered on the standard output. A command that makes no sense
ends with code 2 and does nothing. -/
def run (words : List String) : m Outcome := do
  match Request.ofWords? words with
  | none => pure ⟨2, "", []⟩
  | some (.tell topic) => pure ⟨0, topic.text, []⟩
  | some (.compile arguments) =>
    match ← ((perform arguments).run.run []) with
    | (.ok output, log) => pure ⟨0, output, log⟩
    | (.error failure, log) => pure ⟨1, "", log ++ ["Error: " ++ failure.message]⟩

end Protoscribe.CommandLine
