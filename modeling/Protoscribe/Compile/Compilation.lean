import Protoscribe.Compile.Components
import Protoscribe.Compile.Operation

/-!
# `Protoscribe.Compile.Compilation`: from a description to a schema file

The package is the configured one, or else comes from the title. Finished messages that the
settings hold come first, then the components, and then what the operations need.
-/

set_option autoImplicit false

namespace Protoscribe.Compile

open OpenApi (Document Info)

/-- The package of the file. -/
def packageFor (document : Document) (config : Config) : String :=
  -- an empty package is not a configured one
  match config.package.filter (!·.isEmpty) with
  | some package => package
  | none =>
    let derived := Identifier.fieldName document.info.title
    if derived.isEmpty then "openapi" else derived

/-- The comment above the package: the description and the version. -/
def openingComment (info : Info) : Option String :=
  let description := Text.trimmed (info.description.getD "")
  let version := if info.version.isEmpty then "" else "Version: " ++ info.version
  match [description, version].filter (!·.isEmpty) with
  | [] => none
  | parts => some ("\n\n".intercalate parts)

/-- The file before anything is compiled. -/
def startFile (document : Document) (config : Config) : FileDraft :=
  let package := packageFor document config
  let empty : FileDraft :=
    { name := lastPart package ++ ".proto"
      package
      packageComment := openingComment document.info }
  config.additionalMessages.foldl FileDraft.addFinished
    (config.dependencies.foldl FileDraft.addDependency empty)

/-- Fills the file. -/
def compileDocument (job : Job) : M Unit := do
  declareComponents job
  if !job.config.skipRpc then declareService job

/-- A finished file and the warnings on the way to it. -/
structure Output where
  file : FileDescriptor
  warnings : List Warning

end Compile

open Compile in
/-- Compiles a description to a schema file. -/
def compile (document : OpenApi.Document) (config : Config) : Except CompileError Output :=
  match compileDocument ⟨document, config⟩ { file := startFile document config } with
  | .ok _ state => .ok ⟨state.file.build, state.warnings⟩
  | .error error _ => .error error

end Protoscribe
