/-!
# `Protoscribe.CommandLine.Help`: what the program tells of itself

A command may ask for the version, for a summary of what a command can hold, or for that with
all details. The summary puts the names beside their descriptions. Everywhere else the
description stands below, since the longest option and the longest description do not fit side by
side in a hundred columns.
-/

set_option autoImplicit false

namespace Protoscribe.CommandLine

/-- What a command may ask for instead of a compilation. -/
inductive Topic where
  | summary
  | details
  | version
  deriving Repr, DecidableEq

/-- The name of the program. -/
def programName : String := "openapi2proto"

/-- A part of a command as help shows it. `more` is what only the details tell. -/
structure Explained where
  form : String
  description : String
  more : Option String := none
  deriving Repr, DecidableEq

namespace Explained

/-- The names in a command. -/
def names : List Explained :=
  [{ form := "<FILE>"
     description :=
       "Path to the `OpenAPI` document (YAML, or JSON with a `.json` extension)" },
   { form := "[PACKAGE]"
     description :=
       "Protobuf package. Overrides the config file; derived from `info.title` when unset" }]

/-- The switches and options in a command. -/
def options : List Explained :=
  [{ form := "-c, --config <CONFIG>"
     description := "Path to a project config YAML file"
     more := some "CLI flags override values from the config file." },
   { form := "-o, --output <OUTPUT>"
     description := "Write the `.proto` source here instead of stdout" },
   { form := "    --descriptor-out <DESCRIPTOR_OUT>"
     description := "Also write the binary `FileDescriptorSet` here" },
   { form := "    --annotations"
     description := "Attach `google.api.http` rules to every RPC" },
   { form := "    --skip-rpc"
     description := "Emit messages only, no service" },
   { form := "    --skip-deprecated"
     description := "Skip operations marked deprecated" },
   { form := "    --no-enum-prefix"
     description := "Do not prefix enum values with the enum name" },
   { form := "    --wrap-primitives"
     description := "Emit not-required scalars as `google.protobuf.*Value` wrappers" }]

/-- The questions that a command may ask. The help that is shown points to the other one. -/
def questions (otherHelp : String) : List Explained :=
  [{ form := "-h, --help", description := "Print help (" ++ otherHelp ++ ")" },
   { form := "-V, --version", description := "Print version" }]

/-- The description beside the form, in a column that leaves `width` places for the form. -/
def beside (width : Nat) (part : Explained) : String :=
  let blanks := String.ofList (List.replicate (width + 2 - part.form.length) ' ')
  "  " ++ part.form ++ blanks ++ part.description ++ "\n"

/-- The description below the form. -/
def below (part : Explained) : String :=
  "  " ++ part.form ++ "\n          " ++ part.description ++ "\n"

/-- Everything below the form. What only the details tell is a paragraph of its own. -/
def inFull (part : Explained) : String :=
  match part.more with
  | none => part.below
  | some more =>
    "  " ++ part.form ++ "\n          " ++ part.description ++ ".\n          \n          " ++
      more ++ "\n"

end Explained

/-- What help begins with. -/
def helpStart : String :=
  "Compile OpenAPI v3 documents into Protocol Buffers v3 descriptors and .proto files\n\n" ++
    "Usage: " ++ programName ++ " [OPTIONS] <FILE> [PACKAGE]\n\n"

/-- What is told about a topic. -/
def Topic.text : Topic → String
  | .version => programName ++ " 0.1.2\n"
  | .summary =>
    let options := Explained.options ++ Explained.questions "see more with '--help'"
    helpStart ++ "Arguments:\n" ++ String.join (Explained.names.map (Explained.beside 9)) ++
      "\nOptions:\n" ++ String.join (options.map Explained.below)
  | .details =>
    let options := Explained.options ++ Explained.questions "see a summary with '-h'"
    helpStart ++ "Arguments:\n" ++ "\n".intercalate (Explained.names.map Explained.inFull) ++
      "\nOptions:\n" ++ "\n".intercalate (options.map Explained.inFull)

end Protoscribe.CommandLine
