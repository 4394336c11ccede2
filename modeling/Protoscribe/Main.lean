import Protoscribe.CommandLine.Run

/-!
# `Protoscribe.Main`: the program

The program runs a command on the files of the system and prints how it ends.
-/

set_option autoImplicit false

open Protoscribe.CommandLine

instance : Files IO where
  read path := do
    try
      pure (some (← IO.FS.readFile path))
    catch _ => pure none
  write path content := do
    try
      IO.FS.writeBinFile path ⟨content.toArray⟩
      pure true
    catch _ => pure false

/-- Runs the command that the words make. -/
def main (words : List String) : IO UInt32 := do
  let outcome ← run words
  for line in outcome.log do
    IO.eprintln line
  IO.print outcome.output
  pure outcome.code
