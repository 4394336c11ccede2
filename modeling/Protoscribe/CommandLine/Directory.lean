import Protoscribe.CommandLine.Run
import Protoscribe.Table

/-!
# `Protoscribe.CommandLine.Directory`: a directory in memory

A directory holds files by their paths. A path may pass through `.` and `..`; one that leads out
of the directory names nothing. A file can be written where the directory above it is there and
no directory has its path. There is a directory wherever a file stands below it.
-/

set_option autoImplicit false

namespace Protoscribe.CommandLine

/-- The contents of files by path. Paths are relative and have no superfluous parts. -/
structure Directory where
  files : Table Wire.Bytes := {}

namespace Directory

/-- The parts of a path. -/
abbrev Parts := List (List Char)

/-- Goes along a path from the directory with the parts `inside`, last one first. -/
def walk (inside : Parts) : Parts → Option Parts
  | [] => some inside
  | part :: rest =>
    if part = [] || part = ['.'] then walk inside rest
    else if part = ['.', '.'] then
      match inside with
      | [] => none
      | _ :: outside => walk outside rest
    else walk (part :: inside) rest

/-- The parts of the file at a path, last one first. A path that ends in a slash is no file. -/
def locate? (path : String) : Option Parts :=
  let parts := path.toList.splitOn '/'
  if path.toList.head? = some '/' || parts.getLast? = some [] then none else walk [] parts

/-- The path with some parts, last one first. -/
def join (parts : Parts) : String :=
  String.ofList (['/'].intercalate parts.reverse)

/-- Is there a directory with some parts? -/
def hasDirectory (directory : Directory) (parts : Parts) : Bool :=
  parts.isEmpty ||
    directory.files.keys.any fun key =>
      (parts.reverse.flatMap fun part => part ++ ['/']).isPrefixOf key.toList

/-- The bytes of the file at a path. -/
def find? (directory : Directory) (path : String) : Option Wire.Bytes :=
  (locate? path).bind fun parts => directory.files.find? (join parts)

/-- The directory with a file at a path. -/
def write? (directory : Directory) (path : String) (content : Wire.Bytes) : Option Directory :=
  match locate? path with
  | none | some [] => none
  | some (name :: above) =>
    if directory.hasDirectory above && !directory.hasDirectory (name :: above) then
      some ⟨directory.files.insert (join (name :: above)) content⟩
    else none

end Directory

/-- The text that bytes hold in UTF-8. -/
def textOfBytes? (bytes : Wire.Bytes) : Option String :=
  String.fromUTF8? (ByteArray.mk bytes.toArray)

instance : Files (StateM Directory) where
  read path := do pure (((← get).find? path).bind textOfBytes?)
  write path content := do
    match (← get).write? path content with
    | some directory =>
      set directory
      pure true
    | none => pure false

end Protoscribe.CommandLine
