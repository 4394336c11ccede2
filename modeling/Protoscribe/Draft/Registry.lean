import Protoscribe.Table

/-!
# `Protoscribe.Draft.Registry`: names that are taken

Whatever has members with names keeps a registry of the names beside the members. A name is looked
up in the registry before a member is taken, and it is put in when the member is.
-/

set_option autoImplicit false

namespace Protoscribe

/-- The names that are taken in one scope. -/
abbrev Registry := Table Unit

/-- No name is taken. -/
def Registry.empty : Registry := {}

/-- Takes a name. -/
def Registry.take (registry : Registry) (name : String) : Registry :=
  registry.insert name ()

end Protoscribe
