/-!
# `Protoscribe.Descriptor.HttpRule`: the REST mapping of a method

A rule names a verb and a path template. Five verbs have a pattern of their own, any other one
is a custom pattern that keeps the verb as its kind.
-/

set_option autoImplicit false

namespace Protoscribe

/-- The verb and the path template of a rule. -/
inductive HttpPattern where
  | get (path : String)
  | put (path : String)
  | post (path : String)
  | delete (path : String)
  | patch (path : String)
  | custom (kind path : String)
  deriving Repr, DecidableEq

/-- How a method maps to a request: the pattern, and `*` as the body when the request has one. -/
structure HttpRule where
  pattern : Option HttpPattern := none
  body : String := ""
  deriving Repr, DecidableEq

namespace HttpPattern

/-- The verb in lower case, or the kind of a custom pattern as it stands. -/
def verb : HttpPattern → String
  | .get _ => "get"
  | .put _ => "put"
  | .post _ => "post"
  | .delete _ => "delete"
  | .patch _ => "patch"
  | .custom kind _ => kind

/-- The path template. -/
def path : HttpPattern → String
  | .get path | .put path | .post path | .delete path | .patch path | .custom _ path => path

end HttpPattern

/-- ASCII lower case, character by character. -/
def Text.lower (text : String) : String :=
  String.ofList (text.toList.map Char.toLower)

/-- ASCII upper case, character by character. -/
def Text.upper (text : String) : String :=
  String.ofList (text.toList.map Char.toUpper)

/-- The rule of an operation. The verb may be in any letter case. -/
def HttpRule.ofOperation (verb path body : String) : HttpRule :=
  let pattern : HttpPattern :=
    match Text.lower verb with
    | "get" => .get path
    | "put" => .put path
    | "post" => .post path
    | "delete" => .delete path
    | "patch" => .patch path
    | _ => .custom (Text.upper verb) path
  ⟨some pattern, body⟩

end Protoscribe
