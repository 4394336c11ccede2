import Protoscribe.Compile.FreeName
import Protoscribe.Compile.State

/-!
# `Protoscribe.Compile.Literal`: from the literals of a schema to an enum

An enum starts with a value for "unspecified". Every text, truth value and number among the
literals then gets one value of its own; other literals get none. The enum travels inside a
message of its name, so that whoever takes the message in decides where the enum is declared.
-/

set_option autoImplicit false

namespace Protoscribe.Compile

open OpenApi (Schema)

/-- The text of a literal. Numbers below zero have a word in place of the sign. -/
def literalText? : Value → Option String
  | .text value => some value
  | .bool value => some (if value then "true" else "false")
  | number =>
    number.numberText?.map fun text =>
      match text.toList with
      | '-' :: magnitude => "neg_" ++ String.ofList magnitude
      | _ => text

/-- The name of the value for a literal, in an enum whose values start with `start`. -/
def valueName (job : Job) (start literal : String) : String :=
  let name := Identifier.enumValueName literal
  -- a literal may have no letters and no digits
  let name := if name.isEmpty then "EMPTY" else name
  if job.config.prefixEnumValues then
    -- an underscore that guards a first digit is not needed behind the start
    start ++ "_" ++ String.ofList (name.toList.dropWhile (· = '_'))
  else name

/-- Adds the value for a literal. A value whose name is taken gets the smallest free number. -/
def addLiteral (job : Job) (start : String) (draft : EnumDraft) (literal : Value) : M EnumDraft :=
  match literalText? literal with
  | none => do
    warn (.nonScalarLiteral (← place))
    pure draft
  | some text => do
    let name := valueName job start text
    if draft.hasValue name then
      let renamed :=
        -- one of the candidates is free, since there are more of them than names that are taken
        firstFree draft.hasValue (fun n => name ++ "_" ++ toString n) draft.takenValues.size 2
      warn (.renamedValue (← place) name renamed)
      pure (draft.addValue renamed)
    else pure (draft.addValue name)

/-- The carrier of an enum with the given literals. -/
def enumCarrier (job : Job) (name : String) (schema : Schema) (literals : List Value) :
    M MessageDraft := do
  let start := Identifier.enumValueName name
  let empty : EnumDraft := { name, comment := schema.description }
  let draft ← literals.foldlM (addLiteral job start) (empty.addValue (start ++ "_UNSPECIFIED"))
  pure (({ name } : MessageDraft).addEnum draft)

end Protoscribe.Compile
