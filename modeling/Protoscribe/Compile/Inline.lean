import Protoscribe.Compile.Engine
import Protoscribe.Compile.FreeName

/-!
# `Protoscribe.Compile.Inline`: a compiled schema as a member of a message

`takeIn` decides what a compiled message becomes inside another one: the only field of a wrapper
takes its place, an enum becomes an enum field, and anything else is nested. A type with the
name of a component is not nested but refers to that component. When the component is of the
other kind, the type is nested under a name that is free.
-/

set_option autoImplicit false

namespace Protoscribe.Compile

/-- The type that a registered component name stands for, when a type of the file has that name.
The component is compiled if it is not yet, or taken for a message while it is being
compiled. -/
def standIn (self : Engine) (job : Job) (name : String) : M (Option ComponentType) := do
  let components := job.document.components
  let named {α : Type} (table : Table α) : Option (String × α) :=
    table.entries.find? fun entry => job.messageName entry.1 == name
  let inProgress (key : String) : M Bool := do pure ((← get).chain.contains key)
  let resolved? : Option ComponentType ←
    -- of a schema and a request body of one name, the schema counts
    match named components.schemas, named components.requestBodies with
    | some (key, node), _ => do
      -- what an unfinished component becomes is not known yet
      if ← inProgress key then pure (some (.message name)) else some <$> self.component key node
    | none, some (key, body) => do
      if ← inProgress ("requestBodies." ++ key) then pure (some (.message name))
      else some <$> self.requestBody key body
    | none, none => pure none
  -- a title may have given the component a name other than that of its key
  pure (resolved?.filter fun resolved => resolved == .message name || resolved == .enum name)

/-- A name that no component, type of the file or type nested in the parent has. -/
def freeTypeName (file : FileDraft) (parent : MessageDraft) (name suffix : String) : String :=
  let taken (candidate : String) : Bool :=
    file.isReserved candidate || file.hasType candidate || parent.hasNestedType candidate
  -- one of the candidates is free, since there is one more than names that are taken
  let bound := file.reserved.length + file.takenTypes.size + parent.takenTypes.size
  firstFree taken (fun n => name ++ suffix ++ (if n < 2 then "" else toString n)) (bound + 1) 1

/-- The name to nest an inline type under, or nothing when the component of its name stands for
it.

A component of the other kind does not stand for it. The type then gets a name of its own, so
that neither hides the other. -/
def nestingName (self : Engine) (job : Job) (parent : MessageDraft) (name : String)
    (isEnum : Bool) : M (Option String) := do
  if !(← get).file.isReserved name then return some name
  match ← standIn self job name with
  | none => pure (some name)
  | some resolved =>
    if (resolved matches .enum _) == isEnum then pure none
    else
      let suffix := if isEnum then "Enum" else "Message"
      let renamed := freeTypeName (← get).file parent name suffix
      warn (.renamedType (← place) name renamed)
      pure (some renamed)

/-- Takes a compiled message into a parent and gives back the field that refers to it.

The carrier of an enum becomes an enum field. A wrapper gives up its field and the types nested
in it, unless that field is repeated and may not be. Anything else is nested. -/
def takeIn (self : Engine) (job : Job) (parent : MessageDraft) (fieldName : String)
    (child : MessageDraft) (allowRepeated : Bool) : M (MessageDraft × FieldDraft) := do
  match child.carriedEnum? with
  | some enum =>
    match ← nestingName self job parent enum.name true with
    -- the field then refers to the enum of the file, and nothing is nested
    | none => pure (parent, .enum fieldName enum.name)
    | some name => pure (parent.addEnum { enum with name }, .enum fieldName name)
  | none =>
    let unwrapped? :=
      if allowRepeated || !child.fields.any (·.repeated) then child.unwrap? else none
    match unwrapped? with
    | some unwrapped =>
      -- the field may refer to types that were nested in the wrapper, so they come along
      let withMessages := unwrapped.messages.foldl MessageDraft.addMessage parent
      let withEnums := unwrapped.enums.foldl MessageDraft.addEnum withMessages
      pure (withEnums, unwrapped.field.rename fieldName)
    | none =>
      match ← nestingName self job parent child.name false with
      | none => pure (parent, .message fieldName child.name)
      | some name => pure (parent.addMessage { child with name }, .message fieldName name)

end Protoscribe.Compile
