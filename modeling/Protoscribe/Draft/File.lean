import Protoscribe.Draft.Link
import Protoscribe.Draft.Message
import Protoscribe.Draft.Service
import Protoscribe.Table

/-!
# `Protoscribe.Draft.File`: a schema file that is being written

Messages keep the order in which they come. Enums, services and imports are sorted by name when
the file is finished. Messages and enums share their names: what comes first stays.
-/

set_option autoImplicit false

namespace Protoscribe

/-- A message of the file: one that was drafted here, or a finished one that was handed in. -/
inductive FileMessage where
  | drafted (draft : MessageDraft)
  | finished (descriptor : MessageDescriptor)
  deriving Repr, Inhabited

namespace FileMessage

/-- The name of the message; an unset name is empty. -/
def name : FileMessage → String
  | .drafted draft => draft.name
  | .finished descriptor => descriptor.name.getD ""

/-- The finished message. -/
def build : FileMessage → MessageDescriptor
  | .drafted draft => draft.build
  | .finished descriptor => descriptor

/-- Where the comments of the message at `path` are stored. A finished message has none. -/
def locations (path : List Int32) : FileMessage → List Location
  | .drafted draft => draft.locations path
  | .finished _ => []

end FileMessage

/-- A file with everything that is declared in it. The names of its messages and enums are kept in
a registry as well. `reserved` are the names that are kept for the components of the description. -/
structure FileDraft where
  name : String
  package : String
  packageComment : Option String := none
  messages : List FileMessage := []
  enums : List EnumDraft := []
  takenTypes : Registry := .empty
  services : List ServiceDraft := []
  dependencies : Table Unit := default
  reserved : List String := []
  deriving Inhabited

namespace FileDraft

/-- Is a message or an enum of the name declared? -/
def hasType (draft : FileDraft) (name : String) : Bool :=
  draft.takenTypes.contains name

/-- Is the name kept for a component? -/
def isReserved (draft : FileDraft) (name : String) : Bool :=
  draft.reserved.contains name

/-- Declares a message, unless its name is taken. -/
def addMessage (draft : FileDraft) (message : MessageDraft) : FileDraft :=
  if draft.hasType message.name then draft
  else
    { draft with
      messages := draft.messages ++ [.drafted message]
      takenTypes := draft.takenTypes.take message.name }

/-- Declares a finished message, unless its name is taken. -/
def addFinished (draft : FileDraft) (message : MessageDescriptor) : FileDraft :=
  if draft.hasType (message.name.getD "") then draft
  else
    { draft with
      messages := draft.messages ++ [.finished message]
      takenTypes := draft.takenTypes.take (message.name.getD "") }

/-- Declares an enum, unless its name is taken. -/
def addEnum (draft : FileDraft) (enum : EnumDraft) : FileDraft :=
  if draft.hasType enum.name then draft
  else
    { draft with
      enums := draft.enums ++ [enum]
      takenTypes := draft.takenTypes.take enum.name }

/-- Is there a service of the name? -/
def hasService (draft : FileDraft) (name : String) : Bool :=
  draft.services.any fun service => service.name == name

/-- Adds a service, unless its name is taken. -/
def addService (draft : FileDraft) (service : ServiceDraft) : FileDraft :=
  if draft.hasService service.name then draft
  else { draft with services := draft.services ++ [service] }

/-- Imports another file. -/
def addDependency (draft : FileDraft) (name : String) : FileDraft :=
  { draft with dependencies := draft.dependencies.insert name () }

/-- Keeps a name for a component. -/
def reserve (draft : FileDraft) (name : String) : FileDraft :=
  if draft.isReserved name then draft else { draft with reserved := draft.reserved ++ [name] }

/-- Puts an item in front of the first one whose name is not smaller. -/
def insertByName {α : Type} (name : α → String) (item : α) : List α → List α
  | [] => [item]
  | head :: rest =>
    if name head < name item then head :: insertByName name item rest else item :: head :: rest

/-- Sorts items by name. Items of one name keep their order. -/
def sortByName {α : Type} (name : α → String) (items : List α) : List α :=
  items.foldr (insertByName name) []

/-- The enums in the order of the finished file. -/
def sortedEnums (draft : FileDraft) : List EnumDraft :=
  sortByName (·.name) draft.enums

/-- The services in the order of the finished file. -/
def sortedServices (draft : FileDraft) : List ServiceDraft :=
  sortByName (·.name) draft.services

/-- Where the comments of all elements are stored. -/
def locations (draft : FileDraft) : List Location :=
  Draft.located [2] draft.packageComment ++
    (draft.messages.mapIdx fun index message =>
      message.locations (Draft.pathBelow [] 4 index)).flatten ++
    (draft.sortedEnums.mapIdx fun index enum =>
      enum.locations (Draft.pathBelow [] 5 index)).flatten ++
    (draft.sortedServices.mapIdx fun index service =>
      service.locations (Draft.pathBelow [] 6 index)).flatten

/-- The finished file before its type names are made absolute. -/
def assemble (draft : FileDraft) : FileDescriptor where
  name := some draft.name
  package := if draft.package.isEmpty then none else some draft.package
  dependencies := draft.dependencies.keys
  messages := draft.messages.map FileMessage.build
  enums := draft.sortedEnums.map EnumDraft.build
  services := draft.sortedServices.map ServiceDraft.build
  locations := if draft.locations.isEmpty then none else some draft.locations
  syntaxName := some "proto3"

/-- The finished file. -/
def build (draft : FileDraft) : FileDescriptor :=
  Link.link draft.assemble

end FileDraft

end Protoscribe
