import Protoscribe.Draft.Enum
import Protoscribe.Draft.Field

/-!
# `Protoscribe.Draft.Message`: a message that is being written

A message takes a field when no other field has its name, and a nested type when no other nested
type has its name; what comes first stays. It keeps two registries of the names that are taken, one
for the fields and one for the nested types. A field gets the next number when it is taken. `merge`
adds the members of another message with numbers of their own here, and `moveToFront` moves named
fields to the front and numbers all of them again.

A *wrapper* exists only to hold one value. Where it would be nested in another message, its field
takes its place (`unwrap?`). A message without fields that holds one enum stands for that enum
(`carriedEnum?`).
-/

set_option autoImplicit false

namespace Protoscribe

/-- A message, its fields with their numbers and the types nested in it. The names of the fields and
those of the nested types are kept in registries as well. -/
structure MessageDraft where
  name : String
  comment : Option String := none
  numbered : List (Int32 × FieldDraft) := []
  messages : List MessageDraft := []
  enums : List EnumDraft := []
  oneofs : List String := []
  takenFields : Registry := .empty
  takenTypes : Registry := .empty
  wrapper : Bool := false
  deriving Repr, Inhabited

/-- The field of a wrapper and the nested types that the field may refer to. -/
structure Unwrapped where
  field : FieldDraft
  messages : List MessageDraft
  enums : List EnumDraft
  deriving Repr

namespace MessageDraft

/-- The number of the field at a place: 1 for the first one, and no more than the largest
number. -/
def numberAt (place : Nat) : Int32 :=
  Int32.ofNat (min (place + 1) 2147483647)

/-- The fields in order. -/
def fields (draft : MessageDraft) : List FieldDraft :=
  draft.numbered.map (·.2)

/-- The field of a name, with its number. -/
def field? (draft : MessageDraft) (name : String) : Option (Int32 × FieldDraft) :=
  draft.numbered.find? fun entry => entry.2.name == name

/-- Is the name of a field taken? -/
def hasField (draft : MessageDraft) (name : String) : Bool :=
  draft.takenFields.contains name

/-- Is the name of a nested type taken? -/
def hasNestedType (draft : MessageDraft) (name : String) : Bool :=
  draft.takenTypes.contains name

/-- Appends a field with the next number, unless its name is taken. -/
def addField (draft : MessageDraft) (field : FieldDraft) : MessageDraft :=
  if draft.hasField field.name then draft
  else
    { draft with
      numbered := draft.numbered ++ [(numberAt draft.numbered.length, field)]
      takenFields := draft.takenFields.take field.name }

/-- Nests a message, unless its name is taken. -/
def addMessage (draft : MessageDraft) (nested : MessageDraft) : MessageDraft :=
  if draft.hasNestedType nested.name then draft
  else
    { draft with
      messages := draft.messages ++ [nested]
      takenTypes := draft.takenTypes.take nested.name }

/-- Nests an enum, unless its name is taken. -/
def addEnum (draft : MessageDraft) (nested : EnumDraft) : MessageDraft :=
  if draft.hasNestedType nested.name then draft
  else
    { draft with
      enums := draft.enums ++ [nested]
      takenTypes := draft.takenTypes.take nested.name }

/-- Declares a oneof group. -/
def addOneof (draft : MessageDraft) (name : String) : MessageDraft :=
  { draft with oneofs := draft.oneofs ++ [name] }

/-- The index that the next oneof group gets. -/
def nextOneof (draft : MessageDraft) : Int32 :=
  Draft.position draft.oneofs.length

/-- Takes the first field of a name out of a list. -/
def extractField (name : String) : List FieldDraft → Option (FieldDraft × List FieldDraft)
  | [] => none
  | field :: rest =>
    if field.name = name then some (field, rest)
    else (extractField name rest).map fun found => (found.1, field :: found.2)

/-- The fields that an order names, in that order, and then the others. -/
def inOrder : List String → List FieldDraft → List FieldDraft
  | [], fields => fields
  | name :: order, fields =>
    match extractField name fields with
    | some (field, rest) => field :: inOrder order rest
    | none => inOrder order fields

/-- Fields with the numbers of their places. -/
def renumber (fields : List FieldDraft) : List (Int32 × FieldDraft) :=
  fields.mapIdx fun place field => (numberAt place, field)

/-- Moves the fields that an order names to the front. The others keep their order behind them. All
fields get new numbers. -/
def moveToFront (draft : MessageDraft) (order : List String) : MessageDraft :=
  { draft with numbered := renumber (inOrder order draft.fields) }

/-- Adds the members of another message, as far as their names are not taken. Its oneof groups go
behind the groups that are there, and its fields follow them. The fields get numbers of this
message. -/
def merge (draft other : MessageDraft) : MessageDraft :=
  -- the groups of `other` are counted on from those of `draft`
  let shifted (field : FieldDraft) : FieldDraft :=
    { field with oneof := field.oneof.map (· + draft.nextOneof) }
  let grouped := { draft with oneofs := draft.oneofs ++ other.oneofs }
  let withFields := (other.fields.map shifted).foldl addField grouped
  let withMessages := other.messages.foldl addMessage withFields
  other.enums.foldl addEnum withMessages

/-- Has the message neither fields nor nested types? -/
def isEmpty (draft : MessageDraft) : Bool :=
  draft.fields.isEmpty && draft.messages.isEmpty && draft.enums.isEmpty

/-- Is the message a wrapper that holds one field and no oneof group? -/
def isWrapper (draft : MessageDraft) : Bool :=
  draft.wrapper && draft.fields.length == 1 && draft.oneofs.isEmpty

/-- The enum that a message without fields stands for. -/
def carriedEnum? (draft : MessageDraft) : Option EnumDraft :=
  match draft.fields, draft.messages, draft.enums with
  | [], [], [only] => some only
  | _, _, _ => none

/-- The field that takes the place of a wrapper. -/
def unwrap? (draft : MessageDraft) : Option Unwrapped :=
  match draft.fields with
  | [only] =>
    if draft.isWrapper then some ⟨only, draft.messages, draft.enums⟩ else none
  | _ => none

/-- The type that stands for the message: that of its only field, an enum for the carrier of one,
and otherwise a message. -/
def type (draft : MessageDraft) : FieldType :=
  match draft.fields with
  | [only] => only.type
  | _ => if draft.carriedEnum?.isSome then .enum else .message

/-- Finishes fields with their numbers, where `groups` oneof groups are declared already. A field
with a group of its own declares the next one. -/
def buildFields : Nat → List (Int32 × FieldDraft) → List FieldDescriptor
  | _, [] => []
  | groups, (number, field) :: rest =>
    if field.isSynthetic then
      field.build number (some (Draft.position groups)) :: buildFields (groups + 1) rest
    else
      field.build number none :: buildFields groups rest

/-- The names of all oneof groups: the declared ones, and then one for each field with a group
of its own. -/
def oneofNames (declared : List String) (fields : List FieldDraft) : List String :=
  declared ++ (fields.filter (·.isSynthetic)).map fun field => "_" ++ field.name

mutual

/-- The finished message. -/
def build : MessageDraft → MessageDescriptor
  | ⟨name, _, numbered, messages, enums, oneofs, _, _, _⟩ =>
    { name := some name
      fields := buildFields oneofs.length numbered
      messages := buildAll messages
      enums := enums.map EnumDraft.build
      oneofs := (oneofNames oneofs (numbered.map (·.2))).map fun group => ⟨some group⟩ }

/-- The finished messages of a list. -/
def buildAll : List MessageDraft → List MessageDescriptor
  | [] => []
  | draft :: rest => build draft :: buildAll rest

end

mutual

/-- Where the comments of the message at `path` and of all elements in it are stored. -/
def locations (path : List Int32) : MessageDraft → List Location
  | ⟨_, comment, numbered, messages, enums, _, _, _, _⟩ =>
    Draft.located path comment ++
      ((numbered.map (·.2)).mapIdx fun index field =>
        Draft.located (Draft.pathBelow path 2 index) field.comment).flatten ++
      locationsFrom path 0 messages ++
      (enums.mapIdx fun index nested => nested.locations (Draft.pathBelow path 4 index)).flatten

/-- Where the comments of nested messages are stored, of which the first has the index `index`. -/
def locationsFrom (path : List Int32) (index : Nat) : List MessageDraft → List Location
  | [] => []
  | draft :: rest =>
    locations (Draft.pathBelow path 3 index) draft ++ locationsFrom path (index + 1) rest

end

end MessageDraft

end Protoscribe
