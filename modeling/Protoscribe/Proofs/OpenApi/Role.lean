import Protoscribe.Proofs.Json.Written

/-!
# `Protoscribe.Proofs.OpenApi.Role`: what the parts of a description are read as

A description is read from the outside in, and what an object or a list stands for follows from its
place: it is a record with members of its own, sorted entries, entries in the order of the text, a
list, a plain value, or nothing that anybody looks at. `Role` has a case for each of these, and
`Role.member` and `Role.element` lead from a part to those inside it.

`Moved` says what may be done to a text without changing what it means: the members of one object
are put into another order. Entries in the order of the text and plain values keep theirs.
-/

set_option autoImplicit false

namespace Protoscribe.OpenApi

open Json (Written writtenName)

/-- What a part of a description is read as. -/
inductive Role where
  | document
  | info
  | components
  | pathItem
  | operation
  | parameter
  | requestBody
  | response
  | mediaType
  | schema
  /-- Entries sorted by key. -/
  | map (entry : Role)
  /-- Entries in the order of the text. -/
  | ordered (entry : Role)
  | list (element : Role)
  /-- A text, a truth value or a free value. -/
  | plain
  /-- Nothing: the part is passed over. -/
  | ignored
  deriving Repr, DecidableEq

namespace Role

/-- The members that a record is read from, in the order in which a list gives their values. -/
def members : Role → List (String × Role)
  | .document =>
    [("openapi", .plain), ("info", .info), ("paths", .map .pathItem), ("components", .components)]
  | .info => [("title", .plain), ("description", .plain), ("version", .plain)]
  | .components =>
    [("schemas", .map .schema), ("parameters", .map .parameter),
     ("requestBodies", .map .requestBody), ("responses", .map .response)]
  | .pathItem =>
    [("summary", .plain), ("description", .plain), ("parameters", .list .parameter),
     ("get", .operation), ("put", .operation), ("post", .operation), ("delete", .operation),
     ("options", .operation), ("head", .operation), ("patch", .operation), ("trace", .operation)]
  | .operation =>
    [("operationId", .plain), ("summary", .plain), ("description", .plain), ("deprecated", .plain),
     ("parameters", .list .parameter), ("requestBody", .requestBody),
     ("responses", .ordered .response)]
  | .parameter =>
    [("name", .plain), ("in", .plain), ("description", .plain), ("required", .plain),
     ("deprecated", .plain), ("schema", .schema)]
  | .requestBody => [("description", .plain), ("content", .map .mediaType), ("required", .plain)]
  | .response => [("description", .plain), ("content", .map .mediaType)]
  | .mediaType => [("schema", .schema)]
  | .schema =>
    [("title", .plain), ("description", .plain), ("type", .plain), ("format", .plain),
     ("enum", .plain), ("oneOf", .list .schema), ("anyOf", .list .schema),
     ("allOf", .list .schema), ("items", .schema), ("properties", .ordered .schema),
     ("required", .plain), ("additionalProperties", .schema), ("deprecated", .plain),
     ("nullable", .plain), ("x-propertyOrder", .plain)]
  | _ => []

/-- The names of the members of a record. -/
def names (role : Role) : List String :=
  role.members.map (·.1)

/-- What a member of an object is read as. Members that a record does not know are passed over. -/
def member : Role → Option String → Role
  | .map entry, _ => entry
  | .ordered entry, _ => entry
  | .list _, _ => .plain
  | .plain, _ => .plain
  | role, name => (name.bind fun name => role.members.lookup name).getD .ignored

/-- What an element of a list is read as. A list may stand for a record. -/
def element : Role → Nat → Role
  | .list element, _ => element
  | .map _, _ => .plain
  | .ordered _, _ => .plain
  | .plain, _ => .plain
  | role, index => (role.members[index]?.map (·.2)).getD .ignored

/-- May the members of an object stand in any order? -/
def isUnordered : Role → Bool
  | .ordered _ | .list _ | .plain => false
  | _ => true

end Role

/-- The members of one object in a text are put into another order. The object, which may be any
part of the text, is read as a record or as sorted entries, or passed over, and no two of its
members have the same name. -/
inductive Moved : Role → Written → Written → Prop
  | members {role : Role} {before behind : List Char} {members moved : List (List Char × Written)}
      (hrole : role.isUnordered = true)
      (hdistinct : (members.map fun member => writtenName member.1).Nodup)
      (hperm : members.Perm moved) :
      Moved role (.object before members behind) (.object before moved behind)
  | member {role : Role} {before behind name : List Char} {front back : List (List Char × Written)}
      {value moved : Written} (h : Moved (role.member (writtenName name)) value moved) :
      Moved role (.object before (front ++ (name, value) :: back) behind)
        (.object before (front ++ (name, moved) :: back) behind)
  | element {role : Role} {before behind : List Char} {front back : List Written}
      {value moved : Written} (h : Moved (role.element front.length) value moved) :
      Moved role (.list before (front ++ value :: back) behind)
        (.list before (front ++ moved :: back) behind)

end Protoscribe.OpenApi
