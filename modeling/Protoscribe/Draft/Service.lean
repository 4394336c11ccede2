import Protoscribe.Draft.Comment
import Protoscribe.Draft.Registry

/-!
# `Protoscribe.Draft.Service`: a service that is being written

A service takes a method when no other method has its name.
-/

set_option autoImplicit false

namespace Protoscribe

/-- A method from one message type to another. -/
structure MethodDraft where
  name : String
  inputType : String
  outputType : String
  comment : Option String := none
  deprecated : Bool := false
  http : Option HttpRule := none
  deriving Repr, DecidableEq

/-- The finished method. Options are there when at least one is set. -/
def MethodDraft.build (draft : MethodDraft) : MethodDescriptor where
  name := some draft.name
  inputType := some draft.inputType
  outputType := some draft.outputType
  options :=
    if draft.deprecated || draft.http.isSome then
      some ⟨if draft.deprecated then some true else none, draft.http⟩
    else none

/-- A service with its methods in order. The names of the methods are kept in a registry as well. -/
structure ServiceDraft where
  name : String
  comment : Option String := none
  methods : List MethodDraft := []
  takenMethods : Registry := .empty
  deriving Repr, DecidableEq

namespace ServiceDraft

/-- Is the name of a method taken? -/
def hasMethod (draft : ServiceDraft) (name : String) : Bool :=
  draft.takenMethods.contains name

/-- Appends a method, unless its name is taken. -/
def addMethod (draft : ServiceDraft) (method : MethodDraft) : ServiceDraft :=
  if draft.hasMethod method.name then draft
  else
    { draft with
      methods := draft.methods ++ [method]
      takenMethods := draft.takenMethods.take method.name }

/-- The finished service. -/
def build (draft : ServiceDraft) : ServiceDescriptor :=
  ⟨some draft.name, draft.methods.map MethodDraft.build⟩

/-- Where the comments of the service at `path` and of its methods are stored. -/
def locations (draft : ServiceDraft) (path : List Int32) : List Location :=
  Draft.located path draft.comment ++
    (draft.methods.mapIdx fun index method =>
      Draft.located (Draft.pathBelow path 2 index) method.comment).flatten

end ServiceDraft

end Protoscribe
