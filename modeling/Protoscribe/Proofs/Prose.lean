import Protoscribe.Proofs.CommentLines
import Protoscribe.Proofs.Compile.Mirrored
import Protoscribe.Proofs.Compile.Passes

/-!
# `Protoscribe.Proofs.Prose`: prose stays in comments

The prose of a description, its summaries, descriptions and version, is free text of whoever wrote
the description. Both passes over a description without prose mirror the passes over the description
itself (`compileDocument_mirrors`), so the file that is compiled is the same but for its source
information (`compile_undescribed`). As no comment leaves its line when the file is printed, the
prose has no part in the code of a schema file (`prose_stays_in_comments`).
-/

set_option autoImplicit false

namespace Protoscribe

namespace Compile

open OpenApi (Content Operation Parameter PathItem Referable RequestBody Response SchemaNode Verb
  undescribedNode)

section

variable {job : Job} {engine other : Engine}

/-! ### Parameters and payloads -/

/-- The field of a parameter is the same. The description of the parameter is its comment. -/
theorem addParameterField_mirrors (h : engine.Mirrors other) (request : MessageDraft)
    (parameter : Parameter) :
    Mirrors MessageDraft.uncommented (engine.addParameterField job request parameter)
      (other.addParameterField job.undescribed request.uncommented parameter.undescribed) := by
  refine .ite (fun _ => .pure rfl) fun _ => ?_
  rw [Parameter.undescribed]
  cases parameter.schema with
  | none => exact .bind .place fun _ => .bind (.warn _) fun _ => .pure rfl
  | some node => exact (addMember_mirrors h request _ node _ _).within _

/-- A parameter overrides another one by name and location, and these are no prose. -/
theorem isOverridden_undescribed (operation : Operation) (parameter : Parameter) :
    isOverridden operation.undescribed parameter.undescribed =
      isOverridden operation parameter := by
  rw [isOverridden, isOverridden, Operation.undescribed, List.any_map]
  congr 1
  funext node
  cases node <;> rfl

/-- A parameter is found behind the same references. -/
theorem followParameter_mirrors (node : Referable Parameter) :
    Mirrors Parameter.undescribed (followParameter job node)
      (followParameter job.undescribed (node.map Parameter.undescribed)) :=
  follow_mirrors .parameters _ node

/-- The parameters of an operation become the same fields. -/
theorem addParameters_mirrors (h : engine.Mirrors other) (item : PathItem)
    (operation : Operation) (request : MessageDraft) :
    Mirrors MessageDraft.uncommented (engine.addParameters job item operation request)
      (other.addParameters job.undescribed item.undescribed operation.undescribed
        request.uncommented) := by
  refine .bind (.foldlM (fun request node => ?_) item.parameters request) fun shared =>
    .foldlM (fun request node => ?_) operation.parameters shared
  · refine .bind (followParameter_mirrors node) fun parameter => ?_
    rw [isOverridden_undescribed]
    exact .ite (fun _ => .pure rfl) fun _ => addParameterField_mirrors h request parameter
  · exact .bind (followParameter_mirrors node) fun parameter =>
      addParameterField_mirrors h request parameter

/-- A body becomes the same field. -/
theorem addPayload_mirrors (h : engine.Mirrors other) (message : MessageDraft) (field : String)
    (payload : SchemaNode) (required : Bool) :
    Mirrors MessageDraft.uncommented (engine.addPayload job message field payload required)
      (other.addPayload job.undescribed message.uncommented field (undescribedNode payload)
        required) := by
  cases payload with
  | ref reference => exact addMember_mirrors h message field (.ref reference) required none
  | inline schema =>
    rw [undescribedNode]
    unfold Engine.addPayload
    dsimp only
    rw [schema.isObject_undescribed, message.name_uncommented]
    refine .ite (fun _ => .bind (h.schema message.name schema) fun compiled => ?_) fun _ =>
      addMember_mirrors h message field (.inline schema) required none
    cases compiled with
    | none => exact .pure rfl
    | some compiled =>
      -- the comment of the payload is taken over before or after the prose is taken out
      have hdescribed :
          { message.uncommented with
              name := message.name
              comment := message.uncommented.comment <|> compiled.uncommented.comment } =
            MessageDraft.uncommented
              { message with comment := message.comment <|> compiled.comment } := by
        rw [message.comment_uncommented, compiled.comment_uncommented,
          MessageDraft.uncommented_eq, MessageDraft.uncommented_eq]
        rfl
      exact .pure ((congrArg (MessageDraft.merge · _) hdescribed).trans
        (MessageDraft.merge_uncommented _ compiled))

/-- The same request body is found. -/
theorem bodySchema_mirrors (operation : Operation) :
    Mirrors (Option.map fun body => (undescribedNode body.1, body.2)) (bodySchema job operation)
      (bodySchema job.undescribed operation.undescribed) := by
  unfold bodySchema
  rw [Operation.undescribed]
  cases operation.requestBody with
  | none => exact .pure rfl
  | some node =>
    refine .bind (follow_mirrors .requestBodies _ node) fun body => .pure ?_
    have hcontent : body.undescribed.content.jsonSchema? =
        body.content.jsonSchema?.map undescribedNode := body.content.jsonSchema?_undescribed
    rw [hcontent, Option.map_map, Option.map_map]
    rfl

/-- The same response is found. -/
theorem successResponse_mirrors (operation : Operation) :
    Mirrors (Option.map Response.undescribed) (successResponse job operation)
      (successResponse job.undescribed operation.undescribed) := by
  unfold successResponse
  rw [operation.response?_undescribed]
  cases operation.response? "200" with
  | none => exact .pure rfl
  | some node => exact (follow_mirrors .responses _ node).map fun _ => rfl

/-- A response message is the same. -/
theorem compileResponse_mirrors (h : engine.Mirrors other) (name : String)
    (operation : Operation) :
    Mirrors MessageDraft.uncommented (engine.compileResponse job name operation)
      (other.compileResponse job.undescribed name operation.undescribed) := by
  refine .bind (successResponse_mirrors operation) fun response => ?_
  cases response with
  | none => exact .pure rfl
  | some response =>
    have hcontent : response.undescribed.content.jsonSchema? =
        response.content.jsonSchema?.map undescribedNode :=
      response.content.jsonSchema?_undescribed
    dsimp only [Option.map_some]
    rw [hcontent]
    cases response.content.jsonSchema? with
    | none => exact .pure rfl
    | some node =>
      exact (addPayload_mirrors h { name, comment := response.description } "result" node
        true).within _

/-- The messages of a method are the same. -/
theorem payloads_mirrors (h : engine.Mirrors other) (name : String) (item : PathItem)
    (operation : Operation) :
    Mirrors (fun found => (found.1, found.2.1.uncommented, found.2.2.uncommented))
      (engine.payloads job name item operation)
      (other.payloads job.undescribed name item.undescribed operation.undescribed) := by
  refine .bind (addParameters_mirrors h item operation { name := name ++ "Request" })
    fun parameters => .bind (bodySchema_mirrors operation) fun body => ?_
  cases body with
  | none =>
    exact .bind (.pure rfl) fun _ => .bind (compileResponse_mirrors h _ operation) fun _ =>
      .pure rfl
  | some body =>
    exact .bind ((addPayload_mirrors h parameters _ body.1 _).within _) fun _ =>
      .bind (compileResponse_mirrors h _ operation) fun _ => .pure rfl

/-! ### Methods -/

/-- The payload is declared under the same name, or it is the empty message on both sides. -/
theorem payloadType_mirrors (message : MessageDraft) :
    Mirrors id (payloadType message) (payloadType message.uncommented) := by
  have hdeclare : Mirrors id
      (do updateFile (·.addMessage message); pure message.name)
      (do updateFile (·.addMessage message.uncommented); pure message.name) :=
    .bind (.updateFile fun file => file.addMessage_uncommented message) fun _ => .pure rfl
  unfold payloadType
  rw [message.isEmpty_uncommented, message.name_uncommented]
  refine .ite (fun _ => ?_) fun _ => .bind .get fun s => ?_
  · exact .bind (.updateFile fun _ => rfl) fun _ => .pure rfl
  · rw [State.uncommented, FileDraft.hasType_uncommented]
    exact .ite (fun _ => .bind (.warn _) fun _ => hdeclare) fun _ => hdeclare

/-- A method is the same, with its HTTP rule and its types. -/
theorem finishMethod_mirrors (name path : String) (verb : Verb) (item : PathItem)
    (operation : Operation) (payloads : Bool × MessageDraft × MessageDraft) :
    Mirrors MethodDraft.uncommented
      (finishMethod job name path verb item operation payloads)
      (finishMethod job.undescribed name path verb item.undescribed operation.undescribed
        (payloads.1, payloads.2.1.uncommented, payloads.2.2.uncommented)) := by
  refine .bind (payloadType_mirrors _) fun inputType =>
    .bind (payloadType_mirrors _) fun outputType => ?_
  exact .ite (fun _ => .bind (.updateFile fun _ => rfl) fun _ => .pure rfl) fun _ => .pure rfl

/-- The same operations are skipped, and the others become the same methods. -/
theorem addOperation_mirrors (h : engine.Mirrors other) (path : String) (item : PathItem)
    (service : ServiceDraft) (entry : Verb × Operation) :
    Mirrors ServiceDraft.uncommented (engine.addOperation job path item service entry)
      (other.addOperation job.undescribed path item.undescribed service.uncommented
        (entry.1, entry.2.undescribed)) := by
  obtain ⟨verb, operation⟩ := entry
  refine .ite (fun _ => .pure rfl) fun _ => ?_
  dsimp only
  rw [service.hasMethod_uncommented]
  refine .ite (fun _ => .bind (.warn _) fun _ => .pure rfl) fun _ => ?_
  exact .bind (((payloads_mirrors h _ item operation).bind fun payloads =>
      finishMethod_mirrors _ path verb item operation payloads).under _) fun method =>
    .pure (service.addMethod_uncommented method)

/-- The service is the same. -/
theorem declareService_mirrors (h : engine.Mirrors other) :
    Mirrors id (engine.declareService job) (other.declareService job.undescribed) := by
  have hpaths (service : ServiceDraft) : Mirrors ServiceDraft.uncommented
      (job.document.paths.entries.foldlM
        (fun service entry =>
          entry.2.operations.foldlM (engine.addOperation job entry.1 entry.2) service) service)
      ((job.document.paths.map PathItem.undescribed).entries.foldlM
        (fun service entry =>
          entry.2.operations.foldlM (other.addOperation job.undescribed entry.1 entry.2) service)
        service.uncommented) := by
    refine .foldlM (fun service entry => ?_) job.document.paths.entries service
    dsimp only
    rw [entry.2.operations_undescribed]
    exact .foldlM (addOperation_mirrors h entry.1 entry.2) entry.2.operations service
  refine .bind .get fun s => .bind (hpaths _) fun service => ?_
  have hmethods : service.uncommented.methods.isEmpty = service.methods.isEmpty :=
    List.isEmpty_map
  rw [hmethods]
  exact .ite (fun _ => .updateFile fun file => file.addService_uncommented service) fun _ =>
    .pure rfl

/-- The components become the same types. -/
theorem declareComponents_mirrors (h : engine.Mirrors other) :
    Mirrors id (engine.declareComponents job) (other.declareComponents job.undescribed) := by
  have hkeep : Mirrors id (keepNames job) (keepNames job.undescribed) := by
    unfold keepNames
    have hschemas : job.undescribed.document.components.schemas.keys =
        job.document.components.schemas.keys := Table.keys_map _ _
    have hbodies : job.undescribed.document.components.requestBodies.keys =
        job.document.components.requestBodies.keys := Table.keys_map _ _
    dsimp only
    rw [hschemas, hbodies]
    exact .updateFile fun file => List.foldl_hom _ FileDraft.reserve_uncommented
  refine .bind hkeep fun _ => .bind (.forM (fun entry => ?_) _) fun _ =>
    .forM (fun entry => ?_) _
  · exact .bind (h.component entry.1 entry.2) fun _ => .pure rfl
  · exact .bind (h.requestBody entry.1 entry.2) fun _ => .pure rfl

/-- The whole run is mirrored. -/
theorem compileDocument_mirrors (job : Job) :
    Mirrors id (compileDocument job) (compileDocument job.undescribed) := by
  rw [← Engine.compileDocument_eq, ← Engine.compileDocument_eq]
  refine .bind (declareComponents_mirrors job.engine_mirrors) fun _ => ?_
  exact .ite (fun _ => declareService_mirrors job.engine_mirrors) fun _ => .pure rfl

end

/-! ### Files -/

/-- Both runs start with the same file. The comment of the package comes from the prose. -/
theorem startFile_undescribed (document : OpenApi.Document) (config : Config) :
    startFile document.undescribed config = (startFile document config).uncommented := by
  have hpackage : packageFor document.undescribed config = packageFor document config := rfl
  unfold startFile
  dsimp only
  rw [hpackage, ← List.foldl_hom FileDraft.uncommented FileDraft.addFinished_uncommented,
    ← List.foldl_hom FileDraft.uncommented FileDraft.addDependency_uncommented]
  rfl

end Compile

open Compile

/-- Without its prose, a description is compiled to the same file but for the source information, or
not compiled for the same reason. -/
theorem compile_undescribed (document : OpenApi.Document) (config : Config) :
    compile document.undescribed config = (compile document config).map fun output =>
      { output with file := { output.file with locations := none } } := by
  have hmirror := compileDocument_mirrors ⟨document, config⟩ { file := startFile document config }
  have hstart : State.uncommented { file := startFile document config } =
      { file := startFile document.undescribed config } := by
    rw [startFile_undescribed]
    rfl
  have hjob : (⟨document.undescribed, config⟩ : Job) = Job.undescribed ⟨document, config⟩ := rfl
  rw [hstart] at hmirror
  unfold compile
  -- both files are finished from drafts that differ in comments only
  rw [hjob, hmirror]
  cases compileDocument ⟨document, config⟩ { file := startFile document config } with
  | ok value s =>
    show Except.ok (Output.mk s.file.uncommented.build s.warnings) = _
    rw [s.file.build_uncommented]
    rfl
  | error e s => rfl

/-- Comments do not change code, and prose is in comments only. Without its comment lines, the
source of a file is the same whatever its source information says, and the source that a description
is compiled to is the same without the prose of the description. -/
theorem prose_stays_in_comments :
    (∀ (descriptor : FileDescriptor) (locations : Option (List Location)),
      Printer.withoutComments (Printer.source { descriptor with locations }) =
        Printer.withoutComments (Printer.source { descriptor with locations := none })) ∧
      ∀ (document : OpenApi.Document) (config : Config),
        (compile document config).map
            (fun output => Printer.withoutComments (Printer.source output.file)) =
          (compile document.undescribed config).map fun output =>
            Printer.withoutComments (Printer.source output.file) := by
  refine ⟨Printer.withoutComments_source, fun document config => ?_⟩
  rw [compile_undescribed]
  cases compile document config with
  | error e => rfl
  | ok output =>
    exact congrArg Except.ok (Printer.withoutComments_source output.file output.file.locations)

end Protoscribe
