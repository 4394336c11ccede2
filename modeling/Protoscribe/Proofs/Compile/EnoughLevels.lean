import Protoscribe.Proofs.Compile.Passes
import Protoscribe.Proofs.Termination

/-!
# `Protoscribe.Proofs.Compile.EnoughLevels`: what levels beyond the needed ones change

`Engine.Below` orders engines by their levels of calls. Both passes over a description keep that
order, function by function (`compileDocument_below`). Since a job does not run out of its own
levels, nothing changes when it is given more of them (`compileDocument_ofLevels`). So a run can be
compared with the run of another job over one engine that has levels enough for both.
-/

set_option autoImplicit false

namespace Protoscribe.Compile

open OpenApi (Operation Parameter PathItem SchemaNode Verb)

section

variable {job : Job} {engine other : Engine}

/-- The field of a parameter needs the levels of its schema. -/
theorem addParameterField_below (h : engine.Below other) (request : MessageDraft)
    (parameter : Parameter) :
    Below (engine.addParameterField job request parameter)
      (other.addParameterField job request parameter) := by
  unfold Engine.addParameterField
  split
  · exact .refl _
  · split
    · exact .refl _
    · exact (addMember_below h _ _ _ _ _).within _

/-- The parameters of an operation need the levels of their schemas. -/
theorem addParameters_below (h : engine.Below other) (item : PathItem) (operation : Operation)
    (request : MessageDraft) :
    Below (engine.addParameters job item operation request)
      (other.addParameters job item operation request) := by
  refine .bind (.foldlM (fun request node => .bind (.refl _) fun parameter => ?_) _ _) fun _ =>
    .foldlM (fun request node => .bind (.refl _) fun _ => addParameterField_below h _ _) _ _
  split
  · exact .refl _
  · exact addParameterField_below h _ _

/-- The field of a body needs the levels of its schema. -/
theorem addPayload_below (h : engine.Below other) (message : MessageDraft) (field : String)
    (payload : SchemaNode) (required : Bool) :
    Below (engine.addPayload job message field payload required)
      (other.addPayload job message field payload required) := by
  cases payload with
  | ref reference => exact addMember_below h message field (.ref reference) required none
  | inline schema =>
    show Below (if schema.isObject then _ else _) (if schema.isObject then _ else _)
    split
    · exact .bind (h.schema _ _) fun _ => .refl _
    · exact addMember_below h _ _ _ _ _

/-- A response message needs the levels of its schema. -/
theorem compileResponse_below (h : engine.Below other) (name : String) (operation : Operation) :
    Below (engine.compileResponse job name operation)
      (other.compileResponse job name operation) := by
  refine .bind (.refl _) fun response => ?_
  split
  · exact .refl _
  · dsimp only
    split
    · exact .refl _
    · exact (addPayload_below h _ _ _ _).within _

/-- The messages of a method need the levels of both. -/
theorem payloads_below (h : engine.Below other) (name : String) (item : PathItem)
    (operation : Operation) :
    Below (engine.payloads job name item operation) (other.payloads job name item operation) := by
  refine .bind (addParameters_below h _ _ _) fun parameters => .bind (.refl _) fun body => ?_
  -- the response comes last, with a body and without one
  have hresponse : ∀ request : MessageDraft, Below
      (do
        let response ← engine.compileResponse job (name ++ "Response") operation
        pure (body.isSome, request, response))
      (do
        let response ← other.compileResponse job (name ++ "Response") operation
        pure (body.isSome, request, response)) := fun _ =>
    .bind (compileResponse_below h _ _) fun _ => .refl _
  cases body with
  | none => exact hresponse _
  | some body => exact .bind ((addPayload_below h _ _ _ _).within _) fun _ => hresponse _

/-- An operation needs the levels of its messages. -/
theorem addOperation_below (h : engine.Below other) (path : String) (item : PathItem)
    (service : ServiceDraft) (entry : Verb × Operation) :
    Below (engine.addOperation job path item service entry)
      (other.addOperation job path item service entry) := by
  obtain ⟨verb, operation⟩ := entry
  have hmethod : Below (engine.payloads job (job.methodName path verb) item operation >>=
      finishMethod job (job.methodName path verb) path verb item operation)
      (other.payloads job (job.methodName path verb) item operation >>=
        finishMethod job (job.methodName path verb) path verb item operation) :=
    .bind (payloads_below h _ _ _) fun _ => .refl _
  unfold Engine.addOperation
  dsimp only
  split
  · exact .refl _
  · split
    · exact .refl _
    · exact .bind (hmethod.under _) fun _ => .refl _

/-- The service needs the levels of its operations. -/
theorem declareService_below (h : engine.Below other) :
    Below (engine.declareService job) (other.declareService job) :=
  .bind (.refl _) fun _ =>
    .bind (.foldlM (fun _ _ => .foldlM (fun _ _ => addOperation_below h _ _ _ _) _ _) _ _)
      fun _ => .refl _

/-- The components need the levels of all of them. -/
theorem declareComponents_below (h : engine.Below other) :
    Below (engine.declareComponents job) (other.declareComponents job) :=
  .bind (.refl _) fun _ =>
    .bind (.forM (fun _ => .bind (h.component _ _) fun _ => .refl _) _) fun _ =>
      .forM (fun _ => .bind (h.requestBody _ _) fun _ => .refl _) _

/-- A whole run needs the levels of the components and of the service. -/
theorem compileDocument_below (h : engine.Below other) :
    Below (engine.compileDocument job) (other.compileDocument job) := by
  refine .bind (declareComponents_below h) fun _ => ?_
  split
  · exact declareService_below h
  · exact .refl _

end

/-- A job that is given more levels than it needs runs as it does with its own. -/
theorem compileDocument_ofLevels (job : Job) {levels : Nat} (h : job.levels ≤ levels) :
    (Engine.ofLevels job levels).compileDocument job
        { file := startFile job.document job.config } =
      compileDocument job { file := startFile job.document job.config } := by
  have hbelow : Below ((Engine.ofLevels job job.levels).compileDocument job)
      ((Engine.ofLevels job levels).compileDocument job) :=
    compileDocument_below (Engine.ofLevels_below job h)
  rw [← Job.engine, Engine.compileDocument_eq] at hbelow
  exact ((hbelow _).resolve_left (compileDocument_not_exhausted job)).symm

end Protoscribe.Compile
