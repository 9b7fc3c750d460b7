import Semora.Agent.Attempt

/-! # PolicyRunner

    `semora.policy`: the tool controls of one attempt, and the state they
    share: the decisions made so far, the tools that need approval, and
    whether a call of this round is suspended. -/

namespace Semora

/-- `RunContext`, as far as the boundary reads it. -/
structure RunContext where
  runStep : Nat
  messages : List Message

/-- `NOT_EXECUTED`. -/
def notExecuted : String :=
  "not executed: an earlier call in this round awaits approval; reissue it once that is decided"

/-- `isinstance(args, dict)`, of JSON text. -/
def isObject (args : Json) : Bool := args.front == '\x7b'

/-- The attempt's parts of `PolicyRunner` that do not change. -/
structure PolicyRunner where
  /-- Whether there are controls. -/
  controls : Bool
  rulesVersion : String
  subject : String
  resumed : Dict String Resumed
  regate : List String

/-- The decision suspends the call. -/
def ToolDecision.isSuspend : ToolDecision → Bool
  | .suspend _ => true
  | _ => false

namespace PolicyRunner

variable (p : PolicyRunner)

/-- Normalize approval tools and serialize order-sensitive tool batches. -/
def prepareTools (defs : List ToolDefinition) : AttemptM (List ToolDefinition) := do
  AttemptM.mark (.toolsPrepared defs)
  AttemptM.update fun st =>
    { st with
      approvalTools :=
        st.approvalTools ++ (defs.filter ToolDefinition.unapproved).map ToolDefinition.name }
  pure (defs.map fun tool =>
    { tool with
      unapproved := false
      sequential := tool.sequential || !tool.concurrencySafe })

/-- Reset the batch-local suspension marker. -/
def beginToolRound : AttemptM Unit := do
  AttemptM.mark .roundBegan
  AttemptM.update fun st => { st with suspendedThisRound := false }

/-- Build the control context from the run context. -/
def context (st : AttemptState) (ctx : RunContext) (pending : List Message)
    (tool : Option ToolDefinition) : Ctx :=
  let messages := ctx.messages ++ pending
  { turn := ctx.runStep, messages := messages, callsMade := st.callsMade,
    text := lastText messages, subject := p.subject, tool := tool }

/-- What `pre_tool_use` says, when there are controls. -/
def preToolUse (here : Ctx) (call : ToolCall) : AttemptM ToolDecision :=
  if p.controls then AttemptM.ask (.preToolUse here call) else pure .continue

/-- `_gate`. -/
def gate (here : Ctx) (call : ToolCall) : AttemptM ToolDecision := do
  let asked ← p.preToolUse here call
  let st ← AttemptM.state
  let decision :=
    if asked = .continue ∧ call.toolName ∈ st.approvalTools then
      .suspend { pendingId := some call.toolCallId }
    else asked
  if st.suspendedThisRound ∧ ¬ decision.isSuspend then pure (.deny notExecuted)
  else pure decision

/-- `_resume_decision`. -/
def resumeDecision (here : Ctx) (call : ToolCall) : AttemptM ToolDecision :=
  match p.resumed.get? call.toolCallId, p.controls with
  | some resumed, true =>
    AttemptM.ask (.onResume here call
      ⟨resumed.answer, resumed.request, resumed.rulesVersion, p.rulesVersion⟩)
  | _, _ => pure .continue

/-- Append one tool decision to the policy-visible call history. -/
def noteTool (call : ToolCall) (refused : Bool) : AttemptM Unit :=
  AttemptM.update fun st =>
    { st with
      callsMade := st.callsMade ++ [⟨call.toolCallId, call.toolName, call.args, refused⟩] }

/-- The call as an approved call is decided: with the arguments it will run with. -/
def effectiveCall (call : ToolCall) (args : Json) : ToolCall :=
  if isObject args then { call with args := args } else call

/-- The call is not asked about: it is already recorded, and not by another run. -/
def bypasses (call : ToolCall) (recorded : Bool) : Bool :=
  decide (call.toolCallId ∉ p.regate) && recorded

/-- The three ways a call is decided. -/
def choose (here : Ctx) (call : ToolCall) (args : Json) (approved recorded : Bool) :
    AttemptM ToolDecision :=
  if p.bypasses call recorded then pure .continue
  else if approved then p.resumeDecision here (effectiveCall call args)
  else p.gate here call

/-- A suspension must be routable, and suspends the round. -/
def enterSuspension (call : ToolCall) : ToolDecision → AttemptM Unit
  | .suspend request =>
    if request.routable then
      AttemptM.update fun st => { st with suspendedThisRound := true }
    else
      throw (.valueError ("suspension of " ++ pyRepr call.toolCallId ++ " carries no pending_id"))
  | _ => pure ()

/-- Decide a fresh, resumed, or already-recorded tool call. -/
def decideTool (here : Ctx) (call : ToolCall) (args : Json) (approved recorded : Bool) :
    AttemptM ToolDecision := do
  let decision ← p.choose here call args approved recorded
  enterSuspension call decision
  noteTool (if ¬ p.bypasses call recorded ∧ approved then effectiveCall call args else call)
    (decision ≠ .continue)
  AttemptM.mark (.decided call.toolCallId decision)
  pure decision

/-- Run post-tool policy against the committed result's visible projection. What the hook
    leaves of an error's object is lost: the object is made for it. -/
def afterTool (here : Ctx) (call : ToolCall) (record : ToolRecord) : Code ToolRecord := do
  if ¬ p.controls then pure record
  else
    let result ← Code.ask (.postToolUse here call record)
    match record with
    | .ok _ => pure (.ok result)
    | .failed error => pure (.failed error)

end PolicyRunner

end Semora
