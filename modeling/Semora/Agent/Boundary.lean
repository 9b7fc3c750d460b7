import Semora.Agent.Policy
import Semora.Agent.Journal

/-! # ExecutionBoundary

    `semora.effects`: Semora's durable contract around one run of the agent.
    The agent itself is Pydantic AI's. What the boundary sees of it are the
    nodes of its graph and the tool calls, each handed to a hook around it;
    so an agent is any program over these, and the hooks answer it. -/

namespace Semora

/-! ## Section 1: The agent -/

/-- What a node of the agent's graph leads to. -/
inductive NodeResult where
  | next (request : ModelRequest)
  | finished (output : Json)
  | deferred (requests : DeferredToolRequests)
  deriving DecidableEq

/-- What comes of a model request node. -/
inductive ModelResult where
  /-- The run ends here; `joined` when the request still joins the history. -/
  | halted (joined : Bool) (output : Json)
  | answered (request : ModelRequest) (response : ModelResponse)
  deriving DecidableEq, Repr

/-- The agent at a point where the boundary is hooked in. -/
inductive NodeOp where
  /-- A `ModelRequestNode`, with the tools the run offers. -/
  | modelRequest (ctx : RunContext) (request : ModelRequest) (tools : List ToolDefinition)
  /-- The tools of a step that no request precedes, as when results are handed back. -/
  | prepareTools (tools : List ToolDefinition)
  /-- A `CallToolsNode`, before it runs. -/
  | callTools (ctx : RunContext) (response : ModelResponse)
  /-- One tool call of the node, approved or not. -/
  | tool (ctx : RunContext) (tool : ToolDefinition) (call : ToolCall) (args : Json)
      (approved : Bool)
  /-- The node has run. -/
  | toolsCalled (ctx : RunContext) (response : ModelResponse) (result : NodeResult)

/-- What the hooks answer. -/
def NodeOp.Result : NodeOp → Type
  | .modelRequest .. => ModelResult
  | .prepareTools _ => List ToolDefinition
  | .callTools .. => Unit
  | .tool .. => Json
  | .toolsCalled .. => NodeResult

/-- `AgentRunResult.output`. -/
inductive Output where
  | text (output : Json)
  | deferred (requests : DeferredToolRequests)
  deriving DecidableEq

/-- `AgentRunResult`. -/
structure RunResult where
  output : Output
  messages : List Message
  deriving DecidableEq

/-- What the agent does between the hooks. -/
abbrev AgentProg (α : Type) := Prog NodeOp (fun o => Except Raised o.Result) α

/-- An agent: `agent.run`, and what `model_step_key` hashes of a request. -/
structure Agent where
  digest : List Message → List ToolDefinition → String
  run : RunStart → AgentProg (Except Raised RunResult)

/-- `model_step_key`. -/
def modelStepKey (digest : String) : String := "agent:model:" ++ digest

/-! ## Section 2: Queued inputs -/

/-- `_InputSession`. -/
structure InputSession where
  store : Store
  branchId : String
  token : Int

/-- The ids of the inputs that have one. -/
def originIds (items : List PendingInput) : List String := items.filterMap PendingInput.originId

/-- `_decode`. -/
def decodeInput : Record → Code PendingInput
  | .input item => pure item
  | _ => throw .keyError

namespace InputSession

variable (session : InputSession)

/-- The loop of `claim`. -/
def claimRecords (represented : List String) :
    List (InputRecord Record) → AttemptM (List PendingInput)
  | [] => pure []
  | record :: rest => do
    let st ← AttemptM.state
    if record.status = .discarded ∨ record.status = .admitted ∨
        record.inputId ∈ represented ∨ record.inputId ∈ st.seen then
      claimRecords represented rest
    else
      AttemptM.code (session.store.claimInput session.branchId record.inputId session.token)
      AttemptM.update fun st => { st with seen := record.inputId :: st.seen }
      let item ← AttemptM.code (decodeInput record.value)
      let items ← claimRecords represented rest
      pure (item :: items)

/-- Claim inputs not already represented in model-visible history. -/
def claim (represented : List String) : AttemptM (List PendingInput) := do
  let records ← AttemptM.code (session.store.listInputs session.branchId)
  session.claimRecords represented records

/-- Commit inputs appended to model-visible history. -/
def admit_ (items : List PendingInput) : AttemptM Unit :=
  if originIds items = [] then pure ()
  else AttemptM.code (session.store.admitInputs session.branchId (originIds items) session.token)

/-- Commit inputs permanently removed by ingress controls. -/
def discard (items : List PendingInput) : AttemptM Unit :=
  if originIds items = [] then pure ()
  else AttemptM.code (session.store.discardInputs session.branchId (originIds items) session.token)

end InputSession

/-! ## Section 3: The boundary -/

/-- `ExecutionBoundary`, as one attempt is given it. -/
structure ExecutionBoundary where
  store : Store
  branchId : String
  token : Int
  retryRunning : Bool
  policy : PolicyRunner
  /-- Whether `record` persists admitted messages. -/
  recording : Bool
  /-- A person refused one of the calls this attempt finishes. -/
  cancelled : Bool

namespace ExecutionBoundary

variable (boundary : ExecutionBoundary)

def journal : EffectJournal :=
  ⟨boundary.store, boundary.branchId, boundary.token, boundary.retryRunning⟩

def inputs : InputSession := ⟨boundary.store, boundary.branchId, boundary.token⟩

/-- `self.record(messages)`, when there is one. -/
def record (messages : List Message) : AttemptM Unit :=
  if boundary.recording then AttemptM.ask (.transcript (.append messages)) else pure ()

/-- `_halt`. -/
def halt (ctx : RunContext) (reason : StopReason) (joined : Bool) : AttemptM ModelResult := do
  AttemptM.update fun st => { st with stopReason := some reason }
  pure (.halted joined (lastText ctx.messages))

/-- Screen one ordered input group: what is left of it, or a reason to halt. -/
def screen (here : Ctx) (pending inputs : List PendingInput) :
    AttemptM (List PendingInput ⊕ StopReason) := do
  if inputs = [] then pure (.inl inputs)
  else
    let screened : List PendingInput ⊕ StopReason ← AttemptM.ask (.onInputs here inputs)
    match screened with
    | .inr reason => pure (.inr reason)
    | .inl screened =>
      let dropped := pending.filter fun i =>
        i.originId.any fun id => id ≠ "" ∧ id ∉ originIds screened
      boundary.inputs.discard dropped
      pure (.inl screened)

/-- The controls before a model request: the inputs that pass, and the steering. -/
def steer (ctx : RunContext) (request : ModelRequest) (pending inputs : List PendingInput) :
    AttemptM ((List PendingInput × List RequestPart) ⊕ StopReason) := do
  if ¬ boundary.policy.controls then pure (.inl (inputs, []))
  else
    let st ← AttemptM.state
    let here := boundary.policy.context st ctx
      (if ctx.messages.getLast? = some (.request request) then [] else [.request request]) none
    let screened ← boundary.screen here pending inputs
    match screened with
    | .inr reason => pure (.inr reason)
    | .inl inputs =>
      let decision : TurnDecision ← AttemptM.ask (.beforeModel here)
      match decision with
      | .halt reason => pure (.inr reason)
      | .proceed steers => pure (.inl (inputs, steers))

/-- The request with its inputs and steers in place of its prompts. -/
def admittedRequest (request : ModelRequest) (inputs : List PendingInput)
    (steers : List RequestPart) : ModelRequest where
  parts := request.parts.filter (fun p => !p.isUserPrompt) ++ inputs.map PendingInput.part
    ++ steers
  inputIds := if originIds inputs = [] then request.inputIds else originIds inputs

/-- `_admit`, up to the handler: screen, steer, and commit one ordered input group. -/
def admit_ (ctx : RunContext) (request : ModelRequest) : AttemptM (ModelRequest ⊕ StopReason) := do
  let st ← AttemptM.state
  AttemptM.update fun st => { st with prefetched := [] }
  let claimed ← boundary.inputs.claim (representedInputs ctx.messages)
  let pending := st.prefetched ++ claimed
  let inputs := (request.parts.filter RequestPart.isUserPrompt).map
    (fun part => { kind := "user", part := part }) ++ pending
  let steered ← boundary.steer ctx request pending inputs
  match steered with
  | .inr reason => pure (.inr reason)
  | .inl (inputs, steers) =>
    let request := admittedRequest request inputs steers
    boundary.record [.request request]
    boundary.inputs.admit_ inputs
    pure (.inl request)

/-- `wrap_model_request`. -/
def wrapModelRequest (digest : String) (messages : List Message) : AttemptM ModelResponse :=
  AttemptM.code (boundary.journal.model (modelStepKey digest) (Code.ask (.model messages)))

/-- `wrap_node_run` of a `ModelRequestNode`. -/
def modelRequestNode (digest : List Message → List ToolDefinition → String) (ctx : RunContext)
    (request : ModelRequest) (tools : List ToolDefinition) : AttemptM ModelResult := do
  AttemptM.update fun st => { st with turn := ctx.runStep }
  if boundary.cancelled then
    -- the request joins history, and is not made
    halt ctx .aborted true
  else
    let admitted ← boundary.admit_ ctx request
    match admitted with
    | .inr reason => halt ctx reason false
    | .inl request =>
      let prepared ← PolicyRunner.prepareTools tools
      let messages := ctx.messages ++ [.request request]
      let response ← boundary.wrapModelRequest (digest messages prepared) messages
      pure (.answered request response)

/-- `_record_pending`: commit call order before the first policy check or external effect. -/
def recordPending (ctx : RunContext) (response : ModelResponse) : AttemptM Unit :=
  let calls := response.toolCalls.map fun call =>
    ({ id := call.toolCallId, name := call.toolName, args := call.args } : CallEntry)
  if calls = [] then pure ()
  else AttemptM.code (boundary.store.writeControl boundary.branchId pendingRoundKey
    (some (.pendingRound calls ctx.runStep)) boundary.token)

/-- `wrap_node_run` of a `CallToolsNode`, up to the handler. -/
def callToolsNode (ctx : RunContext) (response : ModelResponse) : AttemptM Unit := do
  AttemptM.update fun st => { st with turn := ctx.runStep }
  PolicyRunner.beginToolRound
  boundary.recordPending ctx response

/-- `_decide_finish`. -/
def decideFinish (ctx : RunContext) (output : Json) : AttemptM NodeResult := do
  let late ← boundary.inputs.claim (representedInputs ctx.messages)
  if late ≠ [] then
    AttemptM.update fun st => { st with prefetched := late }
    pure (.next { parts := [] })
  else if ¬ boundary.policy.controls then
    AttemptM.update fun st => { st with stopReason := some .completed }
    pure (.finished output)
  else
    let st ← AttemptM.state
    let decision : TurnDecision ← AttemptM.ask
      (.beforeFinish (boundary.policy.context st ctx [] none) .completed)
    match decision with
    | .proceed steers => pure (.next { parts := steers })
    | .halt reason =>
      AttemptM.update fun st => { st with stopReason := some reason }
      pure (.finished output)

/-- `wrap_node_run` of a `CallToolsNode`, after the handler. -/
def toolsCalledNode (ctx : RunContext) (response : ModelResponse) (result : NodeResult) :
    AttemptM NodeResult := do
  match result with
  | .deferred requests => pure (.deferred requests)
  | .next request =>
    boundary.record [.response response]
    pure (.next request)
  | .finished output =>
    boundary.record [.response response]
    boundary.decideFinish ctx output

/-- `before_tool_execute`: a denial is a result the model sees; a suspension parks first. -/
def beforeToolExecute (ctx : RunContext) (tool : ToolDefinition) (call : ToolCall) (args : Json)
    (approved : Bool) : AttemptM Json := do
  AttemptM.mark (.toolEntered call approved)
  let st ← AttemptM.state
  let recorded ← AttemptM.code (boundary.journal.recorded call.toolCallId)
  let decision ← boundary.policy.decideTool (boundary.policy.context st ctx [] (some tool)) call
    args approved recorded
  match decision with
  | .deny result => throw (.skipToolExecution result)
  | .suspend request => throw (.approvalRequired (some request))
  | .continue => pure args

/-- `wrap_tool_execute`: answer from the record, refuse to guess, or run the tool once. -/
def wrapToolExecute (ctx : RunContext) (tool : ToolDefinition) (call : ToolCall) (args : Json) :
    AttemptM Json := do
  let record ← AttemptM.code
    (boundary.journal.tool call.toolCallId (Code.ask (.handler call args)))
  AttemptM.mark (.toolReturned call.toolCallId (.ok record))
  let st ← AttemptM.state
  let here := boundary.policy.context st ctx [] (some tool)
  let record ← AttemptM.code (boundary.journal.projectOnce call.toolCallId record
    (if boundary.policy.controls then some (boundary.policy.afterTool here call) else none))
  let record ← AttemptM.code (asToolRecord record)
  match record with
  | .ok value => pure value
  | .failed error => throw (.toolFailed error)

/-- The hooks. -/
def hook (digest : List Message → List ToolDefinition → String) :
    (o : NodeOp) → AttemptM o.Result
  | .modelRequest ctx request tools => boundary.modelRequestNode digest ctx request tools
  | .prepareTools tools => PolicyRunner.prepareTools tools
  | .callTools ctx response => boundary.callToolsNode ctx response
  | .tool ctx tool call args approved => do
    let args ← boundary.beforeToolExecute ctx tool call args approved
    boundary.wrapToolExecute ctx tool call args
  | .toolsCalled ctx response result => boundary.toolsCalledNode ctx response result

/-- An agent's program under the hooks. -/
def drive {α : Type} (digest : List Message → List ToolDefinition → String) :
    AgentProg α → AttemptM α
  | .pure a => pure a
  | .perform o next => do
    let r ← AttemptM.attempt (boundary.hook digest o)
    drive digest (next r)

end ExecutionBoundary

end Semora
