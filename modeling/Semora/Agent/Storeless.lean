import Semora.Agent.Runtime

/-! # A Runtime Without a Ledger

    `AgentRuntime()` records nothing: a crash may run a tool again, and a
    suspension has nowhere to park. This is the code of an attempt where
    `store is None`. The control plane is still there, and so is the
    transcript when there is one. -/

namespace Semora

namespace Storeless

/-! ## Section 1: The journal -/

theorem reply_onInputs (here : Ctx) (inputs : List PendingInput) :
    (External.onInputs here inputs).Reply = Except Raised (List PendingInput ⊕ StopReason) := rfl

theorem reply_beforeModel (here : Ctx) :
    (External.beforeModel here).Reply = Except Raised TurnDecision := rfl

theorem reply_beforeFinish (here : Ctx) (reason : StopReason) :
    (External.beforeFinish here reason).Reply = Except Raised TurnDecision := rfl

theorem reply_handler (call : ToolCall) (args : Json) :
    (External.handler call args).Reply = Except Raised Json := rfl

/-- `_execute`, with nowhere to commit the record. -/
def execute (handler : Code Json) : Code ToolRecord := do
  let outcome ← Code.attempt handler
  match outcome with
  | .error e =>
    if e.nothingHappened then throw e
    else if e.passesThrough then throw e
    else pure (.failed e.text)
  | .ok value => pure (.ok value)

/-- `project_once`: the hook runs each time. -/
def projectOnce (record : ToolRecord) : Option (ToolRecord → Code ToolRecord) → Code ToolRecord
  | none => pure record
  | some project => project record

/-! ## Section 2: The boundary -/

section boundary

variable (boundary : ExecutionBoundary)

/-- The screening part of `_admit`: what is dropped is dropped. -/
def screen (here : Ctx) (inputs : List PendingInput) :
    AttemptM (List PendingInput ⊕ StopReason) :=
  if inputs = [] then pure (.inl inputs)
  else AttemptM.ask (.onInputs here inputs) (reply_onInputs here inputs)

/-- The controls before a model request. -/
def steer (ctx : RunContext) (request : ModelRequest) (inputs : List PendingInput) :
    AttemptM ((List PendingInput × List RequestPart) ⊕ StopReason) := do
  if ¬ boundary.policy.controls then pure (.inl (inputs, []))
  else
    let st ← AttemptM.state
    let here := boundary.policy.context st ctx
      (if ctx.messages.getLast? = some (.request request) then [] else [.request request]) none
    let screened ← screen here inputs
    match screened with
    | .inr reason => pure (.inr reason)
    | .inl inputs =>
      let decision ← AttemptM.ask (.beforeModel here) (reply_beforeModel here)
      match decision with
      | .halt reason => pure (.inr reason)
      | .proceed steers => pure (.inl (inputs, steers))

/-- `_admit`, up to the handler, without a queue. -/
def admit_ (ctx : RunContext) (request : ModelRequest) : AttemptM (ModelRequest ⊕ StopReason) := do
  let st ← AttemptM.state
  AttemptM.update fun st => { st with prefetched := [] }
  let inputs := (request.parts.filter RequestPart.isUserPrompt).map
    (fun part => { kind := "user", part := part }) ++ st.prefetched
  let steered ← steer boundary ctx request inputs
  match steered with
  | .inr reason => pure (.inr reason)
  | .inl (inputs, steers) =>
    let request := ExecutionBoundary.admittedRequest request inputs steers
    boundary.record [.request request]
    pure (.inl request)

/-- `wrap_node_run` of a `ModelRequestNode`; the model is asked at once. -/
def modelRequestNode (ctx : RunContext) (request : ModelRequest) (tools : List ToolDefinition) :
    AttemptM ModelResult := do
  AttemptM.update fun st => { st with turn := ctx.runStep }
  if boundary.cancelled then ExecutionBoundary.halt ctx .aborted true
  else
    let admitted ← admit_ boundary ctx request
    match admitted with
    | .inr reason => ExecutionBoundary.halt ctx reason false
    | .inl request =>
      let _ ← PolicyRunner.prepareTools tools
      let response : ModelResponse ← AttemptM.ask (.model (ctx.messages ++ [.request request]))
      pure (.answered request response)

/-- `wrap_node_run` of a `CallToolsNode`, up to the handler. -/
def callToolsNode (ctx : RunContext) : AttemptM Unit := do
  AttemptM.update fun st => { st with turn := ctx.runStep }
  PolicyRunner.beginToolRound

/-- `_decide_finish`, where no input can come late. -/
def decideFinish (ctx : RunContext) (output : Json) : AttemptM NodeResult := do
  if ¬ boundary.policy.controls then
    AttemptM.update fun st => { st with stopReason := some .completed }
    pure (.finished output)
  else
    let st ← AttemptM.state
    let here := boundary.policy.context st ctx [] none
    let decision ← AttemptM.ask (.beforeFinish here .completed) (reply_beforeFinish here .completed)
    match decision with
    | .proceed steers => pure (.next { parts := steers })
    | .halt reason =>
      AttemptM.update fun st => { st with stopReason := some reason }
      pure (.finished output)

/-- `wrap_node_run` of a `CallToolsNode`, after the handler. -/
def toolsCalledNode (ctx : RunContext) (response : ModelResponse) :
    NodeResult → AttemptM NodeResult
  | .deferred requests => pure (.deferred requests)
  | .next request => do
    boundary.record [.response response]
    pure (.next request)
  | .finished output => do
    boundary.record [.response response]
    decideFinish boundary ctx output

/-- `before_tool_execute`: no call is recorded. -/
def beforeToolExecute (ctx : RunContext) (tool : ToolDefinition) (call : ToolCall) (args : Json)
    (approved : Bool) : AttemptM Json := do
  let st ← AttemptM.state
  let decision ← boundary.policy.decideTool (boundary.policy.context st ctx [] (some tool)) call
    args approved false
  match decision with
  | .deny result => throw (.skipToolExecution result)
  | .suspend request => throw (.approvalRequired (some request))
  | .continue => pure args

/-- `wrap_tool_execute`: the tool runs. -/
def wrapToolExecute (ctx : RunContext) (tool : ToolDefinition) (call : ToolCall) (args : Json) :
    AttemptM Json := do
  let record ← AttemptM.code (execute (Code.ask (.handler call args) (reply_handler call args)))
  let st ← AttemptM.state
  let here := boundary.policy.context st ctx [] (some tool)
  let record ← AttemptM.code (projectOnce record
    (if boundary.policy.controls then some (boundary.policy.afterTool here call) else none))
  match record with
  | .ok value => pure value
  | .failed error => throw (.toolFailed error)

/-- The hooks. -/
def hook : (o : NodeOp) → AttemptM o.Result
  | .modelRequest ctx request tools => modelRequestNode boundary ctx request tools
  | .prepareTools tools => PolicyRunner.prepareTools tools
  | .callTools ctx _ => callToolsNode ctx
  | .tool ctx tool call args approved => do
    let args ← beforeToolExecute boundary ctx tool call args approved
    wrapToolExecute boundary ctx tool call args
  | .toolsCalled ctx response result => toolsCalledNode boundary ctx response result

/-- An agent's program under the hooks. -/
def drive {α : Type} : AgentProg α → AttemptM α
  | .pure a => pure a
  | .perform o next => do
    let r ← AttemptM.attempt (hook boundary o)
    drive (next r)

end boundary

/-! ## Section 3: The runtime -/

section runtime

variable (runtime : AgentRuntime)

/-- `agent.run`, with the boundary attached. -/
def runAgent (boundary : ExecutionBoundary) (agent : Agent) (start : RunStart) :
    Code (RunResult × AttemptState) :=
  ExceptT.mk ((drive boundary (agent.run start)).runFrom {} >>= fun
    | (.ok (.ok result), st) => .pure (.ok (result, st))
    | (.ok (.error e), _) => .pure (.error e)
    | (.error e, _) => .pure (.error e))

theorem runAgent_eq (boundary : ExecutionBoundary) (agent : Agent) (start : RunStart) :
    runAgent boundary agent start
      = (drive boundary (agent.run start)).settled {} >>= AttemptM.returned := by
  refine congrArg ExceptT.mk ?_
  show _ = (_ >>= _) >>= ExceptT.bindCont _
  rw [Prog.bind_assoc]
  refine congrArg (_ >>= ·) (funext ?_)
  rintro ⟨_ | (_ | _), _⟩ <;> rfl

/-- `_park`: it is announced, and stored nowhere. -/
def park {α : Type} (boundary : ExecutionBoundary) (st : AttemptState)
    (requests : DeferredToolRequests) (messages : List Message) : Code α := do
  if requests.calls ≠ [] then
    throw (.runtimeError "only a pre_tool_use permission gate may suspend a tool request")
  else
    let parked ← Code.ofExcept (withRequests requests requests.approvals)
    let ids := parked.map fun p => p.2.pendingId.getD ""
    if ¬ ids.Nodup then throw (.valueError "a parked round reuses a pending_id")
    else
      AgentRuntime.notifySuspended boundary st.turn messages parked
      let pending ← Code.ofExcept (pendingPairs parked)
      match requests.approvals with
      | [] => throw .indexError
      | _ :: _ => throw (.agentSuspended pending)

/-- `_attempt`: every prompt is delivered. -/
def attempt (execution : ExecutionContext) (token : Int) (options : Options)
    (args : AttemptArgs) : Code Outcome := do
  let history ← runtime.openHistory execution args.messageHistory
  let boundary := runtime.boundary execution token options args
  let start : RunStart := ⟨args.prompt, history, args.deferredToolResults⟩
  let (result, st) ← runAgent boundary options.agent start
  runtime.replaceHistory result.messages
  match result.output with
  | .deferred requests => park boundary st requests result.messages
  | .text _ =>
    let stopReason := st.stopReason.getD .completed
    runtime.close stopReason st.callsMade.length
    pure ⟨result.output, stopReason, result⟩

/-- `run`: there is no lease to take, and nothing can be parked. -/
def run (execution : ExecutionContext) (options : Options) (args : AttemptArgs) : Code Outcome :=
  attempt runtime execution 0 options { args with regate := [], cancelled := false }

/-- `recover`: there is nothing but the history. -/
def recover (execution : ExecutionContext) (options : Options) (history : List Message) :
    Code Outcome :=
  attempt runtime execution 0 options { messageHistory := some history }

/-- `fork`: there is nothing to copy. -/
def fork (src : ExecutionContext) (at_ : Option String) (dst : ExecutionContext)
    (options : Options) (prompt : Option Json) (history : Option (List Message)) :
    Code Outcome := do
  let history ← runtime.forkHistory src at_ history
  attempt runtime dst 0 options { prompt := prompt, messageHistory := some history }

end runtime

end Storeless

end Semora
