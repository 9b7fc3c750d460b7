import Semora.Agent.Boundary

/-! # AgentRuntime

    `semora.runtime`: what happens between attempts. The lease, parking a
    suspended round durably, routing a person's answer back to it, and
    finishing an interrupted round from what the dead worker committed.

    A runtime here always has a ledger; the branches that ask whether there is
    one are left out. A lease is taken by an owner that is drawn afresh
    (`uuid4().hex`): the methods are handed theirs. -/

namespace Semora

/-! ## Section 1: The host's side -/

/-- `AgentRuntime`, with an execution store. -/
structure AgentRuntime where
  leaseTtl : ℚ
  retryRunning : Bool
  /-- Whether there is a transcript. -/
  transcript : Bool

/-- What a host passes to every method that drives an attempt. -/
structure Options where
  agent : Agent
  /-- Whether there are controls. -/
  controls : Bool := false
  rulesVersion : String := ""
  /-- `execution.subject or ""`. -/
  subject : String := ""

/-- What `_attempt` is told besides. -/
structure AttemptArgs where
  prompt : Option Json := none
  promptId : Option String := none
  messageHistory : Option (List Message) := none
  deferredToolResults : Option (List (String × Approval)) := none
  resumed : Dict String Resumed := Dict.empty
  regate : List String := []
  cancelled : Bool := false

/-- `Outcome`. -/
structure Outcome where
  output : Output
  stopReason : StopReason
  result : RunResult
  deriving DecidableEq

/-- `_execution_context`: a conversation named separately is filled in if there was none. -/
def executionContext (value : ExecutionContext) (conversationId : Option String) :
    ExecutionContext :=
  match value.conversationId with
  | none => { value with conversationId := conversationId }
  | some _ => value

/-- `execution.conversation_id or execution.branch_id`. -/
def ExecutionContext.conversation (execution : ExecutionContext) : String :=
  match execution.conversationId with
  | none => execution.branchId
  | some conversationId => if conversationId = "" then execution.branchId else conversationId

/-- `_store_for`. -/
abbrev ExecutionContext.store (execution : ExecutionContext) : Store := forExecution execution

/-! ## Section 2: The parked round -/

/-- The ids of the calls a person has to decide, in model order. -/
def DeferredToolRequests.callIds (requests : DeferredToolRequests) : List String :=
  requests.approvals.map ToolCall.toolCallId

/-- `_deferred_requests`: the stored requests, when they match the suspension. -/
def deferredRequests (active : Suspension) : Except Raised DeferredToolRequests :=
  let requests := active.continuation.deferred
  let keys := requests.metadata.items.map Prod.fst
  if requests.calls ≠ [] ∨ requests.callIds ≠ active.callIds ∨
      ¬ (keys ⊆ requests.callIds ∧ requests.callIds ⊆ keys) then
    .error (.valueError "stored deferred requests do not match the active suspension")
  else .ok requests

/-- `requests.metadata[call.tool_call_id]`, for every parked call. -/
def withRequests (requests : DeferredToolRequests) :
    List ToolCall → Except Raised (List (ToolCall × SuspendRequest))
  | [] => .ok []
  | call :: calls => do
    match requests.metadata.get? call.toolCallId with
    | none => .error .keyError
    | some request =>
      let rest ← withRequests requests calls
      .ok ((call, request) :: rest)

/-- `_decode_parked`. -/
def decodeParked (active : Suspension) : Except Raised (List (ToolCall × SuspendRequest)) := do
  let requests ← deferredRequests active
  withRequests requests requests.approvals

/-- `(str(request["pending_id"]), call.tool_call_id)`, for every parked call. -/
def pendingPairs : List (ToolCall × SuspendRequest) → Except Raised (List (String × String))
  | [] => .ok []
  | (call, request) :: parked => do
    match request.pendingId with
    | none => .error .keyError
    | some pendingId =>
      let rest ← pendingPairs parked
      .ok ((pendingId, call.toolCallId) :: rest)

/-- `_undecided`. -/
def undecided (active : Suspension) : Except Raised (List (String × String)) := do
  let parked ← decodeParked active
  pendingPairs (parked.filter fun p => (active.answers.get? p.1.toolCallId).isNone)

/-- The call parked under a pending id: `by_pending.get(pending_id)`. -/
def byPending (parked : List (ToolCall × SuspendRequest)) (pendingId : String) :
    Option ToolCall :=
  (parked.reverse.find? fun p => p.2.pendingId = some pendingId).map Prod.fst

/-- The approvals `_finalize` makes of the answers, and whether one of them refuses. -/
def approvalsOf (answers : Dict String Answer) :
    List (ToolCall × SuspendRequest) → Except Raised (List (String × Approval) × Bool)
  | [] => .ok ([], false)
  | (call, _) :: parked => do
    match answers.get? call.toolCallId with
    | none => .error .keyError
    | some answer =>
      let (approvals, cancelled) ← approvalsOf answers parked
      .ok ((call.toolCallId, answer.approval) :: approvals, answer.refuses || cancelled)

/-- `Resumed`, for every parked call. -/
def resumedOf (answers : Dict String Answer) (rulesVersion : String)
    (parked : List (ToolCall × SuspendRequest)) : Dict String Resumed :=
  parked.foldl (fun resumed p =>
    match answers.get? p.1.toolCallId with
    | none => resumed
    | some answer => resumed.set p.1.toolCallId ⟨answer, p.2, rulesVersion⟩) Dict.empty

namespace AgentRuntime

variable (runtime : AgentRuntime)

/-! ## Section 3: Lease and transcript -/

/-- `_lease`: the body runs under the branch's lease. -/
def lease {α : Type} (execution : ExecutionContext) (owner : String) (method : Method)
    (body : Int → Code α) : Code α := do
  Code.mark (.leasing method)
  let token ← execution.store.acquire execution.branchId owner runtime.leaseTtl
  if token = 0 then throw (.contended execution.branchId)
  else Code.finally_ (body token) (execution.store.release execution.branchId owner)

/-- One turn of `_renew`. -/
def renew (execution : ExecutionContext) (owner : String) : Code Unit := do
  let _ ← execution.store.acquire execution.branchId owner runtime.leaseTtl
  pure ()

/-- `_active`: the live continuation, or none when nothing is parked. -/
def active (execution : ExecutionContext) : Code (Option Suspension) := do
  let record ← execution.store.read execution.branchId activeSuspension
  if record.status ≠ .done then pure none
  else
    match record.value with
    | some (.suspension suspension) => pure (some suspension)
    | some _ => pure none
    | none => throw (.other "'NoneType' object has no attribute 'get'")

/-- `_open`, and the history the attempt starts from. -/
def openHistory (execution : ExecutionContext) (history : Option (List Message)) :
    Code (Option (List Message)) := do
  if ¬ runtime.transcript then pure history
  else
    let messages : List Message ← Code.ask
      (.transcript (.openBranch execution.conversation execution.branchId))
    match history with
    | none => pure (if messages = [] then none else some messages)
    | some history =>
      let () ← Code.ask (.transcript (.replace history))
      pure (some history)

/-- `branch.replace(result.all_messages())`. -/
def replaceHistory (messages : List Message) : Code Unit :=
  if ¬ runtime.transcript then pure ()
  else Code.ask (.transcript (.replace messages))

/-- `branch.writer.closed(stop_reason, …)`. -/
def close (reason : StopReason) (toolCalls : Nat) : Code Unit :=
  if ¬ runtime.transcript then pure ()
  else Code.ask (.transcript (.closed reason toolCalls))

/-! ## Section 4: One attempt -/

/-- The prompt, as far as an earlier attempt did not deliver it. -/
def deliverPrompt (execution : ExecutionContext) (token : Int) :
    Option Json → Option String → Code (Option Json)
  | some prompt, some promptId => do
    let item : PendingInput := ⟨"user_prompt", .userPrompt prompt, some promptId⟩
    let inserted ← execution.store.enqueueInput execution.branchId promptId (.input item)
    if inserted then
      execution.store.admitInputs execution.branchId [promptId] token
      pure (some prompt)
    else pure none
  | prompt, _ => pure prompt

/-- The boundary around one attempt. -/
def boundary (execution : ExecutionContext) (token : Int) (options : Options)
    (args : AttemptArgs) : ExecutionBoundary where
  store := execution.store
  branchId := execution.branchId
  token := token
  retryRunning := runtime.retryRunning
  policy :=
    { controls := options.controls, rulesVersion := options.rulesVersion,
      subject := options.subject, resumed := args.resumed, regate := args.regate }
  recording := runtime.transcript
  cancelled := args.cancelled

/-- `agent.run`, with the boundary attached. -/
def runAgent (boundary : ExecutionBoundary) (agent : Agent) (start : RunStart) :
    Code (RunResult × AttemptState) :=
  ExceptT.mk ((boundary.drive agent.digest (agent.run start)).runFrom {} >>= fun
    | (.ok (.ok result), st) => .pure (.ok (result, st))
    | (.ok (.error e), _) => .pure (.error e)
    | (.error e, _) => .pure (.error e))

/-- The run is what the agent does under the hooks, and then what it comes to. -/
theorem runAgent_eq (boundary : ExecutionBoundary) (agent : Agent) (start : RunStart) :
    runAgent boundary agent start
      = (boundary.drive agent.digest (agent.run start)).settled {} >>= AttemptM.returned := by
  refine congrArg ExceptT.mk ?_
  show _ = (_ >>= _) >>= ExceptT.bindCont _
  rw [Prog.bind_assoc]
  refine congrArg (_ >>= ·) (funext ?_)
  rintro ⟨_ | (_ | _), _⟩ <;> rfl

/-- `on_suspend`, for every parked call. -/
def notifyEach (ctx : Ctx) (messages : List Message) (completed : List (String × Json)) :
    List (ToolCall × SuspendRequest) → Code Unit
  | [] => pure ()
  | (call, request) :: parked => do
    let () ← Code.ask (.onSuspend ctx call request messages completed)
    notifyEach ctx messages completed parked

/-- The controls are told what parks, when there are some. -/
def notifySuspended (boundary : ExecutionBoundary) (turn : Nat) (messages : List Message)
    (parked : List (ToolCall × SuspendRequest)) : Code Unit :=
  if ¬ boundary.policy.controls then pure ()
  else
    notifyEach { turn := turn, messages := messages, subject := boundary.policy.subject }
      messages (roundResults messages) parked

/-- What `_park` stores under `ACTIVE_SUSPENSION`. -/
def parkedSuspension (conversation : String) (boundary : ExecutionBoundary) (turn : Nat)
    (requests : DeferredToolRequests) (messages : List Message) (callId : String) :
    Suspension where
  state := .waiting
  conversationId := conversation
  callId := callId
  continuation :=
    { deferred := requests, messages := messages, completed := roundResults messages,
      rulesVersion := boundary.policy.rulesVersion, turn := turn,
      subject := boundary.policy.subject }
  callIds := requests.callIds
  answers := Dict.empty

/-- What `_park` writes, in one transition. -/
def parkWrites (suspension : Suspension) : ExecutionTransition Record where
  controls := ((suspension.callIds.foldl (fun writes callId =>
    writes.set (suspendKey callId) (some (.suspendIndex suspension.callId))) Dict.empty).set
      activeSuspension (some (.suspension suspension)))

/-- `_park`: persist every parked call of the round in one transition, then announce it. -/
def park {α : Type} (execution : ExecutionContext) (boundary : ExecutionBoundary)
    (st : AttemptState) (requests : DeferredToolRequests) (messages : List Message) :
    Code α := do
  if requests.calls ≠ [] then
    throw (.runtimeError "only a pre_tool_use permission gate may suspend a tool request")
  else
    let parked ← Code.ofExcept (withRequests requests requests.approvals)
    let ids := parked.map fun p => p.2.pendingId.getD ""
    if ¬ ids.Nodup then throw (.valueError "a parked round reuses a pending_id")
    else
      notifySuspended boundary st.turn messages parked
      let pending ← Code.ofExcept (pendingPairs parked)
      match requests.approvals with
      | [] => throw .indexError
      | first :: _ =>
        let suspension := parkedSuspension execution.conversation boundary st.turn requests
          messages first.toolCallId
        let _ ← execution.store.commitTransition execution.branchId (parkWrites suspension)
          boundary.token
        throw (.agentSuspended pending)

/-- `_attempt`: drive an attempt while the caller owns the branch lease. -/
def attempt (execution : ExecutionContext) (token : Int) (options : Options)
    (args : AttemptArgs) : Code Outcome := do
  let history ← runtime.openHistory execution args.messageHistory
  let prompt ← deliverPrompt execution token args.prompt args.promptId
  let boundary := runtime.boundary execution token options args
  let start : RunStart := ⟨prompt, history, args.deferredToolResults⟩
  Code.mark (.agentRun token start)
  let (result, st) ← runAgent boundary options.agent start
  runtime.replaceHistory result.messages
  match result.output with
  | .deferred requests => park execution boundary st requests result.messages
  | .text _ =>
    let stopReason := st.stopReason.getD .completed
    runtime.close stopReason st.callsMade.length
    Code.mark (.ended stopReason)
    pure ⟨result.output, stopReason, result⟩

/-! ## Section 5: Finishing a parked round -/

/-- `_finalize`: idempotently finish a fully answered continuation. -/
def finalize (execution : ExecutionContext) (token : Int) (options : Options)
    (active : Suspension) (answers : Dict String Answer)
    (parked : List (ToolCall × SuspendRequest)) : Code Outcome := do
  Code.mark (.finalizing active answers)
  let (approvals, cancelled) ← Code.ofExcept (approvalsOf answers parked)
  execution.store.writeControl execution.branchId activeSuspension
    (some (.suspension { active with state := .resuming, answers := answers })) token
  let rejoined := executionContext execution
    (if active.conversationId = execution.branchId then none else some active.conversationId)
  let _ ← Code.ofExcept (deferredRequests active)
  let outcome ← runtime.attempt rejoined token options
    { messageHistory := some active.continuation.messages,
      deferredToolResults := some approvals,
      resumed := resumedOf answers active.continuation.rulesVersion parked,
      cancelled := cancelled }
  execution.store.writeControl execution.branchId activeSuspension
    (some (.completed active.callId active.callIds)) token
  pure outcome

/-- The body of `resume`, under the lease. -/
def answerUnderLease (execution : ExecutionContext) (options : Options) (pendingId : String)
    (answer : Answer) (token : Int) : Code Outcome := do
  let found ← AgentRuntime.active execution
  match found with
  | none => throw (.lookupError pendingId)
  | some active =>
    let parked ← Code.ofExcept (decodeParked active)
    let _ ← Code.ofExcept (pendingPairs parked)
    match byPending parked pendingId with
    | none => throw (.lookupError pendingId)
    | some call =>
      let answers := active.answers.set call.toolCallId answer
      execution.store.writeControl execution.branchId activeSuspension
        (some (.suspension { active with answers := answers })) token
      let pending ← Code.ofExcept (undecided { active with answers := answers })
      if pending ≠ [] then throw (.agentSuspended pending)
      else runtime.finalize execution token options active answers parked

/-- `resume`: route an answer by its suspension's external `pending_id`. -/
def resume (execution : ExecutionContext) (owner : String) (options : Options)
    (pendingId : String) (answer : Answer) : Code Outcome :=
  runtime.lease execution owner .resume fun token =>
    runtime.answerUnderLease execution options pendingId answer token

/-- The pending round, as far as it was recorded, must hold every call of the history. -/
def checkPendingRound (execution : ExecutionContext) (history : List Message) : Code Unit := do
  let recorded ← execution.store.read execution.branchId pendingRoundKey
  if recorded.status ≠ .done then pure ()
  else
    match recorded.value with
    | some (.pendingRound calls _) =>
      if (unansweredToolCalls history).any fun call =>
          call.toolCallId ∉ calls.map CallEntry.id then
        throw (.valueError "agent history does not match the recorded pending round")
      else pure ()
    | _ => throw .keyError

/-- The body of `recover`, under the lease. -/
def recoverUnderLease (execution : ExecutionContext) (options : Options)
    (history : List Message) (token : Int) : Code Outcome := do
  let found ← AgentRuntime.active execution
  match found with
  | some active =>
    let pending ← Code.ofExcept (undecided active)
    if pending ≠ [] then throw (.agentSuspended pending)
    else
      let parked ← Code.ofExcept (decodeParked active)
      runtime.finalize execution token options active active.answers parked
  | none =>
    checkPendingRound execution history
    runtime.attempt execution token options { messageHistory := some history }

/-- `recover`: finish an interrupted run from the transcript the dead worker committed. -/
def recover (execution : ExecutionContext) (owner : String) (options : Options)
    (history : List Message) : Code Outcome :=
  runtime.lease execution owner .recover fun token =>
    runtime.recoverUnderLease execution options history token

/-! ## Section 6: Starting an attempt -/

/-- `item.origin_id or str(uuid4())`. -/
def originOf (item : PendingInput) : Code String :=
  match item.originId.filter (· ≠ "") with
  | some originId => pure originId
  | none => Code.uuid4

/-- `submit`: durably queue one input for the branch's next model boundary. -/
def submit (execution : ExecutionContext) (item : PendingInput) : Code PendingInput := do
  let originId ← originOf item
  let normalized := { item with originId := some originId }
  let _ ← execution.store.enqueueInput execution.branchId originId (.input normalized)
  pure normalized

/-- A prompt aimed at a parked run is queued behind the park, which is announced again. -/
def announceParked (execution : ExecutionContext) (promptId : Option String) :
    Option Json → Code Unit
  | none => pure ()
  | some prompt => do
    let found ← AgentRuntime.active execution
    match found with
    | none => pure ()
    | some active =>
      let _ ← submit execution ⟨"user_prompt", .userPrompt prompt, promptId⟩
      let pending ← Code.ofExcept (undecided active)
      if pending = [] then throw (.contended execution.branchId)
      else throw (.agentSuspended pending)

/-- `run`: drive one attempt at a run under its lease. -/
def run (execution : ExecutionContext) (owner : String) (options : Options)
    (args : AttemptArgs) : Code Outcome := do
  announceParked execution args.promptId args.prompt
  runtime.lease execution owner .run fun token =>
    runtime.attempt execution token options { args with regate := [], cancelled := false }

/-- Copy the calls of the history that the source run started or finished. -/
def copySteps (src dst : ExecutionContext) (token : Int) :
    List ToolCall → Code (List String)
  | [] => pure []
  | call :: calls => do
    let key := stepKey call.toolCallId
    let record ← src.store.read src.branchId key
    if record.status = .absent then copySteps src dst token calls
    else
      let started ← dst.store.start dst.branchId key token
      if ¬ started then copySteps src dst token calls
      else if record.status = .done then
        dst.store.finishEffect dst.branchId key record.value token
        let copied ← copySteps src dst token calls
        pure (call.toolCallId :: copied)
      else copySteps src dst token calls

/-- The history a fork starts from. -/
def forkHistory (src : ExecutionContext) (at_ : Option String) :
    Option (List Message) → Code (List Message)
  | some history => pure history
  | none =>
    if ¬ runtime.transcript then
      throw (.other "fork without history= requires AgentRuntime(transcript=...)")
    else Code.ask (.transcript (.read src.conversation at_))

/-- `fork`: start `dst` from one point of `src`'s transcript. -/
def fork (src : ExecutionContext) (at_ : Option String) (dst : ExecutionContext)
    (owner : String) (options : Options) (prompt : Option Json)
    (history : Option (List Message)) (regate : Bool) : Code Outcome := do
  let history ← runtime.forkHistory src at_ history
  runtime.lease dst owner .fork fun token => do
    let copied ← copySteps src dst token (unansweredToolCalls history)
    runtime.attempt dst token options
      { prompt := prompt, messageHistory := some history,
        regate := if regate then copied else [] }

/-- `resolve_effect`: commit one trusted provider decision for an indeterminate tool call. -/
def resolveEffect (execution : ExecutionContext) (owner callId : String)
    (resolution : EffectResolution Record) (workersStopped : Bool) : Code (Step Record) :=
  runtime.lease execution owner .resolveEffect fun token =>
    execution.store.resolveEffect execution.branchId (stepKey callId) resolution workersStopped
      token

/-! ## Section 7: Observing -/

/-- `state`: the run's durable state from one observation. -/
def state (execution : ExecutionContext) : Code String := do
  let found ← AgentRuntime.active execution
  match found with
  | some active =>
    pure (match active.state with
      | .waiting => "waiting"
      | .resuming => "resuming")
  | none =>
    if ¬ runtime.transcript then pure "idle"
    else
      let record : Option Bool ← Code.ask (.transcript (.readBranch execution.branchId))
      pure (match record with
        | none => "fresh"
        | some true => "completed"
        | some false => "interrupted")

/-- `committed_history`. -/
def committedHistory (execution : ExecutionContext) : Code (List Message) :=
  if ¬ runtime.transcript then
    throw (.other "committed_history requires AgentRuntime(transcript=...)")
  else Code.ask (.transcript (.read execution.conversation none))

end AgentRuntime

end Semora
