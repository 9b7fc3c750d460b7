import Semora.Agent.Boundary
import Semora.Store.Holding

/-! # What the Boundary Does

    Every operation an agent can cause through the hooks: calls of the
    boundary's own branch that leave the lease and the suspension alone, and
    questions. So whatever the agent is, what an attempt does to its branch
    between `agent.run` and its end is known. -/

namespace Semora

open MemorySteps

/-! ## Section 1: The operations -/

theorem stepKey_ne_activeSuspension (callId : String) : stepKey callId ≠ activeSuspension := by
  intro h
  have hlist := congrArg String.toList h
  simp [stepKey, activeSuspension, String.toList_append] at hlist

theorem afterKey_ne_activeSuspension (callId : String) : afterKey callId ≠ activeSuspension := by
  intro h
  have hlist := congrArg String.toList h
  simp [afterKey, activeSuspension, String.toList_append] at hlist

theorem modelStepKey_ne_activeSuspension (digest : String) :
    modelStepKey digest ≠ activeSuspension := by
  intro h
  have hlist := congrArg String.toList h
  simp [modelStepKey, activeSuspension, String.toList_append] at hlist

theorem pendingRoundKey_ne_activeSuspension : pendingRoundKey ≠ activeSuspension := by decide

theorem stepKey_ne_afterKey (callId callId' : String) : stepKey callId ≠ afterKey callId' := by
  intro h
  have hlist := congrArg String.toList h
  simp [stepKey, afterKey, String.toList_append] at hlist

theorem afterKey_inj {callId callId' : String} (h : afterKey callId = afterKey callId') :
    callId = callId' := by
  have hlist := congrArg String.toList h
  simpa [afterKey, String.toList_append, String.toList_inj] using hlist

theorem stepKey_inj {callId callId' : String} (h : stepKey callId = stepKey callId') :
    callId = callId' := by
  have hlist := congrArg String.toList h
  simpa [stepKey, String.toList_append, String.toList_inj] using hlist

theorem modelStepKey_ne_stepKey (digest callId : String) :
    modelStepKey digest ≠ stepKey callId := by
  intro h
  have hlist := congrArg String.toList h
  simp [modelStepKey, stepKey, String.toList_append] at hlist

theorem modelStepKey_ne_afterKey (digest callId : String) :
    modelStepKey digest ≠ afterKey callId := by
  intro h
  have hlist := congrArg String.toList h
  simp [modelStepKey, afterKey, String.toList_append] at hlist

theorem modelStepKey_ne_pendingRoundKey (digest : String) :
    modelStepKey digest ≠ pendingRoundKey := by
  intro h
  have hlist := congrArg String.toList h
  simp [modelStepKey, pendingRoundKey, String.toList_append] at hlist

theorem pendingRoundKey_ne_stepKey (callId : String) : pendingRoundKey ≠ stepKey callId := by
  intro h
  have hlist := congrArg String.toList h
  simp [pendingRoundKey, stepKey, String.toList_append] at hlist

theorem pendingRoundKey_ne_afterKey (callId : String) : pendingRoundKey ≠ afterKey callId := by
  intro h
  have hlist := congrArg String.toList h
  simp [pendingRoundKey, afterKey, String.toList_append] at hlist

/-- The marks a boundary passes. -/
def Mark.atBoundary : Mark → Bool
  | .toolReturned .. => true
  | .toolsPrepared _ => true
  | .roundBegan => true
  | .toolEntered .. => true
  | .decided .. => true
  | _ => false

/-- The marks a boundary passes before a tool is invoked. -/
def Mark.beforeTool : Mark → Bool
  | .toolReturned .. => false
  | m => m.atBoundary

/-- What a boundary may do: calls on its own branch that leave the lease and the suspension
    alone, and questions; the model is asked only when no person has refused. -/
def BoundaryOp (boundary : ExecutionBoundary) : Op → Prop
  | .ledger op => op.branchId = boundary.store.name boundary.branchId ∧ op.owner? = none ∧
      activeSuspension ∉ op.keys
  | .ext (.model _) => boundary.cancelled = false
  | .ext (.mark m) => m.atBoundary = true
  | .ext _ => True

/-! ## Section 2: The journal -/

section only

variable {boundary : ExecutionBoundary} {φ : Op → Prop}

/-- The methods of the ledger that a boundary calls. -/
def LedgerOp.atBoundary {V : Type} : LedgerOp V → Bool
  | .read .. => true
  | .start .. => true
  | .finishEffect .. => true
  | .forget .. => true
  | .writeControl .. => true
  | .listInputs .. => true
  | .claimInput .. => true
  | .admitInputs .. => true
  | .discardInputs .. => true
  | _ => false

/-- `φ` allows what the boundary does to one step of its branch. -/
def PermitsKey (boundary : ExecutionBoundary) (φ : Op → Prop) (key : String) : Prop :=
  ∀ op : LedgerOp Record, op.branchId = boundary.store.name boundary.branchId →
    op.owner? = none → op.atBoundary = true → (∀ k ∈ op.keys, k = key) → φ (.ledger op)

/-- The questions that are no business of one tool call's result. -/
def External.asked : External → Bool
  | .onInputs .. => true
  | .beforeModel _ => true
  | .preToolUse .. => true
  | .beforeFinish .. => true
  | .onResume .. => true
  | .transcript (.append _) => true
  | _ => false

/-- `φ` allows what a boundary does without a message: it looks at its branch, moves queued inputs
    on and asks the controls. -/
structure PermitsControls (boundary : ExecutionBoundary) (φ : Op → Prop) : Prop where
  silent : ∀ op : LedgerOp Record, op.branchId = boundary.store.name boundary.branchId →
    op.owner? = none → op.atBoundary = true → op.keys = [] → φ (.ledger op)
  asked : ∀ e : External, e.asked = true → (∀ messages, e ≠ .transcript (.append messages)) →
    φ (.ext e)
  mark : ∀ m : Mark, m.beforeTool = true → φ (.ext (.mark m))

/-- `φ` allows what a boundary does in between: it records no round and invokes no tool. -/
structure PermitsTurns (boundary : ExecutionBoundary) (φ : Op → Prop) : Prop where
  modelStep : ∀ digest, PermitsKey boundary φ (modelStepKey digest)
  asked : ∀ e : External, e.asked = true → φ (.ext e)
  model : ∀ messages, boundary.cancelled = false → φ (.ext (.model messages))
  mark : ∀ m : Mark, m.beforeTool = true → φ (.ext (.mark m))

/-- `φ` allows everything a boundary does but to invoke a tool and to project its result. -/
structure Permits (boundary : ExecutionBoundary) (φ : Op → Prop) : Prop
    extends PermitsTurns boundary φ where
  pendingRound : PermitsKey boundary φ pendingRoundKey

theorem PermitsTurns.controls (hφ : PermitsTurns boundary φ) : PermitsControls boundary φ where
  silent op hbranch howner hcalled hkeys :=
    hφ.modelStep "" op hbranch howner hcalled (by simp [hkeys])
  asked e he _ := hφ.asked e he
  mark := hφ.mark

theorem asToolRecord_only (record : Option Record) : Code.Only φ (asToolRecord record) := by
  unfold asToolRecord
  split
  · exact Code.only_pure _
  · exact Code.only_throw _

theorem asResponse_only (record : Option Record) : Code.Only φ (asResponse record) := by
  unfold asResponse
  split
  · exact Code.only_pure _
  · exact Code.only_throw _

theorem decodeInput_only (record : Record) : Code.Only φ (decodeInput record) := by
  unfold decodeInput
  split
  · exact Code.only_pure _
  · exact Code.only_throw _

section keys

variable {key : String} (hkey : PermitsKey boundary φ key)

include hkey

/-- A call that writes no step. -/
theorem PermitsKey.silent {op : LedgerOp Record}
    (hbranch : op.branchId = boundary.store.name boundary.branchId) (howner : op.owner? = none)
    (hcalled : op.atBoundary = true) (hkeys : op.keys = []) : Code.Only φ (Code.ledger op) := by
  refine Code.only_ledger (hkey op hbranch howner hcalled ?_)
  rw [hkeys]
  simp

theorem read_only (key' : String) : Code.Only φ
    (boundary.journal.store.read boundary.journal.branchId key') :=
  hkey.silent rfl rfl rfl rfl

theorem forget_only : Code.Only φ
    (boundary.journal.store.forget boundary.journal.branchId key boundary.journal.token) :=
  Code.only_ledger (hkey _ rfl rfl rfl (by simp [LedgerOp.keys]))

theorem finish_only (value : Option Record) : Code.Only φ
    (boundary.journal.store.finishEffect boundary.journal.branchId key value
      boundary.journal.token) :=
  Code.only_ledger (hkey _ rfl rfl rfl (by simp [LedgerOp.keys]))

theorem write_only (value : Option Record) : Code.Only φ
    (boundary.journal.store.writeControl boundary.journal.branchId key value
      boundary.journal.token) :=
  Code.only_ledger (hkey _ rfl rfl rfl (by simp [LedgerOp.keys]))

theorem reclaim_only (step : Step Record) :
    Code.Only φ (boundary.journal.reclaim key step) := by
  refine Code.Only.ite (fun _ => ?_) fun _ => Code.only_pure _
  refine Code.Only.ite (fun _ => Code.only_throw _) fun _ => ?_
  exact forget_only hkey

theorem begin_only : Code.Only φ (boundary.journal.begin_ key) := by
  have hstart : Code.Only φ
      (boundary.journal.store.start boundary.journal.branchId key boundary.journal.token) :=
    Code.only_ledger (hkey _ rfl rfl rfl (by simp [LedgerOp.keys]))
  refine hstart.bind fun began => ?_
  cases began with
  | true => exact Code.only_pure _
  | false => exact (read_only hkey key).bind fun _ => Code.only_throw _

theorem commit_only (record : ToolRecord) :
    Code.Only φ (boundary.journal.commit key record) :=
  (finish_only hkey _).bind fun _ => Code.only_pure _

theorem execute_only {handler : Code Json}
    (hhandler : Code.Only φ handler) :
    Code.Only φ (boundary.journal.execute key handler) := by
  refine hhandler.attempt.bind fun outcome => ?_
  cases outcome with
  | ok value => exact commit_only hkey _
  | error e =>
    refine Code.Only.ite (fun _ => ?_) fun _ => ?_
    · exact (forget_only hkey).bind fun _ => Code.only_throw _
    · refine Code.Only.ite (fun _ => Code.only_throw _) fun _ => ?_
      exact commit_only hkey _

theorem model_only {handler : Code ModelResponse}
    (hhandler : Code.Only φ handler) :
    Code.Only φ (boundary.journal.model key handler) := by
  refine (read_only hkey key).bind fun step => ?_
  refine Code.Only.ite (fun _ => asResponse_only _) fun _ => ?_
  refine (reclaim_only hkey step).bind fun _ => ?_
  refine (begin_only hkey).bind fun _ => ?_
  have hcatch : ∀ e : Raised, Code.Only φ
      (if e = .cancelled then (throw e : Code ModelResponse) else do
        boundary.journal.store.forget boundary.journal.branchId key boundary.journal.token
        throw e) := by
    intro e
    refine Code.Only.ite (fun _ => Code.only_throw _) fun _ => ?_
    exact (forget_only hkey).bind fun _ => Code.only_throw _
  refine (hhandler.catch_ hcatch).bind fun response => ?_
  exact (finish_only hkey _).bind fun _ => Code.only_pure _

end keys

theorem tool_only {callId : String} (hkey : PermitsKey boundary φ (stepKey callId))
    {handler : Code Json} (hhandler : Code.Only φ handler) :
    Code.Only φ (boundary.journal.tool callId handler) := by
  refine (read_only hkey _).bind fun step => ?_
  refine Code.Only.ite (fun _ => Code.only_pure _) fun _ => ?_
  refine (reclaim_only hkey step).bind fun _ => ?_
  refine (begin_only hkey).bind fun _ => ?_
  exact execute_only hkey hhandler

theorem projectOnce_only {callId : String} (hkey : PermitsKey boundary φ (afterKey callId))
    (record : Option Record) {project : Option (ToolRecord → Code ToolRecord)}
    (hproject : ∀ f ∈ project, ∀ committed, Code.Only φ (f committed)) :
    Code.Only φ (boundary.journal.projectOnce callId record project) := by
  refine (read_only hkey _).bind fun journal => ?_
  refine Code.Only.ite (fun _ => ?_) fun _ => ?_
  · split
    · exact Code.only_pure _
    · exact Code.only_throw _
  · cases project with
    | none => exact Code.only_pure _
    | some f =>
      refine (asToolRecord_only record).bind fun committed => ?_
      refine (hproject f rfl committed).bind fun projected => ?_
      exact (write_only hkey _).bind fun _ => Code.only_pure _

/-! ## Section 3: The hooks -/

section controls

variable (hφ : PermitsControls boundary φ)

include hφ

theorem PermitsControls.only_ledger {op : LedgerOp Record}
    (hbranch : op.branchId = boundary.store.name boundary.branchId) (howner : op.owner? = none)
    (hcalled : op.atBoundary = true) (hkeys : op.keys = []) : Code.Only φ (Code.ledger op) :=
  Code.only_ledger (hφ.silent op hbranch howner hcalled hkeys)

theorem PermitsControls.only_mark {m : Mark} (h : m.beforeTool = true) :
    AttemptM.Only φ (AttemptM.mark m) :=
  AttemptM.only_code (Code.only_mark (hφ.mark m h))

theorem PermitsControls.only_ask {α : Type} {e : External} (heq : e.Reply = Except Raised α)
    (he : e.asked = true) (hother : ∀ messages, e ≠ .transcript (.append messages)) :
    AttemptM.Only φ (AttemptM.ask e heq) :=
  AttemptM.only_code (Code.only_ask heq (hφ.asked e he hother))

theorem claimRecords_only (represented : List String) (records : List (InputRecord Record)) :
    AttemptM.Only φ (boundary.inputs.claimRecords represented records) := by
  induction records with
  | nil => exact AttemptM.only_pure []
  | cons record rest ih =>
    refine AttemptM.only_state.bind fun st => AttemptM.Only.ite (fun _ => ih) fun _ => ?_
    have hclaim : Code.Only φ (boundary.inputs.store.claimInput
        boundary.inputs.branchId record.inputId boundary.inputs.token) :=
      hφ.only_ledger rfl rfl rfl rfl
    refine (AttemptM.only_code hclaim).bind fun _ => ?_
    refine (AttemptM.only_update _).bind fun _ => ?_
    refine (AttemptM.only_code (decodeInput_only _)).bind fun _ => ?_
    exact ih.bind fun _ => AttemptM.only_pure _

theorem claim_only (represented : List String) :
    AttemptM.Only φ (boundary.inputs.claim represented) := by
  have hlist : Code.Only φ
      (boundary.inputs.store.listInputs boundary.inputs.branchId) :=
    hφ.only_ledger rfl rfl rfl rfl
  exact (AttemptM.only_code hlist).bind fun records => claimRecords_only hφ _ records

theorem admitInputs_only (items : List PendingInput) :
    AttemptM.Only φ (boundary.inputs.admit_ items) := by
  refine AttemptM.Only.ite (fun _ => AttemptM.only_pure _) fun _ => AttemptM.only_code ?_
  exact hφ.only_ledger rfl rfl rfl rfl

theorem discardInputs_only (items : List PendingInput) :
    AttemptM.Only φ (boundary.inputs.discard items) := by
  refine AttemptM.Only.ite (fun _ => AttemptM.only_pure _) fun _ => AttemptM.only_code ?_
  exact hφ.only_ledger rfl rfl rfl rfl

theorem screen_only (here : Ctx) (pending inputs : List PendingInput) :
    AttemptM.Only φ (boundary.screen here pending inputs) := by
  refine AttemptM.Only.ite (fun _ => AttemptM.only_pure _) fun _ => ?_
  have hasked : AttemptM.Only φ (AttemptM.ask (.onInputs here inputs)) :=
    hφ.only_ask rfl rfl nofun
  refine hasked.bind fun screened => ?_
  cases screened with
  | inl screened => exact (discardInputs_only hφ _).bind fun _ => AttemptM.only_pure _
  | inr reason => exact AttemptM.only_pure _

theorem steer_only (ctx : RunContext) (request : ModelRequest)
    (pending inputs : List PendingInput) :
    AttemptM.Only φ (boundary.steer ctx request pending inputs) := by
  refine AttemptM.Only.ite (fun _ => AttemptM.only_pure _) fun _ => ?_
  refine AttemptM.only_state.bind fun st => ?_
  refine (screen_only hφ _ pending inputs).bind fun screened => ?_
  cases screened with
  | inr reason => exact AttemptM.only_pure _
  | inl inputs =>
    have hasked : ∀ here,
        AttemptM.Only φ (AttemptM.ask (α := TurnDecision) (.beforeModel here)) :=
      fun _ => hφ.only_ask rfl rfl nofun
    refine (hasked _).bind fun decision => ?_
    cases decision <;> exact AttemptM.only_pure _

theorem prepareTools_only (tools : List ToolDefinition) :
    AttemptM.Only φ (PolicyRunner.prepareTools tools) :=
  (hφ.only_mark rfl).bind fun _ =>
    (AttemptM.only_update _).bind fun _ => AttemptM.only_pure _

theorem callToolsNode_only (hround : PermitsKey boundary φ pendingRoundKey) (ctx : RunContext)
    (response : ModelResponse) : AttemptM.Only φ (boundary.callToolsNode ctx response) := by
  have hbegun : AttemptM.Only φ PolicyRunner.beginToolRound :=
    (hφ.only_mark rfl).bind fun _ => AttemptM.only_update _
  refine (AttemptM.only_update _).bind fun _ => hbegun.bind fun _ => ?_
  refine AttemptM.Only.ite (fun _ => AttemptM.only_pure _) fun _ => AttemptM.only_code ?_
  exact write_only hround _

theorem decideFinish_only (ctx : RunContext) (output : Json) :
    AttemptM.Only φ (boundary.decideFinish ctx output) := by
  refine (claim_only hφ _).bind fun late => ?_
  refine AttemptM.Only.ite (fun _ => (AttemptM.only_update _).bind fun _ =>
    AttemptM.only_pure _) fun _ => ?_
  refine AttemptM.Only.ite (fun _ => (AttemptM.only_update _).bind fun _ =>
    AttemptM.only_pure _) fun _ => ?_
  refine AttemptM.only_state.bind fun st => ?_
  have hasked : ∀ here, AttemptM.Only φ
      (AttemptM.ask (α := TurnDecision) (.beforeFinish here .completed)) :=
    fun _ => hφ.only_ask rfl rfl nofun
  refine (hasked _).bind fun decision => ?_
  cases decision with
  | proceed steers => exact AttemptM.only_pure _
  | halt reason => exact (AttemptM.only_update _).bind fun _ => AttemptM.only_pure _

theorem choose_only (here : Ctx) (call : ToolCall) (args : Json) (approved recorded : Bool) :
    AttemptM.Only φ
      (boundary.policy.choose here call args approved recorded) := by
  refine AttemptM.Only.ite (fun _ => AttemptM.only_pure _) fun _ => ?_
  refine AttemptM.Only.ite (fun _ => ?_) fun _ => ?_
  · unfold PolicyRunner.resumeDecision
    split
    · exact hφ.only_ask rfl rfl nofun
    · exact AttemptM.only_pure _
  · have hasked : AttemptM.Only φ (boundary.policy.preToolUse here call) :=
      AttemptM.Only.ite (fun _ => hφ.only_ask rfl rfl nofun)
        fun _ => AttemptM.only_pure _
    refine hasked.bind fun asked => AttemptM.only_state.bind fun st => ?_
    exact AttemptM.Only.ite (fun _ => AttemptM.only_pure _) fun _ => AttemptM.only_pure _

theorem decideTool_only (here : Ctx) (call : ToolCall) (args : Json)
    (approved recorded : Bool) :
    AttemptM.Only φ
      (boundary.policy.decideTool here call args approved recorded) := by
  refine (choose_only hφ here call args approved recorded).bind fun decision => ?_
  have hsuspension : AttemptM.Only φ
      (PolicyRunner.enterSuspension call decision) := by
    cases decision with
    | suspend request =>
      exact AttemptM.Only.ite (fun _ => AttemptM.only_update _) fun _ => AttemptM.only_throw _
    | «continue» => exact AttemptM.only_pure _
    | deny result => exact AttemptM.only_pure _
  refine hsuspension.bind fun _ => (AttemptM.only_update _).bind fun _ => ?_
  exact (hφ.only_mark rfl).bind fun _ => AttemptM.only_pure _

theorem beforeToolExecute_only (ctx : RunContext) (tool : ToolDefinition) (call : ToolCall)
    (args : Json) (approved : Bool) :
    AttemptM.Only φ
      (boundary.beforeToolExecute ctx tool call args approved) := by
  refine (hφ.only_mark rfl).bind fun _ => ?_
  refine AttemptM.only_state.bind fun st => ?_
  have hread : Code.Only φ
      (boundary.journal.store.read boundary.journal.branchId (stepKey call.toolCallId)) :=
    hφ.only_ledger rfl rfl rfl rfl
  have hrecorded : Code.Only φ (boundary.journal.recorded call.toolCallId) :=
    hread.bind fun _ => Code.only_pure _
  refine (AttemptM.only_code hrecorded).bind fun recorded => ?_
  refine (decideTool_only hφ _ call args approved recorded).bind fun decision => ?_
  cases decision with
  | «continue» => exact AttemptM.only_pure _
  | deny result => exact AttemptM.only_throw _
  | suspend request => exact AttemptM.only_throw _

end controls

section hooks

variable (hφ : PermitsTurns boundary φ)

include hφ

theorem record_only (messages : List Message) :
    AttemptM.Only φ (boundary.record messages) :=
  AttemptM.Only.ite
    (fun _ => AttemptM.only_code
      (Code.only_ask rfl (hφ.asked (.transcript (.append messages)) rfl)))
    fun _ => AttemptM.only_pure _

theorem admit_only (ctx : RunContext) (request : ModelRequest) :
    AttemptM.Only φ (boundary.admit_ ctx request) := by
  refine AttemptM.only_state.bind fun st => (AttemptM.only_update _).bind fun _ => ?_
  refine (claim_only hφ.controls _).bind fun claimed => ?_
  refine (steer_only hφ.controls ctx request _ _).bind fun steered => ?_
  cases steered with
  | inr reason => exact AttemptM.only_pure _
  | inl passed =>
    refine (record_only hφ _).bind fun _ => ?_
    exact (admitInputs_only hφ.controls _).bind fun _ => AttemptM.only_pure _

theorem modelRequestNode_only (digest : List Message → List ToolDefinition → String)
    (ctx : RunContext) (request : ModelRequest) (tools : List ToolDefinition) :
    AttemptM.Only φ (boundary.modelRequestNode digest ctx request tools) := by
  have hhalt : ∀ reason joined,
      AttemptM.Only φ (ExecutionBoundary.halt ctx reason joined) :=
    fun _ _ => (AttemptM.only_update _).bind fun _ => AttemptM.only_pure _
  refine (AttemptM.only_update _).bind fun _ => ?_
  refine AttemptM.Only.ite (fun _ => hhalt _ _) fun hcancelled => ?_
  refine (admit_only hφ ctx request).bind fun admitted => ?_
  cases admitted with
  | inr reason => exact hhalt _ _
  | inl request =>
    refine (prepareTools_only hφ.controls tools).bind fun prepared => ?_
    have hmodel : Code.Only φ
        (Code.ask (.model (ctx.messages ++ [.request request]))) :=
      Code.only_ask rfl (hφ.model _ (by simpa using hcancelled))
    refine (AttemptM.only_code (model_only (hφ.modelStep _) hmodel)).bind fun response => ?_
    exact AttemptM.only_pure _

theorem toolsCalledNode_only (ctx : RunContext) (response : ModelResponse)
    (result : NodeResult) :
    AttemptM.Only φ (boundary.toolsCalledNode ctx response result) := by
  cases result with
  | deferred requests => exact AttemptM.only_pure _
  | next request => exact (record_only hφ _).bind fun _ => AttemptM.only_pure _
  | finished output =>
    exact (record_only hφ _).bind fun _ => decideFinish_only hφ.controls ctx output

end hooks

/-- `φ` allows to invoke tools and to project their results as well. -/
structure PermitsTools (boundary : ExecutionBoundary) (φ : Op → Prop) : Prop
    extends Permits boundary φ where
  step : ∀ callId, PermitsKey boundary φ (stepKey callId)
  after : ∀ callId, PermitsKey boundary φ (afterKey callId)
  handler : ∀ call args, φ (.ext (.handler call args))
  returned : ∀ callId result, φ (.ext (.mark (.toolReturned callId result)))
  postToolUse : ∀ here call record, φ (.ext (.postToolUse here call record))

section tools

variable (hφ : PermitsTools boundary φ)

include hφ

omit hφ in
/-- What follows the journal's answer: the projection, and the record as a result. -/
theorem project_only {call : ToolCall} (hkey : PermitsKey boundary φ (afterKey call.toolCallId))
    (hpost : ∀ here record, φ (.ext (.postToolUse here call record))) (here : Ctx)
    (record : Option Record) :
    AttemptM.Only φ (do
      let record ← AttemptM.code (boundary.journal.projectOnce call.toolCallId record
        (if boundary.policy.controls then some (boundary.policy.afterTool here call) else none))
      let record ← AttemptM.code (asToolRecord record)
      match record with
      | .ok value => pure value
      | .failed error => throw (.toolFailed error)) := by
  refine (AttemptM.only_code (projectOnce_only hkey record ?_)).bind fun projected => ?_
  · intro f hf committed
    split at hf
    · obtain rfl := Option.some.inj hf
      refine Code.Only.ite (fun _ => Code.only_pure _) fun _ => ?_
      have hasked : Code.Only φ (Code.ask (.postToolUse here call committed)) :=
        Code.only_ask rfl (hpost _ _)
      refine hasked.bind fun result => ?_
      -- The hook's answer is not used: the record is passed on as it is after it.
      cases committed <;> exact Code.only_pure _
    · cases hf
  · refine (AttemptM.only_code (asToolRecord_only _)).bind fun record => ?_
    cases record with
    | ok value => exact AttemptM.only_pure _
    | failed error => exact AttemptM.only_throw _

theorem wrapToolExecute_only (ctx : RunContext) (tool : ToolDefinition) (call : ToolCall)
    (args : Json) : AttemptM.Only φ (boundary.wrapToolExecute ctx tool call args) := by
  have hhandler : Code.Only φ (Code.ask (.handler call args)) :=
    Code.only_ask rfl (hφ.handler call args)
  refine (AttemptM.only_code (tool_only (hφ.step _) hhandler)).bind fun record => ?_
  refine (AttemptM.only_code (Code.only_mark (hφ.returned _ _))).bind fun _ => ?_
  refine AttemptM.only_state.bind fun st => ?_
  exact project_only (hφ.after _) (fun here record => hφ.postToolUse here call record) _ record

/-- The hooks do nothing else. -/
theorem hook_only (digest : List Message → List ToolDefinition → String) (o : NodeOp) :
    AttemptM.Only φ (boundary.hook digest o) := by
  cases o with
  | modelRequest ctx request tools =>
    exact modelRequestNode_only hφ.toPermitsTurns digest ctx request tools
  | prepareTools tools => exact prepareTools_only hφ.toPermitsTurns.controls tools
  | callTools ctx response =>
    exact callToolsNode_only hφ.toPermitsTurns.controls hφ.pendingRound ctx response
  | tool ctx tool call args approved =>
    exact (beforeToolExecute_only hφ.toPermitsTurns.controls ctx tool call args approved).bind fun args =>
      wrapToolExecute_only hφ ctx tool call args
  | toolsCalled ctx response result =>
    exact toolsCalledNode_only hφ.toPermitsTurns ctx response result

/-- **Whatever the agent does**, what is done under the boundary is the boundary's. -/
theorem drive_only {α : Type} (digest : List Message → List ToolDefinition → String)
    (program : AgentProg α) : AttemptM.Only φ (boundary.drive digest program) := by
  induction program with
  | pure a => exact AttemptM.only_pure a
  | perform o next ih => exact (hook_only hφ digest o).attempt.bind fun r => ih r

end tools

end only

theorem permitsKey_boundaryOp (boundary : ExecutionBoundary) {key : String}
    (hkey : key ≠ activeSuspension) : PermitsKey boundary (BoundaryOp boundary) key :=
  fun _ hbranch howner _ hkeys => ⟨hbranch, howner, fun hmem => hkey (hkeys _ hmem).symm⟩

/-- What the boundary does leaves the lease and the suspension alone. -/
theorem permitsTools_boundaryOp (boundary : ExecutionBoundary) :
    PermitsTools boundary (BoundaryOp boundary) where
  pendingRound := permitsKey_boundaryOp boundary pendingRoundKey_ne_activeSuspension
  modelStep _ := permitsKey_boundaryOp boundary (modelStepKey_ne_activeSuspension _)
  asked e he := by
    cases e with
    | mark m => cases he
    | model messages => cases he
    | _ => trivial
  model _ hcancelled := hcancelled
  mark m h := by
    cases m with
    | toolReturned callId result => cases h
    | _ => exact h
  step _ := permitsKey_boundaryOp boundary (stepKey_ne_activeSuspension _)
  after _ := permitsKey_boundaryOp boundary (afterKey_ne_activeSuspension _)
  handler _ _ := trivial
  returned _ _ := rfl
  postToolUse _ _ _ := trivial

/-! ## Section 4: A refused round -/

/-- A node that neither requests the model nor ends the run. -/
def NodeOp.leadsOn : NodeOp → Bool
  | .modelRequest .. => false
  | .toolsCalled _ _ (.finished _) => false
  | _ => true

/-- A run that is handed the results of its calls: it raises, or defers again, or they reach
    the model in a request; and a request that is halted ends the run. -/
inductive ReportsResults : AgentProg (Except Raised RunResult) → Prop where
  | raised (e : Raised) : ReportsResults (.pure (.error e))
  | deferred (requests : DeferredToolRequests) (messages : List Message) :
      ReportsResults (.pure (.ok ⟨.deferred requests, messages⟩))
  | request {ctx : RunContext} {request : ModelRequest} {tools : List ToolDefinition}
      {next : Except Raised ModelResult → AgentProg (Except Raised RunResult)}
      (h : ∀ joined output, ∃ r, next (.ok (.halted joined output)) = .pure r) :
      ReportsResults (.perform (.modelRequest ctx request tools) next)
  | step {o : NodeOp} {next : Except Raised o.Result → AgentProg (Except Raised RunResult)}
      (ho : o.leadsOn = true) (h : ∀ r, ReportsResults (next r)) :
      ReportsResults (.perform o next)

/-- The agent's graph: a run that is handed results reports them. It makes another request of the
    model with them, or ends deferred, or raises; it does not answer by itself. Pydantic AI's graph
    is one such agent, `toolAgent` another. -/
def Agent.Reports (agent : Agent) : Prop :=
  ∀ start : RunStart, start.approvals.isSome → ReportsResults (agent.run start)

/-- A run that returns an output was aborted. -/
def EndsAborted (r : Except Raised (Except Raised RunResult) × AttemptState) : Prop :=
  ∀ result output, r.1 = .ok (.ok result) → result.output = .text output →
    r.2.stopReason = some .aborted

/-- **A refused round is not handed to the model**: under a boundary that was told of a
    refusal, a run that is handed results asks the model nothing, and ends aborted. -/
theorem drive_cancelled {boundary : ExecutionBoundary} (hcancelled : boundary.cancelled = true)
    (digest : List Message → List ToolDefinition → String)
    {program : AgentProg (Except Raised RunResult)} (h : ReportsResults program)
    (st : AttemptState) :
    ((boundary.drive digest program).runFrom st).Ensures (BoundaryOp boundary) EndsAborted := by
  induction h generalizing st with
  | raised e =>
    intro result output hresult
    cases hresult
  | deferred requests messages =>
    intro result output hresult htext
    cases hresult
    cases htext
  | @request ctx request tools next hnext =>
    -- the only request such a run makes is halted on the spot
    obtain ⟨r, hr⟩ := hnext true (lastText ctx.messages)
    have hhalted :
        (boundary.drive digest (.perform (.modelRequest ctx request tools) next)).runFrom st
        = (boundary.drive digest (.pure r)).runFrom
            { st with turn := ctx.runStep, stopReason := some .aborted } := by
      rw [← hr]
      change (AttemptM.attempt (boundary.modelRequestNode digest ctx request tools) >>=
        fun r => boundary.drive digest (next r)).runFrom st = _
      rw [AttemptM.bind_runFrom]
      unfold ExecutionBoundary.modelRequestNode
      rw [if_pos hcancelled]
      rfl
    rw [hhalted]
    exact fun _ _ _ _ => rfl
  | @step o next ho hnext ih =>
    change ((AttemptM.attempt (boundary.hook digest o) >>=
      fun r => boundary.drive digest (next r)).runFrom st).Ensures _ _
    rw [AttemptM.bind_runFrom]
    refine Prog.Ensures.bind ((hook_only (permitsTools_boundaryOp boundary) digest o).attempt st) fun r _ => ?_
    obtain ⟨r, st'⟩ := r
    cases r with
    | ok r => exact ih r st'
    | error e =>
      intro result output hresult
      cases hresult

end Semora
