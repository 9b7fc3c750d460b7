import Semora.Agent.BranchFinalize
import Semora.Agent.ForkAttempt
import Semora.Agent.RuntimeOps
import Semora.Store.Versions

/-! # The Methods Under a Monitor

    Around `agent.run` and the lease, the methods of the runtime do nothing
    that most monitors care for: they read, mark, ask the transcript, queue
    inputs, and write the suspension. So whatever a monitor says of an attempt
    and of the lease, it says of every request of a worker. -/

namespace Semora

open Pool

/-! ## Section 1: The keys of effects -/

/-- The key of an effect: a tool's step, or a model request's. -/
def EffectKey (key : String) : Prop :=
  (∃ callId, key = stepKey callId) ∨ ∃ digest, key = modelStepKey digest

theorem afterKey_not_effect (callId : String) : ¬ EffectKey (afterKey callId) := by
  rintro (⟨callId', heq⟩ | ⟨digest, heq⟩)
  · exact stepKey_ne_afterKey callId' callId heq.symm
  · exact modelStepKey_ne_afterKey digest callId heq.symm

theorem pendingRoundKey_not_effect : ¬ EffectKey pendingRoundKey := by
  rintro (⟨callId, heq⟩ | ⟨digest, heq⟩)
  · exact pendingRoundKey_ne_stepKey callId heq
  · exact modelStepKey_ne_pendingRoundKey digest heq.symm

theorem activeSuspension_not_effect : ¬ EffectKey activeSuspension := by
  rintro (⟨callId, heq⟩ | ⟨digest, heq⟩)
  · exact stepKey_ne_activeSuspension callId heq.symm
  · exact modelStepKey_ne_activeSuspension digest heq.symm

theorem suspendKey_not_effect (callId : String) : ¬ EffectKey (suspendKey callId) := by
  rintro (⟨callId', heq⟩ | ⟨digest, heq⟩)
  · exact Forking.stepKey_ne_suspendKey callId' callId heq.symm
  · have hlist := congrArg String.toList heq
    simp [suspendKey, modelStepKey, String.toList_append] at hlist

/-! ## Section 2: Plain operations -/

/-- What the methods do besides an attempt and its lease: they invoke nothing, clear nothing, take
    no lease, and write no effect as control state. -/
def Op.Plain : Op → Prop
  | .ext (.handler ..) => False
  | .ext (.model _) => False
  | .ext (.mark (.leasing _)) => False
  | .ledger op => op.owner? = none ∧ (∀ b key token, op ≠ .forget b key token) ∧
      ∀ key ∈ op.controlKeys, ¬ EffectKey key
  | _ => True

section plain

variable {execution : ExecutionContext} {runtime : AgentRuntime}

/-- A park writes the suspension and the index of its calls. -/
theorem park_plain (active : Suspension) (token : Int) (b : String) :
    Op.Plain (.ledger (.commitTransition b (AgentRuntime.parkWrites active) token)) := by
  refine ⟨rfl, nofun, fun key hkey => ?_⟩
  obtain rfl | ⟨callId, rfl⟩ := Forking.parkWrites_keys hkey
  · exact activeSuspension_not_effect
  · exact suspendKey_not_effect callId

theorem suspension_plain (value : Option Record) (token : Int) :
    Code.Only Op.Plain
      (execution.store.writeControl execution.branchId activeSuspension value token) := by
  refine Code.only_ledger ⟨rfl, nofun, fun key hkey => ?_⟩
  rw [List.mem_singleton.mp hkey]
  exact activeSuspension_not_effect

theorem active_plain : Code.Only Op.Plain (AgentRuntime.active execution) :=
  active_only ⟨rfl, nofun, nofun⟩

theorem submit_plain (item : PendingInput) :
    Code.Only Op.Plain (AgentRuntime.submit execution item) :=
  submit_only trivial (fun _ _ => ⟨rfl, nofun, nofun⟩) item

theorem announceParked_plain (promptId : Option String) (prompt : Option Json) :
    Code.Only Op.Plain (AgentRuntime.announceParked execution promptId prompt) :=
  announceParked_only ⟨rfl, nofun, nofun⟩ submit_plain _ _

theorem deliverPrompt_plain (token : Int) (prompt : Option Json) (promptId : Option String) :
    Code.Only Op.Plain (AgentRuntime.deliverPrompt execution token prompt promptId) :=
  deliverPrompt_only (fun _ _ => ⟨rfl, nofun, nofun⟩) (fun _ _ => ⟨rfl, nofun, nofun⟩) _ _ _

theorem state_plain : Code.Only Op.Plain (runtime.state execution) :=
  state_only ⟨rfl, nofun, nofun⟩ trivial

theorem committedHistory_plain : Code.Only Op.Plain (runtime.committedHistory execution) :=
  committedHistory_only trivial

theorem forkHistory_plain (src : ExecutionContext) (at_ : Option String)
    (history : Option (List Message)) :
    Code.Only Op.Plain (runtime.forkHistory src at_ history) := by
  cases history with
  | some history => exact Code.only_pure _
  | none =>
    exact Code.Only.ite (fun _ => Code.only_throw _) fun _ => Code.only_ask rfl trivial

/-- What a fork copies is started and not invoked. -/
theorem copySteps_plain (src : ExecutionContext) (token : Int) (calls : List ToolCall) :
    Code.Only Op.Plain (AgentRuntime.copySteps src execution token calls) := by
  induction calls with
  | nil => exact Code.only_pure _
  | cons call calls ih =>
    have hread : Code.Only Op.Plain (src.store.read src.branchId (stepKey call.toolCallId)) :=
      Code.only_ledger ⟨rfl, nofun, nofun⟩
    have hstart : Code.Only Op.Plain
        (execution.store.start execution.branchId (stepKey call.toolCallId) token) :=
      Code.only_ledger ⟨rfl, nofun, nofun⟩
    refine hread.bind fun record => Code.Only.ite (fun _ => ih) fun _ => ?_
    refine hstart.bind fun started => Code.Only.ite (fun _ => ih) fun _ => ?_
    refine Code.Only.ite (fun _ => ?_) fun _ => ih
    exact (Code.only_ledger ⟨rfl, nofun, nofun⟩).bind fun _ => ih.bind fun _ => Code.only_pure _

end plain

/-! ## Section 3: Code that abides by a monitor -/

section keeps

variable {μ α β : Type} (M : Monitor Op Op.Reply μ) (P : μ → Prop)

/-- Whatever comes of it, the code abides by the monitor and keeps `P`. -/
abbrev Code.Abides (x : Code α) : Prop := Code.Watched M P x (fun _ => P) fun _ => P

/-- Code of an attempt that abides by the monitor and keeps `P`. -/
abbrev AttemptM.Abides (x : AttemptM α) : Prop :=
  AttemptM.Watched M (fun _ => P) x (fun _ _ => P) fun _ _ => P

/-- What may be done whenever `P` holds, and keeps it. -/
def Op.Routine (o : Op) : Prop := ∀ m, P m → M.allows m o ∧ ∀ r, P (M.next m o r)

variable {M P} {φ : Op → Prop}

theorem Code.Only.abides {x : Code α} (hx : Code.Only φ x)
    (hroutine : ∀ o, φ o → o.Routine M P) : Code.Abides M P x := hx.watched hroutine

theorem AttemptM.Only.abides {x : AttemptM α} (hx : AttemptM.Only φ x)
    (hroutine : ∀ o, φ o → o.Routine M P) : AttemptM.Abides M P x := hx.watched hroutine

theorem Code.Abides.bind {x : Code α} {f : α → Code β} (hx : Code.Abides M P x)
    (hf : ∀ a, Code.Abides M P (f a)) : Code.Abides M P (x >>= f) := Code.Watched.bind hx hf

theorem Code.abides_pure (a : α) : Code.Abides M P (pure a) := Code.Watched.pure fun _ h => h

theorem Code.abides_throw (e : Raised) : Code.Abides M P (throw e : Code α) :=
  Code.Watched.throw fun _ h => h

theorem Code.abides_ofExcept (r : Except Raised α) : Code.Abides M P (Code.ofExcept r) := by
  cases r with
  | ok a => exact Code.abides_pure a
  | error e => exact Code.abides_throw e

/-- `try: … finally: …`, where the last part leads from what the body leaves to `P'`. -/
theorem Code.Abides.finally_ {P' : μ → Prop} {x : Code α} {last : Code Unit}
    (hx : Code.Abides M P x) (hlast : Code.Watched M P last (fun _ => P') fun _ => P') :
    Code.Watched M P (Code.finally_ x last) (fun _ => P') fun _ => P' := by
  refine fun m hm => Prog.Obeys.bind (hx m hm) ?_
  rintro (e | a) m' h
  · refine Prog.Obeys.bind (hlast m' h) ?_
    rintro (_ | ⟨⟩) m'' h'
    · exact h'
    · exact h'
  · refine Prog.Obeys.bind (hlast m' h) ?_
    rintro (_ | ⟨⟩) m'' h'
    · exact h'
    · exact h'

theorem Code.Abides.discard {x : Code α} (hx : Code.Abides M P x) :
    Code.Abides M P (Code.discard x) := hx.bind fun _ => Code.abides_pure ()

end keeps

/-! ## Section 4: The hooks -/

section hooks

variable (boundary : ExecutionBoundary)

/-- Everything but the journal's own operations is plain. -/
theorem plain_controls : PermitsControls boundary Op.Plain where
  silent op _ howner _ hkeys := by
    refine ⟨howner, fun b key token heq => ?_, fun key hkey => ?_⟩
    · subst heq
      cases hkeys
    · have hmem := LedgerOp.keys_of_controlKeys hkey
      rw [hkeys] at hmem
      cases hmem
  asked e he _ := by
    cases e with
    | handler call args => cases he
    | model messages => cases he
    | mark m => cases he
    | _ => trivial
  mark m hm := by
    cases m with
    | leasing method => cases hm
    | _ => trivial

variable {boundary}

theorem record_plain (messages : List Message) :
    AttemptM.Only Op.Plain (boundary.record messages) :=
  AttemptM.Only.ite (fun _ => AttemptM.only_code (Code.only_ask rfl trivial))
    fun _ => AttemptM.only_pure _

theorem admit_plain (ctx : RunContext) (request : ModelRequest) :
    AttemptM.Only Op.Plain (boundary.admit_ ctx request) := by
  refine AttemptM.only_state.bind fun st => (AttemptM.only_update _).bind fun _ => ?_
  refine (claim_only (plain_controls boundary) _).bind fun claimed => ?_
  refine (steer_only (plain_controls boundary) ctx request _ _).bind fun steered => ?_
  cases steered with
  | inr reason => exact AttemptM.only_pure _
  | inl passed =>
    refine (record_plain _).bind fun _ => ?_
    exact (admitInputs_only (plain_controls boundary) _).bind fun _ => AttemptM.only_pure _

theorem afterTool_plain (here : Ctx) (call : ToolCall) (record : ToolRecord) :
    Code.Only Op.Plain (boundary.policy.afterTool here call record) := by
  refine Code.Only.ite (fun _ => Code.only_pure _) fun _ => ?_
  have hasked : Code.Only Op.Plain
      (Code.ask (.postToolUse here call record)) := Code.only_ask rfl trivial
  refine hasked.bind fun result => ?_
  cases record <;> exact Code.only_pure _

/-- `project_once` reads the marker and may write it. -/
theorem projectOnce_plain (here : Ctx) (call : ToolCall) (record : Option Record) :
    Code.Only Op.Plain (boundary.journal.projectOnce call.toolCallId record
      (if boundary.policy.controls then some (boundary.policy.afterTool here call) else none)) := by
  have hread : Code.Only Op.Plain
      (boundary.journal.store.read boundary.journal.branchId (afterKey call.toolCallId)) :=
    Code.only_ledger ⟨rfl, nofun, nofun⟩
  refine hread.bind fun journal => Code.Only.ite (fun _ => ?_) fun _ => ?_
  · split
    · exact Code.only_pure _
    · exact Code.only_throw _
  · by_cases hcontrols : boundary.policy.controls = true
    · rw [if_pos hcontrols]
      refine (asToolRecord_only record).bind fun committed => ?_
      refine (afterTool_plain here call committed).bind fun projected => ?_
      have hwrite : Code.Only Op.Plain
          (boundary.journal.store.writeControl boundary.journal.branchId
            (afterKey call.toolCallId) (some (.after projected)) boundary.journal.token) :=
        Code.only_ledger ⟨rfl, nofun, fun key hkey => by
          rw [List.mem_singleton.mp hkey]
          exact afterKey_not_effect _⟩
      exact hwrite.bind fun _ => Code.only_pure _
    · rw [if_neg hcontrols]
      exact Code.only_pure _

/-- `_record_pending` writes the round. -/
theorem callToolsNode_plain (ctx : RunContext) (response : ModelResponse) :
    AttemptM.Only Op.Plain (boundary.callToolsNode ctx response) := by
  have hbegun : AttemptM.Only Op.Plain PolicyRunner.beginToolRound :=
    (AttemptM.only_code (Code.only_mark trivial)).bind fun _ => AttemptM.only_update _
  refine (AttemptM.only_update _).bind fun _ => hbegun.bind fun _ => ?_
  refine AttemptM.Only.ite (fun _ => AttemptM.only_pure _) fun _ => AttemptM.only_code ?_
  refine Code.only_ledger ⟨rfl, nofun, fun key hkey => ?_⟩
  rw [List.mem_singleton.mp hkey]
  exact pendingRoundKey_not_effect

theorem toolsCalledNode_plain (ctx : RunContext) (response : ModelResponse) (result : NodeResult) :
    AttemptM.Only Op.Plain (boundary.toolsCalledNode ctx response result) := by
  cases result with
  | deferred requests => exact AttemptM.only_pure _
  | next request => exact (record_plain _).bind fun _ => AttemptM.only_pure _
  | finished output =>
    refine (record_plain _).bind fun _ => ?_
    exact decideFinish_only (plain_controls boundary) ctx output

variable {μ : Type} {M : Monitor Op Op.Reply μ} {P : μ → Prop}
  {digest : List Message → List ToolDefinition → String}
  (hplain : ∀ o : Op, o.Plain → o.Routine M P)
  (hmodel : ∀ messages tools, Code.Abides M P (boundary.journal.model
    (modelStepKey (digest messages tools)) (Code.ask (.model messages))))
  (htool : ∀ call args,
    Code.Abides M P (boundary.journal.tool call.toolCallId (Code.ask (.handler call args))))

include hplain

include hmodel in
theorem modelRequestNode_abides (ctx : RunContext) (request : ModelRequest)
    (tools : List ToolDefinition) :
    AttemptM.Abides M P (boundary.modelRequestNode digest ctx request tools) := by
  have hhalt : ∀ reason joined, AttemptM.Only Op.Plain
      (ExecutionBoundary.halt ctx reason joined) :=
    fun _ _ => (AttemptM.only_update _).bind fun _ => AttemptM.only_pure _
  refine AttemptM.Watched.bind (Q := fun _ _ => P)
    (AttemptM.Watched.update fun _ _ h => h) fun _ => ?_
  refine AttemptM.Watched.ite (fun _ => (hhalt _ _).abides hplain) fun _ => ?_
  refine ((admit_plain ctx request).abides hplain).bind fun admitted => ?_
  cases admitted with
  | inr reason => exact (hhalt _ _).abides hplain
  | inl request =>
    refine ((prepareTools_only (plain_controls boundary) tools).abides hplain).bind
      fun prepared => ?_
    refine AttemptM.Watched.bind (AttemptM.Watched.code fun _ => hmodel _ _) fun response => ?_
    exact AttemptM.Watched.pure fun _ _ h => h

include htool in
theorem wrapToolExecute_abides (ctx : RunContext) (tool : ToolDefinition) (call : ToolCall)
    (args : Json) : AttemptM.Abides M P (boundary.wrapToolExecute ctx tool call args) := by
  refine AttemptM.Watched.bind (AttemptM.Watched.code fun _ => htool call args) fun record => ?_
  refine AttemptM.Only.abides (φ := Op.Plain) ?_ hplain
  refine (AttemptM.only_code (Code.only_mark trivial)).bind fun _ => ?_
  refine AttemptM.only_state.bind fun st => ?_
  refine (AttemptM.only_code (projectOnce_plain _ call record)).bind fun projected => ?_
  refine (AttemptM.only_code (asToolRecord_only _)).bind fun record => ?_
  cases record with
  | ok value => exact AttemptM.only_pure _
  | failed error => exact AttemptM.only_throw _

include hmodel htool

/-- **A hook** abides by a monitor that the journal abides by. -/
theorem hook_abides (o : NodeOp) :
    AttemptM.Abides M P (boundary.hook digest o) := by
  cases o with
  | modelRequest ctx request tools =>
    exact modelRequestNode_abides hplain hmodel ctx request tools
  | prepareTools tools => exact (prepareTools_only (plain_controls boundary) tools).abides hplain
  | callTools ctx response => exact (callToolsNode_plain ctx response).abides hplain
  | tool ctx tool call args approved =>
    have hbefore := beforeToolExecute_only (plain_controls boundary) ctx tool call args approved
    exact AttemptM.Watched.bind (hbefore.abides hplain) fun args =>
      wrapToolExecute_abides hplain htool ctx tool call args
  | toolsCalled ctx response result =>
    exact (toolsCalledNode_plain ctx response result).abides hplain

/-- **Whatever the agent does.** -/
theorem drive_abides {α : Type} (program : AgentProg α) :
    AttemptM.Abides M P (boundary.drive digest program) := by
  induction program with
  | pure a => exact AttemptM.Watched.pure fun _ _ h => h
  | perform o next ih =>
    have hhook := hook_abides hplain hmodel htool o
    refine (AttemptM.Watched.attempt hhook).bind fun r => ?_
    cases r with
    | ok a => exact ih (.ok a)
    | error e => exact ih (.error e)

theorem runAgent_abides {agent : Agent} (hdigest : agent.digest = digest) (start : RunStart) :
    Code.Abides M P (AgentRuntime.runAgent boundary agent start) := by
  subst hdigest
  rw [AgentRuntime.runAgent_eq]
  have hdrive := drive_abides hplain hmodel htool (agent.run start) {}
  refine Code.Watched.bind (hdrive.mono (fun _ h => h) (fun _ _ h => h) fun _ _ h => h.elim) ?_
  rintro ⟨e | (e | result), st⟩
  · exact Code.Watched.throw fun _ h => h
  · exact Code.Watched.throw fun _ h => h
  · exact Code.Watched.pure fun _ h => h

end hooks

/-- `_attempt`, of a journal that abides: it is asked only for the steps of the attempt's own
    boundary, and model requests only under the keys that the attempt's agent gives them. -/
theorem attempt_abides {μ : Type} {M : Monitor Op Op.Reply μ} {P : μ → Prop}
    {runtime : AgentRuntime} {execution : ExecutionContext} {options : Options} {token : Int}
    {args : AttemptArgs} (hplain : ∀ o : Op, o.Plain → o.Routine M P)
    (hmodel : ∀ messages tools, Code.Abides M P
      ((runtime.boundary execution token options args).journal.model
        (modelStepKey (options.agent.digest messages tools)) (Code.ask (.model messages))))
    (htool : ∀ call toolArgs, Code.Abides M P
      ((runtime.boundary execution token options args).journal.tool call.toolCallId
        (Code.ask (.handler call toolArgs)))) :
    Code.Abides M P (runtime.attempt execution token options args) := by
  -- All but the run itself is plain; the run keeps to its own steps.
  have hopened : Code.Only Op.Plain (runtime.openHistory execution args.messageHistory) :=
    openHistory_only (fun _ => trivial) args.messageHistory
  refine (hopened.abides hplain).bind fun history => ?_
  refine ((deliverPrompt_plain token _ _).abides hplain).bind fun prompt => ?_
  have hmark : ∀ start, Code.Only Op.Plain (Code.mark (.agentRun token start)) :=
    fun _ => Code.only_mark trivial
  refine ((hmark _).abides hplain).bind fun _ => ?_
  have hrun : Code.Abides M P (AgentRuntime.runAgent
      (runtime.boundary execution token options args) options.agent
      ⟨prompt, history, args.deferredToolResults⟩) :=
    runAgent_abides hplain hmodel htool rfl _
  refine hrun.bind fun r => Code.Only.abides (φ := Op.Plain) ?_ hplain
  obtain ⟨result, st⟩ := r
  refine (replaceHistory_only (fun _ => trivial) result.messages).bind fun _ => ?_
  cases houtput : result.output with
  | deferred requests => exact park_only (fun _ _ _ _ _ => trivial) fun _ _ _ => park_plain _ _ _
  | text output =>
    refine (close_only (fun _ _ => trivial) _ _).bind fun _ => ?_
    exact (Code.only_mark trivial).bind fun _ => Code.only_pure _

/-! ## Section 5: The methods -/

/-- No conversation is filled in. -/
theorem executionContext_none (execution : ExecutionContext) :
    executionContext execution none = execution := by
  obtain ⟨branchId, conversationId, hnonempty⟩ := execution
  cases conversationId <;> rfl

section methods

variable {μ : Type} {M : Monitor Op Op.Reply μ} {P P' : μ → Prop} {runtime : AgentRuntime}
  {execution : ExecutionContext} {owner : String} {options : Options}

section body

variable (hplain : ∀ o : Op, o.Plain → o.Routine M P)
  (hattempt : ∀ conversationId token args, Code.Abides M P
    (runtime.attempt (executionContext execution conversationId) token options args))

include hattempt in
/-- An attempt on the execution as it was given. -/
theorem attempt_self (token : Int) (args : AttemptArgs) :
    Code.Abides M P (runtime.attempt execution token options args) := by
  have hattempted := hattempt none token args
  rwa [executionContext_none] at hattempted

include hplain hattempt

/-- `_finalize`. -/
theorem finalize_abides (token : Int) (active : Suspension) (answers : Dict String Answer)
    (parked : List (ToolCall × SuspendRequest)) :
    Code.Abides M P (runtime.finalize execution token options active answers parked) := by
  have hmark : Code.Only Op.Plain (Code.mark (.finalizing active answers)) :=
    Code.only_mark trivial
  refine (hmark.abides hplain).bind fun _ => (Code.abides_ofExcept _).bind fun approvals => ?_
  obtain ⟨approvals, cancelled⟩ := approvals
  refine ((suspension_plain _ token).abides hplain).bind fun _ => ?_
  refine (Code.abides_ofExcept _).bind fun _ => ?_
  refine (hattempt _ token _).bind fun outcome => ?_
  exact ((suspension_plain _ token).abides hplain).bind fun _ => Code.abides_pure _

/-- The body of `resume`. -/
theorem answerUnderLease_abides (pendingId : String) (answer : Answer) (token : Int) :
    Code.Abides M P (runtime.answerUnderLease execution options pendingId answer token) := by
  refine (active_plain.abides hplain).bind fun found => ?_
  cases found with
  | none => exact Code.abides_throw _
  | some active =>
    refine (Code.abides_ofExcept _).bind fun parked => ?_
    refine (Code.abides_ofExcept _).bind fun _ => ?_
    cases hcall : byPending parked pendingId with
    | none => exact Code.abides_throw _
    | some call =>
      refine ((suspension_plain _ token).abides hplain).bind fun _ => ?_
      refine (Code.abides_ofExcept _).bind fun pending => ?_
      refine Code.Watched.ite (fun _ => Code.abides_throw _) fun _ => ?_
      exact finalize_abides hplain hattempt token active _ parked

/-- The body of `recover`. -/
theorem recoverUnderLease_abides (history : List Message) (token : Int) :
    Code.Abides M P (runtime.recoverUnderLease execution options history token) := by
  refine (active_plain.abides hplain).bind fun found => ?_
  cases found with
  | some active =>
    refine (Code.abides_ofExcept _).bind fun pending => ?_
    refine Code.Watched.ite (fun _ => Code.abides_throw _) fun _ => ?_
    refine (Code.abides_ofExcept _).bind fun parked => ?_
    exact finalize_abides hplain hattempt token active _ parked
  | none =>
    have hchecked : Code.Only Op.Plain (AgentRuntime.checkPendingRound execution history) :=
      checkPendingRound_only ⟨rfl, nofun, nofun⟩ history
    exact (hchecked.abides hplain).bind fun _ => attempt_self hattempt token _

end body

variable (hplain : ∀ o : Op, o.Plain → o.Routine M P)
  (hplain' : ∀ o : Op, o.Plain → o.Routine M P')
  (hattempt : ∀ conversationId token args, Code.Abides M P
    (runtime.attempt (executionContext execution conversationId) token options args))
  (hlease : ∀ (α : Type) method (body : Int → Code α), (∀ token, Code.Abides M P (body token)) →
    Code.Abides M P' (runtime.lease execution owner method body))

section lease

include hlease hattempt

/-- `run`. -/
theorem run_abides (hplain' : ∀ o : Op, o.Plain → o.Routine M P') (args : AttemptArgs) :
    Code.Abides M P' (runtime.run execution owner options args) :=
  ((announceParked_plain _ _).abides hplain').bind fun _ =>
    hlease _ _ _ fun token => attempt_self hattempt token _

include hplain

/-- `resume`. -/
theorem resume_abides (pendingId : String) (answer : Answer) :
    Code.Abides M P' (runtime.resume execution owner options pendingId answer) :=
  hlease _ _ _ fun token => answerUnderLease_abides hplain hattempt pendingId answer token

/-- `recover`. -/
theorem recover_abides (history : List Message) :
    Code.Abides M P' (runtime.recover execution owner options history) :=
  hlease _ _ _ fun token => recoverUnderLease_abides hplain hattempt history token

include hplain'

/-- `fork`. -/
theorem fork_abides (src : ExecutionContext) (at_ : Option String) (prompt : Option Json)
    (history : Option (List Message)) (regate : Bool) :
    Code.Abides M P' (runtime.fork src at_ execution owner options prompt history regate) := by
  refine ((forkHistory_plain src at_ history).abides hplain').bind fun history => ?_
  refine hlease _ _ _ fun token => ?_
  exact ((copySteps_plain src token _).abides hplain).bind fun copied =>
    attempt_self hattempt token _

end lease

section dispatch

include hplain'

include hplain hattempt hlease

/-- **`dispatch`** abides, since the methods that its rows call do. -/
theorem dispatch_abides (command : Command) :
    Code.Abides M P' (runtime.dispatch execution owner options command) := by
  by_cases htranscript : runtime.transcript = true
  · -- A prompt may be steered, an answer may be raised again, and a recovery goes by the state.
    cases command with
    | prompt text promptId =>
      rw [AgentRuntime.dispatch_prompt_eq htranscript]
      have hrun := run_abides hattempt hlease hplain' { prompt := some text, promptId := promptId }
      refine Code.Watched.catch_ (hrun.bind fun _ => Code.abides_pure _) fun error => ?_
      refine Code.Watched.ite (fun _ => ?_) fun _ => Code.abides_throw error
      exact ((submit_plain _).abides hplain').bind fun _ => Code.abides_pure _
    | answer pendingId payload =>
      rw [AgentRuntime.dispatch_answer_eq htranscript]
      have hresumed := resume_abides hplain hattempt hlease pendingId payload
      refine Code.Watched.catch_ (hresumed.bind fun _ => Code.abides_pure _) fun error => ?_
      exact (refuseMissing_only state_plain none error).abides hplain'
    | recover =>
      rw [AgentRuntime.dispatch_recover_eq htranscript]
      refine (state_plain.abides hplain').bind fun state => ?_
      refine Code.Watched.ite (fun _ => ?_) fun _ => Code.Watched.ite (fun _ => ?_) fun _ =>
        Code.abides_throw _
      · refine (committedHistory_plain.abides hplain').bind fun history => ?_
        have hrecovered := recover_abides hplain hattempt hlease history
        exact hrecovered.bind fun _ => Code.abides_pure _
      · exact (run_abides hattempt hlease hplain' _).bind fun _ => Code.abides_pure _
  · unfold AgentRuntime.dispatch
    rw [if_pos htranscript]
    exact Code.abides_throw _

end dispatch

end methods

/-! ## Section 6: Workers -/

section workers

variable {μ : Type} {M : Monitor Op Op.Reply μ} {P P' : μ → Prop} (owners : Owners)
  {execution : ExecutionContext} (i : Nat) {worker : Worker execution.filedName}

/-- A request that goes through the runtime's own methods: it is no renewal, and no direct call. -/
def Request.served {b : String} : Request b → Bool
  | .renew _ => false
  | .other .. => false
  | _ => true

/-- **Whatever a worker is asked**, it abides by a monitor that its attempts and its leases abide
    by. -/
theorem serve_abides (hserved : worker.request.served = true)
    (hplain : ∀ o : Op, o.Plain → o.Routine M P) (hplain' : ∀ o : Op, o.Plain → o.Routine M P')
    (hattempt : ∀ options, worker.request.agent? = some options.agent →
      ∀ conversationId token args, Code.Abides M P
        (worker.runtime.attempt (executionContext execution conversationId) token options args))
    (hlease : ∀ (α : Type) method (body : Int → Code α),
      (∀ token, Code.Abides M P (body token)) →
      Code.Abides M P' (worker.runtime.lease execution (owners.name i) method body)) :
    Code.Abides M P' (serve owners execution i worker) := by
  obtain ⟨runtime, request⟩ := worker
  -- One case a request, each by its method's rule.
  cases request with
  | run options args => exact (run_abides (hattempt options rfl) hlease hplain' args).discard
  | resume options pendingId answer =>
    exact (resume_abides hplain (hattempt options rfl) hlease pendingId answer).discard
  | recover options history =>
    exact (recover_abides hplain (hattempt options rfl) hlease history).discard
  | fork options src at_ prompt history regate =>
    exact (fork_abides hplain hplain' (hattempt options rfl) hlease src at_ prompt history
      regate).discard
  | submit item => exact ((submit_plain item).abides hplain').discard
  | resolveEffect callId resolution workersStopped =>
    have hresolved : ∀ token, Code.Only Op.Plain (execution.store.resolveEffect
        execution.branchId (stepKey callId) resolution workersStopped token) :=
      fun _ => Code.only_ledger ⟨rfl, nofun, nofun⟩
    exact (hlease _ _ _ fun token => (hresolved token).abides hplain).discard
  | dispatch options command =>
    exact (dispatch_abides hplain hplain' (hattempt options rfl) hlease command).discard
  | renew j => cases hserved
  | other op hop => cases hserved

end workers

end Semora
