import Semora.Agent.BoundaryOps
import Semora.Agent.Dispatch
import Semora.Agent.Watch

/-! # What the Runtime Does Around an Attempt

    The operations of the methods that surround `agent.run`: what each of them
    can do, for any property of operations. -/

namespace Semora

section only

variable {φ : Op → Prop} {execution : ExecutionContext} {runtime : AgentRuntime}

/-! ## Section 1: Parts of an attempt -/

theorem active_only (hread : φ (.ledger (.read execution.filedName activeSuspension))) :
    Code.Only φ (AgentRuntime.active execution) := by
  have hstep : Code.Only φ (execution.store.read execution.branchId activeSuspension) :=
    Code.only_ledger hread
  refine hstep.bind fun record => Code.Only.ite (fun _ => Code.only_pure _) fun _ => ?_
  cases record.value with
  | none => exact Code.only_throw _
  | some value => cases value <;> exact Code.only_pure _

theorem openHistory_only (hφ : ∀ op, φ (.ext (.transcript op)))
    (history : Option (List Message)) : Code.Only φ (runtime.openHistory execution history) := by
  refine Code.Only.ite (fun _ => Code.only_pure _) fun _ => ?_
  refine (Code.only_ask rfl (hφ _)).bind fun messages => ?_
  cases history with
  | none => exact Code.only_pure _
  | some history => exact (Code.only_ask rfl (hφ _)).bind fun _ => Code.only_pure _

theorem deliverPrompt_only
    (henqueue : ∀ inputId value, φ (.ledger (.enqueueInput execution.filedName inputId value)))
    (hadmits : ∀ inputIds token, φ (.ledger (.admitInputs execution.filedName inputIds token)))
    (token : Int) (prompt : Option Json) (promptId : Option String) :
    Code.Only φ (AgentRuntime.deliverPrompt execution token prompt promptId) := by
  cases prompt with
  | none => exact Code.only_pure _
  | some prompt =>
    cases promptId with
    | none => exact Code.only_pure _
    | some promptId =>
      have hinsert : ∀ value, Code.Only φ
          (execution.store.enqueueInput execution.branchId promptId value) :=
        fun _ => Code.only_ledger (henqueue _ _)
      have hmark : Code.Only φ
          (execution.store.admitInputs execution.branchId [promptId] token) :=
        Code.only_ledger (hadmits _ _)
      refine (hinsert _).bind fun inserted => ?_
      exact Code.Only.ite (fun _ => hmark.bind fun _ => Code.only_pure _) fun _ => Code.only_pure _

theorem runAgent_only {boundary : ExecutionBoundary} (hφ : PermitsTools boundary φ) (agent : Agent)
    (start : RunStart) : Code.Only φ (AgentRuntime.runAgent boundary agent start) := by
  refine Prog.All.bind (drive_only hφ agent.digest (agent.run start) {}) ?_
  rintro ⟨_ | (_ | _), _⟩
  · exact trivial
  · exact trivial
  · exact trivial

theorem replaceHistory_only (hφ : ∀ messages, φ (.ext (.transcript (.replace messages))))
    (messages : List Message) : Code.Only φ (runtime.replaceHistory messages) :=
  Code.Only.ite (fun _ => Code.only_pure _) fun _ => Code.only_ask rfl (hφ _)

theorem close_only (hφ : ∀ reason toolCalls, φ (.ext (.transcript (.closed reason toolCalls))))
    (reason : StopReason) (toolCalls : Nat) : Code.Only φ (runtime.close reason toolCalls) :=
  Code.Only.ite (fun _ => Code.only_pure _) fun _ => Code.only_ask rfl (hφ _ _)

theorem notifyEach_only
    (hφ : ∀ ctx call request messages completed,
      φ (.ext (.onSuspend ctx call request messages completed)))
    (ctx : Ctx) (messages : List Message) (completed : List (String × Json))
    (parked : List (ToolCall × SuspendRequest)) :
    Code.Only φ (AgentRuntime.notifyEach ctx messages completed parked) := by
  induction parked with
  | nil => exact Code.only_pure _
  | cons p parked ih => exact (Code.only_ask rfl (hφ ..)).bind fun _ => ih

theorem park_only {α : Type}
    (hφ : ∀ ctx call request messages completed,
      φ (.ext (.onSuspend ctx call request messages completed)))
    {boundary : ExecutionBoundary} {st : AttemptState} {requests : DeferredToolRequests}
    {messages : List Message}
    (hcommit : ∀ first rest, requests.approvals = first :: rest →
      φ (.ledger (.commitTransition execution.filedName
        (AgentRuntime.parkWrites (AgentRuntime.parkedSuspension execution.conversation boundary
          st.turn requests messages first.toolCallId)) boundary.token))) :
    Code.Only φ (AgentRuntime.park (α := α) execution boundary st requests messages) := by
  unfold AgentRuntime.park
  refine Code.Only.ite (fun _ => Code.only_throw _) fun _ => ?_
  refine (Code.only_ofExcept _).bind fun parked => ?_
  refine Code.Only.ite (fun _ => Code.only_throw _) fun _ => ?_
  have hnotify : Code.Only φ
      (AgentRuntime.notifySuspended boundary st.turn messages parked) :=
    Code.Only.ite (fun _ => Code.only_pure _) fun _ => notifyEach_only hφ _ _ _ parked
  refine hnotify.bind fun _ => (Code.only_ofExcept _).bind fun pending => ?_
  -- Only the transition that parks is written, and only with a call to wait for.
  cases happrovals : requests.approvals with
  | nil => exact Code.only_throw _
  | cons first rest =>
    have hpark : Code.Only φ (execution.store.commitTransition execution.branchId
        (AgentRuntime.parkWrites (AgentRuntime.parkedSuspension execution.conversation boundary
          st.turn requests messages first.toolCallId)) boundary.token) :=
      Code.only_ledger (hcommit first rest happrovals)
    exact hpark.bind fun _ => Code.only_throw _

/-! ## Section 2: Around the lease -/

theorem originOf_only (hφ : φ (.ext .uuid4)) (item : PendingInput) :
    Code.Only φ (AgentRuntime.originOf item) := by
  unfold AgentRuntime.originOf
  split
  · exact Code.only_pure _
  · exact ⟨hφ, fun _ => trivial⟩

theorem submit_only (huuid4 : φ (.ext .uuid4))
    (henqueue : ∀ inputId value, φ (.ledger (.enqueueInput execution.filedName inputId value)))
    (item : PendingInput) : Code.Only φ (AgentRuntime.submit execution item) := by
  refine (originOf_only huuid4 item).bind fun originId => ?_
  have hinsert : ∀ value, Code.Only φ
      (execution.store.enqueueInput execution.branchId originId value) :=
    fun _ => Code.only_ledger (henqueue _ _)
  exact (hinsert _).bind fun _ => Code.only_pure _

theorem announceParked_only (hread : φ (.ledger (.read execution.filedName activeSuspension)))
    (hsubmit : ∀ item, Code.Only φ (AgentRuntime.submit execution item))
    (promptId : Option String) (prompt : Option Json) :
    Code.Only φ (AgentRuntime.announceParked execution promptId prompt) := by
  cases prompt with
  | none => exact Code.only_pure _
  | some prompt =>
    refine (active_only hread).bind fun found => ?_
    cases found with
    | none => exact Code.only_pure _
    | some active =>
      refine (hsubmit _).bind fun _ => ?_
      refine (Code.only_ofExcept _).bind fun pending => ?_
      exact Code.Only.ite (fun _ => Code.only_throw _) fun _ => Code.only_throw _

theorem state_only (hread : φ (.ledger (.read execution.filedName activeSuspension)))
    (hrecord : φ (.ext (.transcript (.readBranch execution.branchId)))) :
    Code.Only φ (runtime.state execution) := by
  refine (active_only hread).bind fun found => ?_
  cases found with
  | some active => exact Code.only_pure _
  | none =>
    refine Code.Only.ite (fun _ => Code.only_pure _) fun _ => ?_
    exact (Code.only_ask rfl hrecord).bind fun _ => Code.only_pure _

theorem committedHistory_only
    (hread : φ (.ext (.transcript (.read execution.conversation none)))) :
    Code.Only φ (runtime.committedHistory execution) :=
  Code.Only.ite (fun _ => Code.only_throw _) fun _ => Code.only_ask rfl hread

/-! ## Section 3: Around the rows -/

theorem named_only (hstate : Code.Only φ (runtime.state execution)) (state : Option String) :
    Code.Only φ (named runtime execution state) := by
  cases state with
  | some state => exact Code.only_pure _
  | none => exact hstate

theorem refuseMissing_only (hstate : Code.Only φ (runtime.state execution))
    (state : Option String) (error : Raised) :
    Code.Only φ (refuseMissing runtime execution state error) :=
  Code.Only.ite (fun _ => Code.only_throw _) fun _ =>
    (named_only hstate state).bind fun _ => Code.only_throw _

end only

/-! ## Section 4: Dispatch under a monitor -/

section dispatch

open Pool

variable {μ : Type} {M : Monitor Op Op.Reply μ} {P : μ → Prop} {φ : Op → Prop}
  {execution : ExecutionContext} {runtime : AgentRuntime} {owner : String} {options : Options}

/-- The code does what the monitor allows, whatever comes of it. -/
abbrev Code.Heeds {α : Type} (M : Monitor Op Op.Reply μ) (P : μ → Prop) (x : Code α) : Prop :=
  Code.Watched M P x (fun _ _ => True) fun _ _ => True

theorem Code.Heeds.done {α β : Type} {x : Code α} (h : Code.Heeds M P x) (f : α → β) :
    Code.Heeds M P (x >>= fun a => pure (f a)) :=
  Code.Watched.bind h fun _ => Code.Watched.pure fun _ _ => trivial

variable (hallowed : ∀ o, φ o → ∀ m, M.allows m o)

include hallowed

/-- What is always allowed. -/
theorem Code.Only.heeds {α : Type} {x : Code α} (hx : Code.Only φ x) : Code.Heeds M P x :=
  (hx.watched (P := fun _ => True) fun o ho m _ => ⟨hallowed o ho m, fun _ => trivial⟩).mono
    (fun _ _ => trivial) (fun _ _ _ => trivial) fun _ _ _ => trivial

variable (hstate : Code.Only φ (runtime.state execution))

include hstate

/-- **`dispatch`** does what `run`, `resume` and `recover` do. -/
theorem dispatch_heeds {command : Command}
    (hkept : Code.Watched M P (runtime.state execution) (fun _ => P) fun _ _ => True)
    (hsubmit : ∀ item, Code.Only φ (AgentRuntime.submit execution item))
    (hrun : ∀ prompt promptId, Code.Heeds M P
      (runtime.run execution owner options { prompt := prompt, promptId := promptId }))
    (hresume : ∀ pendingId answer, Code.Heeds M P
      (runtime.resume execution owner options pendingId answer))
    (hrecover : runtime.transcript = true → Code.Heeds M P (do
      let history ← runtime.committedHistory execution
      runtime.recover execution owner options history)) :
    Code.Heeds M P (runtime.dispatch execution owner options command) := by
  by_cases htranscript : runtime.transcript = true
  · cases command with
    | prompt text promptId =>
      -- it is run, or queued when somebody else holds the branch
      rw [AgentRuntime.dispatch_prompt_eq htranscript]
      have hqueue : Code.Only φ ((queueSteer execution).apply (.prompt text promptId) none) :=
        (hsubmit _).bind fun _ => Code.only_pure _
      refine Code.Watched.catch_ ((hrun (some text) promptId).done _) fun _ => ?_
      exact Code.Watched.ite (fun _ => hqueue.heeds hallowed) fun _ =>
        Code.Watched.throw fun _ _ => trivial
    | answer pendingId answer =>
      rw [AgentRuntime.dispatch_answer_eq htranscript]
      exact Code.Watched.catch_ ((hresume pendingId answer).done _) fun error =>
        (refuseMissing_only hstate none error).heeds hallowed
    | recover =>
      rw [AgentRuntime.dispatch_recover_eq htranscript]
      refine hkept.bind fun state => Code.Watched.ite (fun _ => ?_) fun _ =>
        Code.Watched.ite (fun _ => (hrun none none).done _) fun _ =>
          Code.Watched.throw fun _ _ => trivial
      have hparked := (hrecover htranscript).done Dispatched.outcome
      rw [bind_assoc] at hparked
      exact hparked
  · unfold AgentRuntime.dispatch
    rw [if_pos htranscript]
    exact Code.Watched.throw fun _ _ => trivial

end dispatch

end Semora
