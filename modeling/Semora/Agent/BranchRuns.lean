import Semora.Agent.BranchFinalize
import Semora.Agent.RuntimeOps

/-! # Every Schedule Keeps the Branch's Contract

    The entry points of the runtime, and the theorem about all of them at
    once: whatever any number of workers are asked, in whatever order they
    move, each event is one a worker may do. -/

namespace Semora

open Pool MemorySteps

section methods

variable {owners : Owners} {execution : ExecutionContext} {i : Nat}
  {worker : Worker execution.filedName} {ρ : Worker execution.filedName → Type}
  {body : Nat → (w : Worker execution.filedName) → Prog Op Op.Reply (ρ w)}

/-! ## Section 1: Code that leaves the suspension alone -/

theorem submit_silent (item : PendingInput) :
    Code.Only (Silent execution.filedName) (AgentRuntime.submit execution item) :=
  submit_only trivial (fun _ _ => Or.inr ⟨by simp [LedgerOp.keys], by simp⟩) item

theorem announceParked_silent (promptId : Option String) (prompt : Option Json) :
    Code.Only (Silent execution.filedName)
      (AgentRuntime.announceParked execution promptId prompt) :=
  announceParked_only (Or.inr ⟨by simp [LedgerOp.keys], by simp⟩) submit_silent promptId prompt

theorem silent_write {op : LedgerOp Record} {callId : String} (hkeys : op.keys = [stepKey callId])
    (hrelease : ∀ w, op ≠ .release execution.filedName w) :
    Code.Only (Silent execution.filedName) (Code.ledger op) := by
  refine Code.only_ledger (Or.inr ⟨?_, hrelease⟩)
  rw [hkeys, List.mem_singleton]
  exact (stepKey_ne_activeSuspension callId).symm

theorem copySteps_silent (src : ExecutionContext) (token : Int) (calls : List ToolCall) :
    Code.Only (Silent execution.filedName)
      (AgentRuntime.copySteps src execution token calls) := by
  induction calls with
  | nil => exact Code.only_pure _
  | cons call calls ih =>
    have hread : Code.Only (Silent execution.filedName)
        (src.store.read src.branchId (stepKey call.toolCallId)) :=
      Code.only_ledger (Or.inr ⟨by simp [LedgerOp.keys], by simp⟩)
    have hstart : Code.Only (Silent execution.filedName)
        (execution.store.start execution.branchId (stepKey call.toolCallId) token) :=
      silent_write rfl (by simp)
    have hfinish : ∀ value, Code.Only (Silent execution.filedName)
        (execution.store.finishEffect execution.branchId (stepKey call.toolCallId) value token) :=
      fun _ => silent_write rfl (by simp)
    refine hread.bind fun record => Code.Only.ite (fun _ => ih) fun _ => ?_
    refine hstart.bind fun started => Code.Only.ite (fun _ => ih) fun _ => ?_
    refine Code.Only.ite (fun _ => ?_) fun _ => ih
    exact (hfinish _).bind fun _ => ih.bind fun _ => Code.only_pure _

theorem forkHistory_silent (runtime : AgentRuntime) (src : ExecutionContext)
    (at_ : Option String) (history : Option (List Message)) :
    Code.Only (Silent execution.filedName) (runtime.forkHistory src at_ history) := by
  cases history with
  | some history => exact Code.only_pure _
  | none => exact Code.Only.ite (fun _ => Code.only_throw _) fun _ => Code.only_ask rfl trivial

theorem state_silent (runtime : AgentRuntime) :
    Code.Only (Silent execution.filedName) (runtime.state execution) :=
  state_only (Or.inr ⟨by simp [LedgerOp.keys], by simp⟩) trivial

/-! ## Section 2: Starting an attempt -/

/-- Code that leaves the suspension alone may run whenever. -/
theorem idle_works {α : Type} {x : Code α} (hx : Code.Only (Silent execution.filedName) x)
    {P : Code.History (Worker execution.filedName) → Prop} :
    Works body owners i worker P x (fun _ _ => True) fun _ _ => True :=
  (silent_works hx lasting_const).pre fun _ _ _ => trivial

/-- An attempt of a thread that was granted the lease to run or to fork. -/
theorem granted_attempt_works {runtime : AgentRuntime} {method : Method} {token : Int}
    {options : Options} {args : AttemptArgs} (hmethod : method = .run ∨ method = .fork)
    (hagent : worker.request.agent? = some options.agent) :
    Works body owners i worker (Granted owners i method token)
      (runtime.attempt execution token options args) (fun _ _ => True) fun _ _ => True := by
  have hstart : ∀ cur, Works body owners i worker
      (fun h => Unbegun i h ∧ OnLease owners i token (· = cur) h ∧ (cur ≠ none → Drives i cur h))
      (runtime.attempt execution token options args) (fun _ _ => True) fun _ _ => True :=
    fun _ => (attempt_works hagent driving_start).mono (fun _ _ h => h) (fun _ _ _ _ => trivial)
      fun _ _ _ _ => trivial
  refine (Code.Triple.exists hstart).pre ?_
  intro h _ ⟨hunentered, cur, hlease, hdrives⟩
  exact ⟨cur, hunentered.unbegun, hlease, fun _ => hdrives hmethod⟩

/-- `run`. -/
theorem run_works {runtime : AgentRuntime} {options : Options} {args : AttemptArgs}
    (hagent : worker.request.agent? = some options.agent) :
    Works body owners i worker (Unentered i)
      (runtime.run execution (owners.name i) options args) (fun _ _ => True) fun _ _ => True := by
  have hannounced : Works body owners i worker (Unentered i)
      (AgentRuntime.announceParked execution args.promptId args.prompt)
      (fun _ => Unentered i) fun _ => Unentered i :=
    silent_works (announceParked_silent args.promptId args.prompt) lasting_unentered
  refine Code.Triple.bind (fun _ => stable_const)
    (hannounced.mono (fun _ _ h => h) (fun _ _ _ h => h) fun _ _ _ _ => trivial) fun _ => ?_
  exact lease_works fun _ => granted_attempt_works (Or.inl rfl) hagent

/-- `fork`. -/
theorem fork_works {runtime : AgentRuntime} {src : ExecutionContext} {at_ : Option String}
    {options : Options} {prompt : Option Json} {history : Option (List Message)} {regate : Bool}
    (hagent : worker.request.agent? = some options.agent) :
    Works body owners i worker (Unentered i)
      (runtime.fork src at_ execution (owners.name i) options prompt history regate)
      (fun _ _ => True) fun _ _ => True := by
  have hhistory : Works body owners i worker (Unentered i) (runtime.forkHistory src at_ history)
      (fun _ => Unentered i) fun _ => Unentered i :=
    silent_works (forkHistory_silent runtime src at_ history) lasting_unentered
  refine Code.Triple.bind (fun _ => stable_const)
    (hhistory.mono (fun _ _ h => h) (fun _ _ _ h => h) fun _ _ _ _ => trivial) fun history => ?_
  refine lease_works fun token => ?_
  have hcopied : Works body owners i worker (Granted owners i .fork token)
      (AgentRuntime.copySteps src execution token (unansweredToolCalls history))
      (fun _ => Granted owners i .fork token) fun _ => Granted owners i .fork token :=
    silent_works (copySteps_silent src token _) (lasting_granted .fork token)
  refine Code.Triple.bind (fun _ => stable_const)
    (hcopied.mono (fun _ _ h => h) (fun _ _ _ h => h) fun _ _ _ _ => trivial) fun copied => ?_
  exact granted_attempt_works (Or.inr rfl) hagent

/-- `resolve_effect`. -/
theorem resolveEffect_works {runtime : AgentRuntime} {callId : String}
    {resolution : EffectResolution Record} {workersStopped : Bool} :
    Works body owners i worker (Unentered i)
      (runtime.resolveEffect execution (owners.name i) callId resolution workersStopped)
      (fun _ _ => True) fun _ _ => True :=
  lease_works fun _ => idle_works (silent_write rfl (by simp))

/-! ## Section 3: Dispatch -/

theorem refuseMissing_silent (runtime : AgentRuntime) (state : Option String) (error : Raised) :
    Code.Only (Silent execution.filedName) (refuseMissing runtime execution state error) :=
  refuseMissing_only (state_silent runtime) state error

section rows

variable {runtime : AgentRuntime} {options : Options} (htranscript : runtime.transcript = true)
  (hagent : worker.request.agent? = some options.agent)

/-- A method that a row calls, whose result it wraps. -/
theorem row_works {α β : Type} {P : Code.History (Worker execution.filedName) → Prop}
    {x : Code α} {f : α → β}
    (hx : Works body owners i worker P x (fun _ _ => True) fun _ _ => True) :
    Works body owners i worker P (x >>= fun a => pure (f a)) (fun _ _ => True) fun _ _ => True :=
  Code.Triple.bind (fun _ => stable_const) hx fun _ =>
    Code.Triple.pure stable_const fun _ _ _ => trivial

include htranscript hagent

/-- A prompt: it is run, or queued when somebody else holds the branch. -/
theorem dispatch_prompt_works {text : Json} {promptId : Option String} :
    Works body owners i worker (Unentered i)
      (runtime.dispatch execution (owners.name i) options (.prompt text promptId))
      (fun _ _ => True) fun _ _ => True := by
  rw [AgentRuntime.dispatch_prompt_eq htranscript]
  refine Code.Triple.catch_ (fun _ => stable_const) (row_works (run_works hagent)) fun error => ?_
  by_cases hcontended : error.isContended
  · rw [if_pos hcontended]
    exact idle_works ((submit_silent _).bind fun _ => Code.only_pure _)
  · rw [if_neg hcontended]
    exact Code.Triple.throw stable_const fun _ _ _ => trivial

/-- An answer: it is routed, and a missing park is an invalid transition. -/
theorem dispatch_answer_works {pendingId : String} {answer : Answer}
    (hrequest : worker.request.answer? = some (pendingId, answer)) :
    Works body owners i worker (Unentered i)
      (runtime.dispatch execution (owners.name i) options (.answer pendingId answer))
      (fun _ _ => True) fun _ _ => True := by
  rw [AgentRuntime.dispatch_answer_eq htranscript]
  exact Code.Triple.catch_ (fun _ => stable_const) (row_works (resume_works hagent hrequest))
    fun error => idle_works (refuseMissing_silent runtime none error)

/-- Recovery: the observed state picks one row, or none. -/
theorem dispatch_recover_works :
    Works body owners i worker (Unentered i)
      (runtime.dispatch execution (owners.name i) options .recover)
      (fun _ _ => True) fun _ _ => True := by
  rw [AgentRuntime.dispatch_recover_eq htranscript]
  have hobserved : Works body owners i worker (Unentered i) (runtime.state execution)
      (fun _ => Unentered i) fun _ => Unentered i :=
    silent_works (state_silent runtime) lasting_unentered
  have hhistory : Works body owners i worker (Unentered i)
      (runtime.committedHistory execution) (fun _ => Unentered i) fun _ => Unentered i :=
    silent_works (Code.Only.ite (fun _ => Code.only_throw _) fun _ => Code.only_ask rfl trivial)
      lasting_unentered
  refine Code.Triple.bind (fun _ => stable_const)
    (hobserved.mono (fun _ _ h => h) (fun _ _ _ h => h) fun _ _ _ _ => trivial) fun state => ?_
  unfold AgentRuntime.recoverFrom
  -- Parked: the history is read, and recovered. Open: it is run again. Else no row takes it.
  by_cases hparked : state ∈ ["waiting", "resuming"]
  · rw [if_pos hparked]
    refine Code.Triple.bind (fun _ => stable_const)
      (hhistory.mono (fun _ _ h => h) (fun _ _ _ h => h) fun _ _ _ _ => trivial) fun history => ?_
    exact row_works (recover_works hagent)
  · rw [if_neg hparked]
    by_cases hopen : state ∈ ["interrupted"]
    · rw [if_pos hopen]
      exact row_works (run_works hagent)
    · rw [if_neg hopen]
      exact Code.Triple.throw lasting_unentered.stable fun _ _ _ => trivial

end rows

/-- `dispatch`. -/
theorem dispatch_works {runtime : AgentRuntime} {options : Options} {command : Command}
    (hrequest : worker.request = .dispatch options command) :
    Works body owners i worker (Unentered i)
      (runtime.dispatch execution (owners.name i) options command) (fun _ _ => True)
      fun _ _ => True := by
  have hagent : worker.request.agent? = some options.agent := by
    rw [hrequest]
    rfl
  by_cases htranscript : runtime.transcript = true
  · cases command with
    | prompt text promptId => exact dispatch_prompt_works htranscript hagent
    | answer pendingId answer =>
      exact dispatch_answer_works htranscript hagent (by rw [hrequest]; rfl)
    | recover => exact dispatch_recover_works htranscript hagent
  · unfold AgentRuntime.dispatch
    rw [if_pos htranscript]
    exact Code.Triple.throw lasting_unentered.stable fun _ _ _ => trivial

end methods

/-! ## Section 4: Every schedule -/

section schedules

variable (owners : Owners) (execution : ExecutionContext)

/-- Whatever a worker is asked, it keeps the contract. -/
theorem serve_works (i : Nat) (worker : Worker execution.filedName) :
    Works (branchWorkers owners execution).body owners i worker (Unentered i)
      (serve owners execution i worker) (fun _ _ => True) fun _ _ => True := by
  have discard : ∀ {α : Type} {x : Code α},
      Works (branchWorkers owners execution).body owners i worker (Unentered i) x
        (fun _ _ => True) (fun _ _ => True) →
      Works (branchWorkers owners execution).body owners i worker (Unentered i) (Code.discard x)
        (fun _ _ => True) fun _ _ => True :=
    fun hx => Code.Triple.bind (fun _ => stable_const) hx fun _ =>
      Code.Triple.pure stable_const fun _ _ _ => trivial
  obtain ⟨runtime, request⟩ := worker
  -- One case a request: each method from a thread that has not entered a finalization.
  cases request with
  | run options args => exact discard (run_works rfl)
  | resume options pendingId answer => exact discard (resume_works rfl rfl)
  | recover options history => exact discard (recover_works rfl)
  | fork options src at_ prompt history regate => exact discard (fork_works rfl)
  | submit item => exact discard (idle_works (submit_silent item))
  | resolveEffect callId resolution workersStopped => exact discard resolveEffect_works
  | dispatch options command => exact discard (dispatch_works rfl)
  | renew j =>
    have hacquire : Code.Only (Silent execution.filedName)
        (execution.store.acquire execution.branchId (owners.name j) runtime.leaseTtl) :=
      silent_ledger rfl (by simp)
    exact idle_works (hacquire.bind fun _ => Code.only_pure _)
  | other op hop =>
    refine discard (idle_works (Code.only_ledger ?_))
    refine hop.imp id fun ⟨howner, hkeys⟩ => ⟨hkeys, ?_⟩
    rintro w rfl
    cases howner

theorem branch_safe : SafeBodies (branchWorkers owners execution)
    (branchContract owners execution.filedName execution.conversation) := by
  intro i worker h hinv hfresh
  have hunentered : Unentered i h := by
    rintro ⟨active, d, hd, htid, _⟩
    exact hfresh d hd htid
  exact (serve_works owners execution i worker h hinv hunentered).mono fun _ _ _ _ => trivial

/-- **Every event is one a worker may do**, under every schedule. -/
theorem branch_legit (schedule : List (Action (Worker execution.filedName) Env)) :
    BranchInv execution.filedName execution.conversation
      ((branchWorkers owners execution).after { hist := ⟨.init, []⟩ } schedule).hist := by
  have hinit : BranchInv execution.filedName execution.conversation
      (⟨.init, []⟩ : Code.History (Worker execution.filedName)) :=
    { leases := leaseOk_init
      now := rfl
      conversation := nofun
      legit := always_nil }
  exact (contract_after (branch_safe owners execution) (poolInv_init hinit) schedule
    (admissible_of_ok (fun _ _ _ _ _ => trivial) _ _)).inv

end schedules

end Semora
