import Semora.Agent.Suspension

/-! # Attempts Under the Branch's Contract

    Triples for what every method of `AgentRuntime` shares: the lease, the
    reading of the suspension under it, and `_attempt`. Under the lease a
    thread knows the suspension in force, or its writes are refused. -/

namespace Semora

open Pool MemorySteps

/-! ## Section 1: Rules -/

section rules

variable {owners : Owners} {b conversation : String} {i : Nat} {worker : Worker b}
  {ρ : Worker b → Type} {body : Nat → (w : Worker b) → Prog Op Op.Reply (ρ w)} {α : Type}
  {P : Code.History (Worker b) → Prop}

/-- Code that says nothing and leaves the suspension alone keeps what lasts. -/
theorem silent_works {x : Code α} (hx : Code.Only (Silent b) x) (hP : Lasting owners i P) :
    Code.Triple body (branchContract owners b conversation) i worker P x
      (fun _ => P) fun _ => P :=
  Code.Triple.invariant hx hP.stable fun _ ho _ env hinv hpre _ =>
    passing_event hP hinv hpre ho.passes env ho.said

/-- A point the code passes. -/
theorem mark_works {m : Mark} (hm : Passes b (.ext (.mark m))) (hP : Lasting owners i P)
    (hsaid : ∀ h, BranchInv b conversation h → P h →
      Said h.log ⟨i, worker, .ext (.mark m), (), h.now⟩) :
    Code.Triple body (branchContract owners b conversation) i worker P (Code.mark m)
      (fun _ => P) fun _ => P := by
  apply Code.Triple.mark hP.stable
  · intro h env hinv hpre _
    exact passing_event hP hinv hpre hm env (hsaid h hinv hpre)
  · exact hP.stable

end rules

/-- A triple about thread `i` of a branch's workers. -/
abbrev Works {α : Type} {execution : ExecutionContext} {ρ : Worker execution.filedName → Type}
    (body : Nat → (w : Worker execution.filedName) → Prog Op Op.Reply (ρ w)) (owners : Owners)
    (i : Nat) (worker : Worker execution.filedName)
    (P : Code.History (Worker execution.filedName) → Prop) (x : Code α)
    (Q : α → Code.History (Worker execution.filedName) → Prop)
    (E : Raised → Code.History (Worker execution.filedName) → Prop) : Prop :=
  Code.Triple body (branchContract owners execution.filedName execution.conversation) i worker
    P x Q E

section methods

variable {owners : Owners} {execution : ExecutionContext} {i : Nat}
  {worker : Worker execution.filedName} {ρ : Worker execution.filedName → Type}
  {body : Nat → (w : Worker execution.filedName) → Prog Op Op.Reply (ρ w)}
  {P : Code.History (Worker execution.filedName) → Prop}

/-! ## Section 2: The lease -/

theorem Recorded.of_now {active : Suspension} {h : Code.History (Worker execution.filedName)}
    {o : Op} {r : o.Reply} {s : MemorySteps Record}
    (hlive : live execution.filedName s = some active) :
    Recorded active (Code.next h i worker o r s) :=
  ⟨_, List.mem_append_right _ List.mem_cons_self, hlive⟩

theorem silent_read (key : String) :
    Silent execution.filedName (.ledger (.read execution.filedName key)) :=
  Or.inr ⟨by simp [LedgerOp.keys], by simp⟩

/-- What `_active` finds under the lease is the suspension in force. -/
theorem active_works {token : Int} (hP : Lasting owners i P) :
    Works body owners i worker (fun h => P h ∧ OnLease owners i token (fun _ => True) h)
      (AgentRuntime.active execution)
      (fun found h => P h ∧ OnLease owners i token (· = found) h ∧
        ∀ active, found = some active →
          active.conversationId = execution.conversation ∧ Recorded active h)
      fun _ => P := by
  rw [active_eq]
  have hlease : ∀ Q : Option Suspension → Prop,
      Lasting owners i (OnLease (b := execution.filedName) owners i token Q) :=
    lasting_onLease token
  -- What a read found is known as long as the lease is.
  have hfound : ∀ found : Option Suspension, Lasting owners i
      fun h : Code.History (Worker execution.filedName) =>
        P h ∧ OnLease owners i token (· = found) h ∧ ∀ active, found = some active →
          active.conversationId = execution.conversation ∧ Recorded active h := by
    intro found h h' ⟨hpre, hon, hknown⟩ hmove
    refine ⟨hP h h' hpre hmove, hlease _ h h' hon hmove, ?_⟩
    intro active hactive
    obtain ⟨hconversation, hrecorded⟩ := hknown active hactive
    exact ⟨hconversation, lasting_recorded active h h' hrecorded hmove⟩
  refine Code.Triple.bind (Q := fun record h => P h ∧
      OnLease owners i token (· = suspensionOf record) h ∧
        ∀ active, suspensionOf record = some active →
          active.conversationId = execution.conversation ∧ Recorded active h)
    (fun _ => hP.stable) ?_ fun record => ?_
  · apply Code.Triple.ledger (hP.and (hlease _)).stable
    · intro h env r s hinv ⟨hpre, hon⟩ _ hperform
      obtain ⟨rfl, rfl⟩ := Prod.mk.inj hperform
      have hpass := passing_event hP hinv hpre (silent_read activeSuspension).passes env
        (show Said h.log ⟨i, worker, _, _, _⟩ from trivial)
      refine ⟨hpass.1, hpass.2, ⟨hon.1, hon.2.imp id ?_⟩, ?_⟩
      · rintro ⟨hholds, -⟩
        exact ⟨hholds, rfl⟩
      · intro active hactive
        have hlive : live execution.filedName h.now = some active := hactive
        exact ⟨hinv.conversation active hlive, Recorded.of_now hlive⟩
    · exact fun record => (hfound _).stable
    · exact fun _ => hP.stable
  · -- A row that is done without a value is an error.
    by_cases hlost : record.status = .done ∧ record.value.isNone = true
    · rw [if_pos hlost]
      exact Code.Triple.throw (hfound _).stable fun _ _ h => h.1
    · rw [if_neg hlost]
      exact Code.Triple.pure (hfound _).stable fun _ _ h => h

/-- What a thread has when it was granted the lease: the suspension in force, which it may
    drive when it came to run or fork. -/
def Granted (owners : Owners) (i : Nat) (method : Method) (token : Int)
    (h : Code.History (Worker execution.filedName)) : Prop :=
  Unentered i h ∧ ∃ cur, OnLease owners i token (· = cur) h ∧
    (method = .run ∨ method = .fork → Drives i cur h)

theorem lasting_granted (method : Method) (token : Int) :
    Lasting owners i fun h : Code.History (Worker execution.filedName) =>
      Granted owners i method token h := by
  refine lasting_unentered.and (Lasting.exists fun cur => ?_)
  exact (lasting_onLease token _).and (Lasting.imp fun _ => lasting_drives cur)

/-- The point before the lease is taken. -/
theorem leasing_works (method : Method) :
    Works body owners i worker (Unentered i) (Code.mark (.leasing method))
      (fun _ h => Unentered i h ∧ Leasing i method h.log) fun _ _ => True := by
  apply Code.Triple.mark lasting_unentered.stable
  · intro h env hinv hunentered _
    have hlasting : Lasting owners i (Unentered (b := execution.filedName) i) := lasting_unentered
    have hpass := passing_event hlasting hinv hunentered (o := .ext (.mark (.leasing method)))
      trivial env (show Said h.log ⟨i, worker, _, _, _⟩ from trivial)
    refine ⟨hpass.1, hpass.2, _, List.mem_append_right _ List.mem_cons_self, rfl, rfl⟩
  · exact (lasting_unentered.and (lasting_leasing method)).stable

theorem acquire_passes (owner : String) (ttl : ℚ) :
    Passes execution.filedName (.ledger (.acquire execution.filedName owner ttl)) :=
  Or.inr ⟨by simp [LedgerOp.keys], by simp⟩

/-- Acquiring: refused, or one knows what is in force. -/
theorem acquire_works (method : Method) (ttl : ℚ) :
    Works body owners i worker (fun h => Unentered i h ∧ Leasing i method h.log)
      (execution.store.acquire execution.branchId (owners.name i) ttl)
      (fun token h => token ≠ 0 → Granted owners i method token h) fun _ _ => True := by
  apply Code.Triple.ledger (lasting_unentered.and (lasting_leasing method)).stable
  · intro h env r s hinv ⟨hunentered, hleasing⟩ _ hperform
    have hlasting : Lasting owners i (Unentered (b := execution.filedName) i) := lasting_unentered
    have hpass := passing_event hlasting hinv hunentered (acquire_passes (owners.name i) ttl) env
      (show Said h.log ⟨i, worker, _, _, _⟩ from trivial)
    obtain ⟨token, rfl, hissued⟩ := perform_acquire hinv.leases hperform
    have hstep : Semora.perform h.now env
        (.ledger (.acquire execution.filedName (owners.name i) ttl)) = (.ok token, s) := hperform
    rw [hstep] at hpass
    -- With a token the lease is this worker's, and what is live is known from here on.
    refine ⟨hpass.1, fun hne => ⟨hpass.2, live execution.filedName s, ?_, ?_⟩⟩
    · have htoken : Issued execution.filedName (owners.name i) token s :=
        hissued.resolve_left hne
      exact ⟨hne, htoken.2.imp id fun hholds => ⟨hholds, rfl⟩⟩
    · intro hmethod
      refine ⟨h.log, _, [], rfl, rfl, ⟨?_, owners.name i, ttl, token, hne, rfl⟩, rfl⟩
      rcases hmethod with rfl | rfl
      · exact Or.inl hleasing
      · exact Or.inr hleasing
  · intro token
    exact (Lasting.imp fun _ => lasting_granted method token).stable
  · exact fun _ => stable_const

/-- Releasing in one's own name is nobody else's business. -/
theorem release_works :
    Works body owners i worker (fun _ => True)
      (execution.store.release execution.branchId (owners.name i)) (fun _ _ => True)
      fun _ _ => True := by
  apply Code.Triple.ledger stable_const
  · intro h env r s hinv _ _ hperform
    have howner : (LedgerOp.release execution.filedName (owners.name i) : LedgerOp Record).owner?
        = some (owners.name i) := rfl
    obtain ⟨rfl, rfl⟩ := Prod.mk.inj hperform
    have hkeys : activeSuspension ∉
        (LedgerOp.release execution.filedName (owners.name i) : LedgerOp Record).keys := by
      simp [LedgerOp.keys]
    -- A release writes no step, so the suspension stays, and nobody else's lease is touched.
    have hentry : ((LedgerOp.release execution.filedName (owners.name i)).perform env.now env.later
        h.now).2.entry execution.filedName activeSuspension
          = h.now.entry execution.filedName activeSuspension :=
      perform_entry _ env.now env.later h.now (Or.inr hkeys)
    have hleases := leaseOk_perform (LedgerOp.release execution.filedName (owners.name i))
      env.now env.later hinv.leases
    refine ⟨same_event hinv hleases ?_ hentry trivial ?_, trivial⟩
    · rintro (⟨active, token, hdid⟩ | ⟨callId, callIds, token, hdid⟩ | ⟨active, token, ins, hdid⟩)
        <;> cases hdid
    · intro j hj
      exact (Disciplined.lease howner).leaseRely (fun heq => hj (owners.distinct heq)) env.now
        env.later
  · exact fun _ => stable_const
  · exact fun _ => stable_const

/-- Under the lease. -/
theorem lease_works {α : Type} {runtime : AgentRuntime} {method : Method} {x : Int → Code α}
    (hx : ∀ token, Works body owners i worker (Granted owners i method token) (x token)
      (fun _ _ => True) fun _ _ => True) :
    Works body owners i worker (Unentered i)
      (runtime.lease execution (owners.name i) method x) (fun _ _ => True) fun _ _ => True := by
  refine Code.Triple.bind (fun _ => stable_const) (leasing_works method) fun _ => ?_
  refine Code.Triple.bind (fun _ => stable_const) (acquire_works method runtime.leaseTtl)
    fun token => ?_
  by_cases hzero : token = 0
  · rw [if_pos hzero]
    exact Code.Triple.throw (Lasting.imp fun _ => lasting_granted method token).stable
      fun _ _ _ => trivial
  · rw [if_neg hzero]
    have hbody : Works body owners i worker (fun h => token ≠ 0 → Granted owners i method token h)
        (x token) (fun _ _ => True) fun _ _ => True :=
      (hx token).pre fun _ _ hgranted => hgranted hzero
    exact Code.Triple.finally_ stable_const hbody release_works

/-! ## Section 3: An attempt -/

theorem silent_ledger {op : LedgerOp Record} (hkeys : op.keys = [])
    (hrelease : ∀ w, op ≠ .release execution.filedName w) :
    Code.Only (Silent execution.filedName) (Code.ledger op) :=
  Code.only_ledger (Or.inr ⟨by simp [hkeys], hrelease⟩)

theorem openHistory_silent (runtime : AgentRuntime) (history : Option (List Message)) :
    Code.Only (Silent execution.filedName) (runtime.openHistory execution history) := by
  refine Code.Only.ite (fun _ => Code.only_pure _) fun _ => ?_
  refine (Code.only_ask rfl trivial).bind fun messages => ?_
  cases history with
  | none => exact Code.only_pure _
  | some history => exact (Code.only_ask rfl trivial).bind fun _ => Code.only_pure _

theorem enqueue_silent (inputId : String) (value : Record) :
    Code.Only (Silent execution.filedName)
      (execution.store.enqueueInput execution.branchId inputId value) :=
  silent_ledger rfl (by simp)

theorem deliverPrompt_silent (token : Int) (prompt : Option Json) (promptId : Option String) :
    Code.Only (Silent execution.filedName)
      (AgentRuntime.deliverPrompt execution token prompt promptId) := by
  cases prompt with
  | none => cases promptId <;> exact Code.only_pure _
  | some prompt =>
    cases promptId with
    | none => exact Code.only_pure _
    | some promptId =>
      refine (enqueue_silent _ _).bind fun inserted => Code.Only.ite (fun _ => ?_) fun _ =>
        Code.only_pure _
      have hadmit : Code.Only (Silent execution.filedName)
          (execution.store.admitInputs execution.branchId [promptId] token) :=
        silent_ledger rfl (by simp)
      exact hadmit.bind fun _ => Code.only_pure _

theorem replaceHistory_silent (runtime : AgentRuntime) (messages : List Message) :
    Code.Only (Silent execution.filedName) (runtime.replaceHistory messages) :=
  Code.Only.ite (fun _ => Code.only_pure _) fun _ => Code.only_ask rfl trivial

theorem close_silent (runtime : AgentRuntime) (reason : StopReason) (toolCalls : Nat) :
    Code.Only (Silent execution.filedName) (runtime.close reason toolCalls) :=
  Code.Only.ite (fun _ => Code.only_pure _) fun _ => Code.only_ask rfl trivial

theorem notifySuspended_silent (boundary : ExecutionBoundary) (turn : Nat)
    (messages : List Message) (parked : List (ToolCall × SuspendRequest)) :
    Code.Only (Silent execution.filedName)
      (AgentRuntime.notifySuspended boundary turn messages parked) := by
  refine Code.Only.ite (fun _ => Code.only_pure _) fun _ => ?_
  induction parked with
  | nil => exact Code.only_pure _
  | cons p parked ih => exact (Code.only_ask rfl trivial).bind fun _ => ih

/-- What a thread knows that drives an attempt under `token`. -/
structure Driving (owners : Owners) (i : Nat) (token : Int) (args : AttemptArgs)
    (P : Code.History (Worker execution.filedName) → Prop) : Prop where
  lasting : Lasting owners i P
  leased : ∀ h, P h → OnLease owners i token (fun _ => True) h
  starts : ∀ h, BranchInv execution.filedName execution.conversation h → P h →
    Starts h.log i token
  /-- It hands over the approvals of the suspension it finalizes, and whether one refuses. -/
  begun : ∀ h, P h → ∀ active, Resuming execution.filedName i active h.log →
    args.deferredToolResults = some active.approvals ∧ args.cancelled = active.refused

/-- A boundary asks the model nothing when the round its thread finalizes was refused. -/
theorem BoundaryOp.said {boundary : ExecutionBoundary} {o : Op} (ho : BoundaryOp boundary o)
    {before : List (Code.Event (Worker execution.filedName))}
    (hcancelled : ∀ active, Resuming execution.filedName i active before →
      boundary.cancelled = active.refused) {r : o.Reply} {s : MemorySteps Record} :
    Said before ⟨i, worker, o, r, s⟩ := by
  cases o with
  | ledger op => trivial
  | ext e =>
    cases e with
    | model messages =>
      intro active hbegun
      rw [← hcancelled active hbegun]
      exact ho
    | mark m => cases m <;> trivial
    | _ => trivial

/-- The run of the agent: what lasts survives it, and a refused round ends aborted. -/
theorem runAgent_works {boundary : ExecutionBoundary} {agent : Agent} {start : RunStart}
    (hP : Lasting owners i P)
    (hcancelled : ∀ h, P h → ∀ active, Resuming execution.filedName i active h.log →
      boundary.cancelled = active.refused) :
    Works body owners i worker P (AgentRuntime.runAgent boundary agent start)
      (fun r h => P h ∧ (boundary.cancelled = true → agent.Reports → start.approvals.isSome →
        ∀ output, r.1.output = .text output → r.2.stopReason = some .aborted))
      fun _ => P := by
  have hensures : ((boundary.drive agent.digest (agent.run start)).runFrom {}).Ensures
      (BoundaryOp boundary)
      (fun r => boundary.cancelled = true → agent.Reports → start.approvals.isSome →
        EndsAborted r) := by
    -- A refused round ends as `aborted` wherever the agent reports; otherwise nothing is claimed.
    by_cases hrefused : boundary.cancelled = true ∧ agent.Reports ∧ start.approvals.isSome
    · obtain ⟨hyes, hreports, hsome⟩ := hrefused
      exact (drive_cancelled hyes agent.digest (hreports start hsome) {}).mono (fun _ ho => ho)
        fun _ hends _ _ _ => hends
    · exact (drive_only (permitsTools_boundaryOp boundary) agent.digest (agent.run start) {}).mono
        (fun _ ho => ho)
        fun _ _ hyes hreports hsome => absurd ⟨hyes, hreports, hsome⟩ hrefused
  have hdrive : Pool.Triple (Code.system body)
      (branchContract owners execution.filedName execution.conversation) i worker P
      ((boundary.drive agent.digest (agent.run start)).runFrom {}) fun r h =>
        (boundary.cancelled = true → agent.Reports → start.approvals.isSome → EndsAborted r) ∧
          P h := by
    refine Triple.invariant hensures hP.stable ?_
    intro o ho h env hinv hpre _
    exact passing_event hP hinv hpre ho.passes env (ho.said (hcancelled h hpre))
  refine Pool.Triple.bind hdrive ?_
  rintro ⟨_ | (e | result), st⟩
  · exact Pool.Triple.pure (stable_const.and hP.stable) fun _ _ h => h.2
  · exact Pool.Triple.pure (stable_const.and hP.stable) fun _ _ h => h.2
  · refine Pool.Triple.pure (stable_const.and hP.stable) fun _ _ h => ⟨h.2, ?_⟩
    intro hyes hreports hsome output htext
    exact h.1 hyes hreports hsome result output rfl htext

/-- What `_park` commits is the suspension in force. -/
theorem live_park (s : MemorySteps Record) (active : Suspension) :
    live execution.filedName (s.applyControls execution.filedName
      (AgentRuntime.parkWrites active).controls.items) = some active := by
  have hfind : Dict.find activeSuspension (AgentRuntime.parkWrites active).controls.items
      = some (some (.suspension active)) := Dict.get?_set_self ..
  obtain ⟨hdone, hvalue⟩ := applyControls_get (AgentRuntime.parkWrites active).controls.nodup
    hfind s execution.filedName
  unfold live suspensionOf
  rw [hdone, hvalue]
  rfl

/-- Parking: refused to a thread that lost the lease, or a fresh round is in force. -/
theorem commit_park_works {token : Int} {active : Suspension} (hP : Lasting owners i P)
    (hleased : ∀ h, P h → OnLease owners i token (fun _ => True) h)
    (hwaiting : active.state = .waiting) (hanswers : active.answers = Dict.empty)
    (hconversation : active.conversationId = execution.conversation) :
    Works body owners i worker P
      (execution.store.commitTransition execution.branchId (AgentRuntime.parkWrites active) token)
      (fun _ _ => True) fun _ _ => True := by
  apply Code.Triple.ledger hP.stable
  · intro h env r s hinv hpre _ hperform
    have hlease := hleased h hpre
    -- Stale: refused, and nothing is parked. Current: the round waits, without answers.
    rcases commitTransition_controls h.now execution.filedName
        (AgentRuntime.parkWrites active).controls token with ⟨_, _, heq⟩ | ⟨hfresh, heq⟩
    · obtain ⟨rfl, rfl⟩ := Prod.mk.inj (heq.symm.trans hperform)
      exact ⟨refused_event hinv, trivial⟩
    · obtain ⟨rfl, rfl⟩ := Prod.mk.inj (heq.symm.trans hperform)
      obtain ⟨hholds, _⟩ := hlease.known hfresh
      have hlive : live execution.filedName (h.now.applyControls execution.filedName
          (AgentRuntime.parkWrites active).controls.items) = some active := live_park h.now active
      have hlegit : Legit h.log ⟨i, worker, .ledger (.commitTransition execution.filedName
          (AgentRuntime.parkWrites active) token), (.ok [] : Except StoreError (List String)),
          h.now.applyControls execution.filedName
            (AgentRuntime.parkWrites active).controls.items⟩ :=
        ⟨.parked ⟨token, [], rfl⟩ hlive hwaiting hanswers, trivial⟩
      refine ⟨(accepted_event hinv rfl hholds hlease.1 hperform hlegit ?_).1, trivial⟩
      intro other hother
      obtain rfl := Option.some.inj (hlive.symm.trans hother)
      exact hconversation
  · exact fun _ => stable_const
  · exact fun _ => stable_const

/-- `_park` raises, whether its round was parked or not. -/
theorem park_works {α : Type} {boundary : ExecutionBoundary} {st : AttemptState}
    {requests : DeferredToolRequests} {messages : List Message} (hP : Lasting owners i P)
    (hleased : ∀ h, P h → OnLease owners i boundary.token (fun _ => True) h)
    {Q : α → Code.History (Worker execution.filedName) → Prop} :
    Works body owners i worker P (AgentRuntime.park execution boundary st requests messages) Q
      fun _ _ => True := by
  have hthrow : ∀ (β : Type) (e : Raised)
      (R : β → Code.History (Worker execution.filedName) → Prop),
      Works body owners i worker P (throw e : Code β) R fun _ _ => True :=
    fun _ _ _ => Code.Triple.throw hP.stable fun _ _ _ => trivial
  have hcomputed : ∀ {β : Type} (r : Except Raised β),
      Works body owners i worker P (Code.ofExcept r) (fun _ => P) fun _ _ => True :=
    fun _ => Code.Triple.ofExcept hP.stable (fun _ _ _ _ h => h) fun _ _ _ _ _ => trivial
  unfold AgentRuntime.park
  -- Two checks, each an error before anything is written.
  by_cases hcalls : requests.calls ≠ []
  · rw [if_pos hcalls]
    exact hthrow _ _ _
  · rw [if_neg hcalls]
    refine Code.Triple.bind (fun _ => stable_const) (hcomputed _) fun parked => ?_
    dsimp only
    by_cases hnodup : ¬ (parked.map fun p => p.2.pendingId.getD "").Nodup
    · rw [if_pos hnodup]
      exact hthrow _ _ _
    · rw [if_neg hnodup]
      have hnotify : Works body owners i worker P
          (AgentRuntime.notifySuspended boundary st.turn messages parked) (fun _ => P) fun _ => P :=
        silent_works (notifySuspended_silent boundary st.turn messages parked) hP
      refine Code.Triple.bind (fun _ => stable_const)
        (hnotify.mono (fun _ _ h => h) (fun _ _ _ h => h) fun _ _ _ _ => trivial) fun _ => ?_
      refine Code.Triple.bind (fun _ => stable_const) (hcomputed _) fun pending => ?_
      -- Parked at last, and announced by a raise.
      cases requests.approvals with
      | nil => exact hthrow _ _ _
      | cons first rest =>
        refine Code.Triple.bind (fun _ => stable_const)
          (commit_park_works hP hleased rfl rfl rfl) fun _ => ?_
        exact Code.Triple.throw stable_const fun _ _ _ => trivial

/-- An attempt: what its thread knows lasts until it returns. -/
theorem attempt_works {runtime : AgentRuntime} {token : Int} {options : Options}
    {args : AttemptArgs} (hagent : worker.request.agent? = some options.agent)
    (hdriving : Driving owners i token args P) :
    Works body owners i worker P (runtime.attempt execution token options args)
      (fun _ => P) fun _ _ => True := by
  have hP := hdriving.lasting
  have quietly : ∀ {α : Type} {x : Code α}, Code.Only (Silent execution.filedName) x →
      Works body owners i worker P x (fun _ => P) fun _ _ => True :=
    fun hx => (silent_works hx hP).mono (fun _ _ h => h) (fun _ _ _ h => h) fun _ _ _ _ => trivial
  refine Code.Triple.bind (fun _ => stable_const) (quietly (openHistory_silent runtime _))
    fun history => ?_
  refine Code.Triple.bind (fun _ => stable_const) (quietly (deliverPrompt_silent token _ _))
    fun prompt => ?_
  dsimp only
  -- the run is announced with what the thread knows
  have hannounced : Works body owners i worker P
      (Code.mark (.agentRun token ⟨prompt, history, args.deferredToolResults⟩))
      (fun _ => P) fun _ => P := mark_works trivial hP (by
      intro h hinv hpre
      exact ⟨hdriving.starts h hinv hpre, fun active hbegun =>
        (hdriving.begun h hpre active hbegun).1⟩)
  refine Code.Triple.bind (fun _ => stable_const)
    (hannounced.mono (fun _ _ h => h) (fun _ _ _ h => h) fun _ _ _ _ => trivial) fun _ => ?_
  have hcancelled : ∀ h, P h → ∀ active, Resuming execution.filedName i active h.log →
      (runtime.boundary execution token options args).cancelled = active.refused :=
    fun h hpre active hbegun => (hdriving.begun h hpre active hbegun).2
  have hrun := @runAgent_works owners execution i worker _ body P _ options.agent
    ⟨prompt, history, args.deferredToolResults⟩ hP hcancelled
  refine Code.Triple.bind (fun _ => stable_const)
    (hrun.mono (fun _ _ h => h) (fun _ _ _ h => h) fun _ _ _ _ => trivial) fun r => ?_
  obtain ⟨result, st⟩ := r
  refine Code.Triple.known (a := args.cancelled = true → options.agent.Reports →
    args.deferredToolResults.isSome → ∀ output, result.output = .text output →
      st.stopReason = some .aborted) (fun _ h => h.2) fun haborted => ?_
  refine Code.Triple.pre ?_ fun _ _ h => h.1
  refine Code.Triple.bind (fun _ => stable_const) (quietly (replaceHistory_silent runtime _))
    fun _ => ?_
  cases houtput : result.output with
  | deferred requests => exact park_works hP hdriving.leased
  | text output =>
    dsimp only
    refine Code.Triple.bind (fun _ => stable_const) (quietly (close_silent runtime _ _))
      fun _ => ?_
    have hended : Works body owners i worker P
        (Code.mark (.ended (st.stopReason.getD .completed))) (fun _ => P) fun _ => P :=
      mark_works trivial hP (by
        intro h _ hpre active hbegun hrefused hreports
        obtain ⟨happrovals, hcancelled⟩ := hdriving.begun h hpre active hbegun
        have hreason := haborted (hcancelled.trans hrefused) (hreports options.agent hagent)
          (by rw [happrovals]; rfl) output houtput
        rw [hreason]
        rfl)
    refine Code.Triple.bind (fun _ => stable_const)
      (hended.mono (fun _ _ h => h) (fun _ _ _ h => h) fun _ _ _ _ => trivial) fun _ => ?_
    exact Code.Triple.pure hP.stable fun _ _ h => h

end methods

end Semora
