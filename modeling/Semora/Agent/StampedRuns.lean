import Semora.Agent.Stamping

/-! # Attempts and What They Name

    The methods of the runtime under the monitor: an attempt starts from a
    history that names no input twice, so what it shows, records and parks
    names none twice; a finalization takes up what was parked, and a recovery
    what the transcript holds. -/

namespace Semora

open Pool MemorySteps

/-! ## Section 1: Code under the monitor -/

section rules

variable {execution : ExecutionContext} {α β : Type} {P : List String → Prop} {x : Code α}
  {Q : α → List String → Prop}

theorem Stamps.bind {f : α → Code β} {Q' : β → List String → Prop}
    (hx : Stamps execution P x Q) (hf : ∀ a, Stamps execution (Q a) (f a) Q') :
    Stamps execution P (x >>= f) Q' := Code.Watched.bind hx hf

theorem Stamps.pure {a : α} (h : ∀ branch, P branch → Q a branch) :
    Stamps execution P (Pure.pure a) Q := fun m hm hclean => h m.branch (hm hclean)

theorem Stamps.throw {e : Raised} : Stamps execution P (throw e) Q := fun _ _ => trivial

theorem Stamps.ite {p : Prop} [Decidable p] {y : Code α} (hx : p → Stamps execution P x Q)
    (hy : ¬ p → Stamps execution P y Q) : Stamps execution P (if p then x else y) Q :=
  Code.Watched.ite hx hy

theorem Stamps.mono {P' : List String → Prop} {Q' : α → List String → Prop}
    (hx : Stamps execution P x Q) (hP : ∀ branch, P' branch → P branch)
    (hQ : ∀ a branch, Q a branch → Q' a branch) : Stamps execution P' x Q' :=
  Code.Watched.mono hx (fun _ h hclean => hP _ (h hclean)) (fun _ _ h hclean => hQ _ _ (h hclean))
    fun _ _ _ => trivial

end rules

section operations

variable {execution : ExecutionContext}

/-- A queued input that names itself may be offered. -/
theorem storesOnce_enqueue {b inputId : String} {value : Record} (h : ItemUnder inputId value) :
    StoresOnce execution (.enqueueInput b inputId value) := by
  refine storesOnce_apart (fun _ item hitem => ?_) (Or.inr List.not_mem_nil)
  obtain rfl := List.mem_singleton.mp hitem
  exact h

/-- The suspension may be written again, as it was parked. -/
theorem storesOnce_write {value : Option Record} {token : Int}
    (h : ∀ active, value = some (.suspension active) →
      WellParked execution.conversation active) :
    StoresOnce execution (.writeControl execution.filedName activeSuspension value token) where
  offered _ := nofun
  parked now later s active hactive := by
    change live execution.filedName
      (s.writeControl execution.filedName activeSuspension value token).2 = some active at hactive
    rcases writeControl_cases s execution.filedName activeSuspension value token with
      ⟨_, _, heq⟩ | ⟨_, heq⟩
    · rw [heq] at hactive
      exact Or.inl hactive
    · rw [heq, live_setEntry] at hactive
      refine Or.inr (h active ?_)
      cases value with
      | none => cases hactive
      | some value =>
        cases value with
        | suspension other => exact congrArg (some ∘ Record.suspension) (Option.some.inj hactive)
        | _ => cases hactive

/-- A round may be parked that names no input twice. -/
theorem storesOnce_park {active : Suspension} {token : Int}
    (h : WellParked execution.conversation active) :
    StoresOnce execution
      (.commitTransition execution.filedName (AgentRuntime.parkWrites active) token) where
  offered _ := nofun
  parked now later s other hother := by
    change live execution.filedName (s.commitTransition execution.filedName
      (AgentRuntime.parkWrites active) token).2 = some other at hother
    rcases commitTransition_controls s execution.filedName (AgentRuntime.parkWrites active).controls
      token with ⟨_, _, heq⟩ | ⟨_, heq⟩
    · change s.commitTransition execution.filedName
        (AgentRuntime.parkWrites active) token = _ at heq
      rw [heq] at hother
      exact Or.inl hother
    · change s.commitTransition execution.filedName
        (AgentRuntime.parkWrites active) token = _ at heq
      rw [heq, live_park] at hother
      exact Or.inr (Option.some.inj hother ▸ h)

theorem submit_quiet (item : PendingInput) :
    Code.Only (Stamping.Quiet execution) (AgentRuntime.submit execution item) := by
  have huuid : Stamping.Quiet execution (.ext .uuid4) := ⟨fun _ => trivial, fun _ _ => rfl⟩
  refine (originOf_only huuid item).bind fun originId => ?_
  have hinsert : Code.Only (Stamping.Quiet execution) (execution.store.enqueueInput
      execution.branchId originId (.input { item with originId := some originId })) :=
    Code.only_ledger (quiet_ledger (storesOnce_enqueue ⟨_, rfl, rfl⟩))
  exact hinsert.bind fun _ => Code.only_pure _

theorem state_quiet (runtime : AgentRuntime) :
    Code.Only (Stamping.Quiet execution) (runtime.state execution) :=
  state_only (quiet_silent rfl rfl) ⟨fun _ => trivial, fun _ _ => rfl⟩

end operations

/-! ## Section 2: An attempt -/

section attempt

variable {execution : ExecutionContext} {runtime : AgentRuntime} {options : Options}
  {P : List String → Prop}

/-- `_open`: the history an attempt starts from is what its branch names. -/
theorem openHistory_stamps (htranscript : runtime.transcript = true)
    {history : Option (List Message)}
    (hhistory : ∀ messages, history = some messages → (representedInputs messages).Nodup) :
    Stamps execution P (runtime.openHistory execution history) fun history branch =>
      branch.Nodup ∧ representedInputs (history.getD []) = branch := by
  refine Stamps.ite (fun hnone => absurd htranscript hnone) fun _ => ?_
  have hopened : Stamps execution P
      (Code.ask (α := List Message)
        (.transcript (.openBranch execution.conversation execution.branchId)))
      fun messages branch => branch.Nodup ∧ representedInputs messages = branch := by
    refine Code.Watched.ask rfl (fun _ _ _ => trivial) fun m hm r => ?_
    cases r with
    | error e => trivial
    | ok messages => exact fun hclean => ⟨hclean.2, rfl⟩
  refine Stamps.bind hopened fun messages => ?_
  cases history with
  | none =>
    refine Stamps.pure fun branch h => ⟨h.1, ?_⟩
    rw [← h.2]
    -- No messages are passed on as no history: neither names anything.
    by_cases hempty : messages = []
    · rw [if_pos hempty, hempty]
      rfl
    · rw [if_neg hempty]
      rfl
  | some history =>
    have hreplaced : Stamps execution
        (fun branch => branch.Nodup ∧ representedInputs messages = branch)
        (Code.ask (α := Unit) (.transcript (.replace history)))
        fun _ branch => branch.Nodup ∧ representedInputs history = branch := by
      refine Code.Watched.ask rfl (fun _ _ _ => hhistory history rfl) fun m hm r => ?_
      cases r with
      | error e => trivial
      | ok u => exact fun _ => ⟨hhistory history rfl, rfl⟩
    exact Stamps.bind hreplaced fun _ => Stamps.pure fun _ h => h

/-- The prompt is queued under its own id. -/
theorem deliverPrompt_quiet (token : Int) (prompt : Option Json) (promptId : Option String) :
    Code.Only (Stamping.Quiet execution)
      (AgentRuntime.deliverPrompt execution token prompt promptId) := by
  cases prompt with
  | none => exact Code.only_pure _
  | some prompt =>
    cases promptId with
    | none => exact Code.only_pure _
    | some promptId =>
      have hinsert : Code.Only (Stamping.Quiet execution) (execution.store.enqueueInput
          execution.branchId promptId (.input ⟨"user_prompt", .userPrompt prompt, some promptId⟩)) :=
        Code.only_ledger (quiet_ledger (storesOnce_enqueue ⟨_, rfl, rfl⟩))
      have hmark : Code.Only (Stamping.Quiet execution)
          (execution.store.admitInputs execution.branchId [promptId] token) :=
        Code.only_ledger (quiet_silent rfl rfl)
      refine hinsert.bind fun inserted => ?_
      exact Code.Only.ite (fun _ => hmark.bind fun _ => Code.only_pure _) fun _ => Code.only_pure _

/-- The run of the agent: its messages name no input twice. -/
theorem runAgent_stamps {boundary : ExecutionBoundary} {agent : Agent} {start : RunStart}
    (hagent : agent.KeepsHistory) (hstamp : start.stamp = [])
    (hb : boundary.store.name boundary.branchId = execution.filedName) :
    Stamps execution
      (fun branch => branch.Nodup ∧ representedInputs (start.history.getD []) = branch)
      (AgentRuntime.runAgent boundary agent start)
      fun r _ => (representedInputs r.1.messages).Nodup := by
  have hprogram := hagent start
  rw [hstamp] at hprogram
  -- The run starts from what it was handed, and its own rule keeps the rest.
  have hkept : representedInputs (start.history.getD []) = representedInputs start.kept := by
    rw [start.kept_ids, hstamp, List.append_nil]
  have hdrive : StampsIn execution (NamesOnce (representedInputs start.kept)
      (representedInputs start.kept)) (boundary.drive agent.digest (agent.run start))
      (fun r _ _ => ∀ result, r = .ok result → (representedInputs result.messages).Nodup)
      fun _ _ => True := drive_stamps hb agent.digest hprogram
  rw [AgentRuntime.runAgent_eq]
  refine Code.Watched.bind ((hdrive {}).mono (fun m hm hclean => ?_) (fun _ _ h => h)
    fun _ _ h => h.elim) ?_
  · obtain ⟨hnodup, hbranch⟩ := hm hclean
    rw [hkept] at hbranch
    rw [← hbranch] at hnodup ⊢
    exact unrepeated_start hnodup
  · rintro ⟨e | (e | result), st⟩
    · exact Code.Watched.throw fun _ _ => trivial
    · exact Code.Watched.throw fun _ _ => trivial
    · exact Code.Watched.pure fun _ h hclean => h hclean result rfl

/-- `_park`: what is parked is what the run ended with. -/
theorem park_quiet {α : Type} {boundary : ExecutionBoundary} {st : AttemptState}
    {requests : DeferredToolRequests} {messages : List Message}
    (hmessages : (representedInputs messages).Nodup) :
    Code.Only (Stamping.Quiet execution)
      (AgentRuntime.park (α := α) execution boundary st requests messages) :=
  park_only (fun _ _ _ _ _ => ⟨fun _ => trivial, fun _ _ => rfl⟩)
    fun _ _ _ => quiet_ledger (storesOnce_park ⟨rfl, hmessages⟩)

/-- `_attempt`. -/
theorem attempt_stamps (hagent : options.agent.KeepsHistory)
    (htranscript : runtime.transcript = true) {token : Int} {args : AttemptArgs}
    (hhistory : ∀ messages, args.messageHistory = some messages →
      (representedInputs messages).Nodup) :
    Stamps execution P (runtime.attempt execution token options args) fun _ _ => True := by
  refine Stamps.bind (openHistory_stamps htranscript hhistory) fun history => ?_
  refine Stamps.bind (quiet_stamps (deliverPrompt_quiet token _ _)) fun prompt => ?_
  -- The order of the source: open, deliver, start, run, replace, and then park or close.
  have hmarked : ∀ start : RunStart, start.history = history →
      Stamps execution
        (fun branch => branch.Nodup ∧ representedInputs (history.getD []) = branch)
        (Code.mark (.agentRun token start)) fun _ branch => start.stamp = [] ∧
          branch.Nodup ∧ representedInputs (start.history.getD []) = branch := by
    rintro start rfl
    exact Code.Watched.mark (fun _ _ _ => trivial) fun m hm hclean => ⟨hclean.2, hm hclean.1⟩
  refine Stamps.bind (hmarked ⟨prompt, history, args.deferredToolResults⟩ rfl) fun _ => ?_
  refine Stamps.known (fun _ h => h.1) fun hstamp => ?_
  have hrun : Stamps execution
      (fun branch => branch.Nodup ∧ representedInputs (history.getD []) = branch)
      (AgentRuntime.runAgent (runtime.boundary execution token options args) options.agent
        ⟨prompt, history, args.deferredToolResults⟩)
      fun r _ => (representedInputs r.1.messages).Nodup := runAgent_stamps hagent hstamp rfl
  refine Stamps.bind (hrun.mono (fun _ h => h.2) fun _ _ h => h) fun r => ?_
  obtain ⟨result, st⟩ := r
  refine Stamps.known (fun _ h => h) fun hmessages => ?_
  have hreplace : Stamps execution (fun _ => (representedInputs result.messages).Nodup)
      (runtime.replaceHistory result.messages) fun _ _ => True := by
    refine Stamps.ite (fun _ => Stamps.pure fun _ _ => trivial) fun _ => ?_
    exact Code.Watched.ask rfl (fun _ hm hclean => hm hclean) fun m hm r => by
      cases r with
      | error e => trivial
      | ok u => exact fun _ => trivial
  refine Stamps.bind hreplace fun _ => quiet_ends ?_
  cases houtput : result.output with
  | deferred requests => exact park_quiet hmessages
  | text output =>
    refine (close_only (fun _ _ => ⟨fun _ => trivial, fun _ _ => rfl⟩) _ _).bind fun _ => ?_
    exact (Code.only_mark ⟨fun _ => trivial, fun _ _ => rfl⟩).bind fun _ => Code.only_pure _

end attempt

/-! ## Section 3: The methods -/

section methods

variable {execution : ExecutionContext} {runtime : AgentRuntime} {owner : String}
  {options : Options} {P : List String → Prop}

/-- `_active`: what is found parked was parked as it should be. -/
theorem active_stamps :
    Stamps execution P (AgentRuntime.active execution) fun found branch =>
      P branch ∧ ∀ active, found = some active → WellParked execution.conversation active := by
  rw [active_eq]
  have hread : Stamps execution P (execution.store.read execution.branchId activeSuspension)
      fun step branch => P branch ∧ ∀ active, suspensionOf step = some active →
        WellParked execution.conversation active := by
    refine Code.Watched.ledger (fun _ _ _ => (quiet_silent rfl rfl).permitted ⟨True, []⟩) ?_
      fun _ _ _ => trivial
    exact fun m hm step hclean => ⟨hm hclean.1, hclean.2 rfl rfl⟩
  exact Stamps.bind hread fun step => Stamps.ite (fun _ => Stamps.throw) fun _ =>
    Stamps.pure fun _ h => h

/-- `_finalize`: the attempt goes on from what was parked. -/
theorem finalize_stamps (hagent : options.agent.KeepsHistory)
    (htranscript : runtime.transcript = true) {token : Int} {active : Suspension}
    (hactive : WellParked execution.conversation active) {answers : Dict String Answer}
    {parked : List (ToolCall × SuspendRequest)} :
    Stamps execution P (runtime.finalize execution token options active answers parked)
      fun _ _ => True := by
  refine Stamps.bind (quiet_stamps (Code.only_mark ⟨fun _ => trivial, fun _ _ => rfl⟩)) fun _ => ?_
  refine Stamps.bind (quiet_stamps (Code.only_ofExcept _)) fun approvals => ?_
  obtain ⟨approvals, cancelled⟩ := approvals
  -- Every suspension written is the one that was read, so it names its inputs once.
  have hresuming : StoresOnce execution (.writeControl execution.filedName activeSuspension
      (some (.suspension { active with state := .resuming, answers := answers })) token) :=
    storesOnce_write fun other hother => by
      cases hother
      exact ⟨hactive.conversation, hactive.nodup⟩
  refine Stamps.bind (quiet_stamps (Code.only_ledger (quiet_ledger hresuming))) fun _ => ?_
  refine Stamps.bind (quiet_stamps (Code.only_ofExcept _)) fun _ => ?_
  rw [executionContext_rejoined hactive.conversation]
  refine Stamps.bind (attempt_stamps hagent htranscript ?_) fun outcome => quiet_ends ?_
  · intro messages heq
    rw [← Option.some.inj heq]
    exact hactive.nodup
  · have hcompleted : StoresOnce execution (.writeControl execution.filedName activeSuspension
        (some (.completed active.callId active.callIds)) token) :=
      storesOnce_write fun other hother => by cases hother
    exact (Code.only_ledger (quiet_ledger hcompleted)).bind fun _ => Code.only_pure _

/-- The body of `resume`. -/
theorem answerUnderLease_stamps (hagent : options.agent.KeepsHistory)
    (htranscript : runtime.transcript = true) {pendingId : String} {answer : Answer}
    {token : Int} :
    Stamps execution P (runtime.answerUnderLease execution options pendingId answer token)
      fun _ _ => True := by
  refine Stamps.bind active_stamps fun found => ?_
  cases found with
  | none => exact Stamps.throw
  | some active =>
    refine Stamps.known (fun _ h => h.2 active rfl) fun hactive => ?_
    refine Stamps.bind (quiet_stamps (Code.only_ofExcept _)) fun parked => ?_
    refine Stamps.bind (quiet_stamps (Code.only_ofExcept _)) fun _ => ?_
    cases byPending parked pendingId with
    | none => exact Stamps.throw
    | some call =>
      -- Answering changes no message of the parked round.
      have hanswered : StoresOnce execution (.writeControl execution.filedName activeSuspension
          (some (.suspension { active with
            answers := active.answers.set call.toolCallId answer })) token) :=
        storesOnce_write fun other hother => by
          cases hother
          exact ⟨hactive.conversation, hactive.nodup⟩
      refine Stamps.bind (quiet_stamps (Code.only_ledger (quiet_ledger hanswered))) fun _ => ?_
      refine Stamps.bind (quiet_stamps (Code.only_ofExcept _)) fun pending => ?_
      exact Stamps.ite (fun _ => Stamps.throw) fun _ => finalize_stamps hagent htranscript hactive

/-- The body of `recover`. -/
theorem recoverUnderLease_stamps (hagent : options.agent.KeepsHistory)
    (htranscript : runtime.transcript = true) {history : List Message}
    (hhistory : (representedInputs history).Nodup) {token : Int} :
    Stamps execution P (runtime.recoverUnderLease execution options history token)
      fun _ _ => True := by
  refine Stamps.bind active_stamps fun found => ?_
  cases found with
  | some active =>
    refine Stamps.known (fun _ h => h.2 active rfl) fun hactive => ?_
    refine Stamps.bind (quiet_stamps (Code.only_ofExcept _)) fun pending => ?_
    refine Stamps.ite (fun _ => Stamps.throw) fun _ => ?_
    exact Stamps.bind (quiet_stamps (Code.only_ofExcept _)) fun parked =>
      finalize_stamps hagent htranscript hactive
  | none =>
    have hcheck : Code.Only (Stamping.Quiet execution)
        (AgentRuntime.checkPendingRound execution history) :=
      checkPendingRound_only (quiet_silent rfl rfl) history
    refine Stamps.bind (quiet_stamps hcheck) fun _ => attempt_stamps hagent htranscript ?_
    intro messages heq
    rw [← Option.some.inj heq]
    exact hhistory

/-- A method under the lease. -/
theorem lease_stamps {α : Type} {method : Method} {body : Int → Code α}
    (hbody : ∀ token, Stamps execution (fun _ => True) (body token) fun _ _ => True) :
    Stamps execution P (runtime.lease execution owner method body) fun _ _ => True := by
  refine Stamps.bind (quiet_stamps (Code.only_mark ⟨fun _ => trivial, fun _ _ => rfl⟩)) fun _ => ?_
  have hacquire : Code.Only (Stamping.Quiet execution)
      (execution.store.acquire execution.branchId owner runtime.leaseTtl) :=
    Code.only_ledger (quiet_silent rfl rfl)
  have hrelease : Stamps execution (fun _ => True)
      (execution.store.release execution.branchId owner) fun _ _ => True :=
    quiet_ends (Code.only_ledger (quiet_silent rfl rfl))
  refine Stamps.bind (quiet_ends hacquire) fun token => ?_
  refine Stamps.ite (fun _ => Stamps.throw) fun _ => ?_
  exact Code.Watched.finally_ (hbody token) (fun _ => hrelease)
    fun _ => Code.Watched.mono hrelease (fun _ _ _ => trivial) (fun _ _ _ => trivial) fun _ _ h => h

/-- `run`. -/
theorem run_stamps (hagent : options.agent.KeepsHistory) (htranscript : runtime.transcript = true)
    {args : AttemptArgs} (hhistory : ∀ messages, args.messageHistory = some messages →
      (representedInputs messages).Nodup) :
    Stamps execution P (runtime.run execution owner options args) fun _ _ => True := by
  have hannounced : Code.Only (Stamping.Quiet execution)
      (AgentRuntime.announceParked execution args.promptId args.prompt) :=
    announceParked_only (quiet_silent rfl rfl) submit_quiet _ _
  refine Stamps.bind (quiet_stamps hannounced) fun _ => ?_
  exact lease_stamps fun _ => attempt_stamps hagent htranscript hhistory

/-- `resume`. -/
theorem resume_stamps (hagent : options.agent.KeepsHistory)
    (htranscript : runtime.transcript = true) {pendingId : String} {answer : Answer} :
    Stamps execution P (runtime.resume execution owner options pendingId answer) fun _ _ => True :=
  lease_stamps fun _ => answerUnderLease_stamps hagent htranscript

/-- `recover`. -/
theorem recover_stamps (hagent : options.agent.KeepsHistory)
    (htranscript : runtime.transcript = true) {history : List Message}
    (hhistory : (representedInputs history).Nodup) :
    Stamps execution P (runtime.recover execution owner options history) fun _ _ => True :=
  lease_stamps fun _ => recoverUnderLease_stamps hagent htranscript hhistory

/-- `resolve_effect`. -/
theorem resolveEffect_stamps {callId : String} {resolution : EffectResolution Record}
    {workersStopped : Bool} :
    Stamps execution P
      (runtime.resolveEffect execution owner callId resolution workersStopped) fun _ _ => True := by
  refine lease_stamps fun token => quiet_ends (Code.only_ledger (quiet_ledger ?_))
  exact storesOnce_idle rfl (Or.inr fun hmem =>
    stepKey_ne_activeSuspension callId (List.mem_singleton.mp hmem).symm)

/-- **`dispatch`**: what is recovered is what the transcript answers. -/
theorem dispatch_stamps (hagent : options.agent.KeepsHistory)
    (htranscript : runtime.transcript = true) {command : Command} :
    Stamps execution (fun _ => True) (runtime.dispatch execution owner options command)
      fun _ _ => True := by
  have hends : ∀ {α : Type} {x : Code α}, Stamps execution (fun _ => True) x (fun _ _ => True) →
      Code.Heeds (stamping execution) (fun m => m.clean → True) x := fun hx =>
    Code.Watched.mono hx (fun _ h => h) (fun _ _ _ => trivial) fun _ _ h => h
  have hstate : Stamps execution (fun _ => True) (runtime.state execution) fun _ _ => True :=
    quiet_stamps (state_quiet runtime)
  refine Code.Watched.mono (dispatch_heeds (P := fun m : Stamping => m.clean → True)
    (fun o ho m _ => Stamping.Quiet.permitted ho m) (state_quiet runtime) hstate submit_quiet
    (fun _ _ => hends (run_stamps hagent htranscript nofun))
    (fun _ _ => hends (resume_stamps hagent htranscript)) fun _ => hends ?_)
    (fun _ h => h) (fun _ _ _ _ => trivial) fun _ _ h => h
  -- What was read is the branch's history, and the transcript names nothing twice.
  have hread : Stamps execution (fun _ => True) (runtime.committedHistory execution)
      fun history _ => (representedInputs history).Nodup := by
    refine Stamps.ite (fun _ => Stamps.throw) fun _ => ?_
    refine Code.Watched.ask rfl (fun _ _ _ => rfl) fun m hm r => ?_
    cases r with
    | error e => trivial
    | ok messages => exact fun hclean => hclean.2
  exact Stamps.bind hread fun history => Stamps.known (fun _ h => h) fun hhistory =>
    recover_stamps hagent htranscript hhistory

end methods

/-! ## Section 4: Requests -/

/-- What a caller hands in names no input twice, the agents keep their history, and what others
    queue for the branch names itself. A fork is left out: it starts on the messages of another
    branch, whose inputs are queued under that branch's name. -/
def Request.StampsOnce {b : String} : Request b → Prop
  | .run options args => options.agent.KeepsHistory ∧ ∀ messages,
      args.messageHistory = some messages → (representedInputs messages).Nodup
  | .resume options _ _ => options.agent.KeepsHistory
  | .recover options history => options.agent.KeepsHistory ∧ (representedInputs history).Nodup
  | .dispatch options _ => options.agent.KeepsHistory
  | .fork .. => False
  | .other op _ => op.branchId = b → ∀ item ∈ op.offers, ItemUnder item.1 item.2
  | .submit _ => True
  | .resolveEffect .. => True
  | .renew _ => True

/-- **Whatever a worker is asked**, it does under the monitor. -/
theorem serve_stamps {owners : Owners} {execution : ExecutionContext} {i : Nat}
    {worker : Worker execution.filedName} (htranscript : worker.runtime.transcript = true)
    (h : worker.request.StampsOnce) :
    Stamps execution (fun _ => True) (serve owners execution i worker) fun _ _ => True := by
  have discard : ∀ {α : Type} {x : Code α},
      Stamps execution (fun _ => True) x (fun _ _ => True) →
      Stamps execution (fun _ => True) (Code.discard x) fun _ _ => True :=
    fun hx => Stamps.bind hx fun _ => Stamps.pure fun _ _ => trivial
  obtain ⟨runtime, request⟩ := worker
  -- One case a request; a fork is excluded, for its history is another branch's.
  cases request with
  | run options args => exact discard (run_stamps h.1 htranscript h.2)
  | resume options pendingId answer => exact discard (resume_stamps h htranscript)
  | recover options history => exact discard (recover_stamps h.1 htranscript h.2)
  | fork options src at_ prompt history regate => exact absurd h id
  | submit item => exact discard (quiet_ends (submit_quiet item))
  | resolveEffect callId resolution workersStopped => exact discard resolveEffect_stamps
  | dispatch options command => exact discard (dispatch_stamps h htranscript)
  | renew j =>
    have hacquire : Code.Only (Stamping.Quiet execution)
        (execution.store.acquire execution.branchId (owners.name j) runtime.leaseTtl) :=
      Code.only_ledger (quiet_silent rfl rfl)
    exact Stamps.bind (quiet_ends hacquire) fun _ => Stamps.pure fun _ _ => trivial
  | other op hop =>
    have hstored : StoresOnce execution op := storesOnce_apart h (hop.imp id fun hidle => hidle.2)
    exact discard (quiet_ends (Code.only_ledger (quiet_ledger hstored)))

end Semora
