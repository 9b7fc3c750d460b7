import Semora.Agent.ForkCopy
import Semora.Agent.BranchAttempt

/-! # The Attempt a Fork Starts

    What an attempt on the target does to the steps that were copied: nothing,
    when their calls are settled. A tool whose step is done is answered from
    it, one whose step is running is refused; neither writes the step or
    reaches the handler.

    The rules are stated for any assertion `P` that the other operations of an
    attempt keep, and any reason `G` a call needs before its record is handed
    back. -/

namespace Semora

open Pool MemorySteps

namespace Forking

/-! ## Section 1: Operations beside the tools -/

/-- The questions and marks that say nothing about a tool's result. -/
def External.beside : External → Bool
  | .handler .. => false
  | .mark (.agentRun ..) => false
  | .mark (.toolReturned ..) => false
  | _ => true

/-- What an attempt on the branch filed as `b` does beside its tools. -/
inductive Aside (b : String) : Op → Prop where
  | ledger (op : LedgerOp Record) (hbranch : op.branchId = b) (howner : op.owner? = none)
      (hsteps : ∀ callId, stepKey callId ∉ op.keys) (hsuspension : activeSuspension ∉ op.keys) :
      Aside b (.ledger op)
  | park (active : Suspension) (token : Int) (h : ¬ active.Decided) :
      Aside b (.ledger (.commitTransition b (AgentRuntime.parkWrites active) token))
  | ext (e : External) (h : External.beside e = true) : Aside b (.ext e)

section aside

variable {b : String} {boundary : ExecutionBoundary}

theorem stepKey_ne_suspendKey (callId callId' : String) : stepKey callId ≠ suspendKey callId' := by
  intro h
  have hlist := congrArg String.toList h
  simp [stepKey, suspendKey, String.toList_append] at hlist

/-- What `_park` writes are suspension keys. -/
theorem parkWrites_keys {active : Suspension} {key : String}
    (h : key ∈ (AgentRuntime.parkWrites active).controls.items.map Prod.fst) :
    key = activeSuspension ∨ ∃ callId, key = suspendKey callId := by
  refine (Dict.mem_keys_put h).imp id fun hmem => ?_
  have hfold : ∀ (callIds : List String) (writes : Dict String (Option Record)),
      key ∈ (callIds.foldl (fun writes callId =>
        writes.set (suspendKey callId) (some (.suspendIndex active.callId))) writes).items.map
          Prod.fst →
      key ∈ writes.items.map Prod.fst ∨ ∃ callId, key = suspendKey callId := by
    intro callIds
    induction callIds with
    | nil => exact fun _ hmem => Or.inl hmem
    | cons callId callIds ih =>
      intro writes hmem
      rcases ih _ hmem with hmem | hkey
      · exact (Dict.mem_keys_put hmem).symm.imp id fun hkey => ⟨callId, hkey⟩
      · exact Or.inr hkey
  rcases hfold active.callIds Dict.empty hmem with hmem | hkey
  · cases hmem
  · exact hkey

/-- What is beside the tools leaves their steps alone. -/
theorem Aside.steps {op : LedgerOp Record} (h : Aside b (.ledger op)) (callId : String) :
    stepKey callId ∉ op.keys := by
  cases h with
  | ledger _ _ _ hsteps _ => exact hsteps callId
  | park active token _ =>
    intro hmem
    have hkeys : stepKey callId ∈ (AgentRuntime.parkWrites active).controls.items.map Prod.fst := by
      simpa [LedgerOp.keys, AgentRuntime.parkWrites] using hmem
    rcases parkWrites_keys hkeys with heq | ⟨callId', heq⟩
    · exact stepKey_ne_activeSuspension callId heq
    · exact stepKey_ne_suspendKey callId callId' heq

theorem Aside.branch {op : LedgerOp Record} (h : Aside b (.ledger op)) : op.branchId = b := by
  cases h with
  | ledger _ hbranch _ _ _ => exact hbranch
  | park active token _ => rfl

theorem aside_key (hb : boundary.store.name boundary.branchId = b) {key : String}
    (hstep : ∀ callId, stepKey callId ≠ key) (hsuspension : activeSuspension ≠ key) :
    PermitsKey boundary (Aside b) key := by
  intro op hbranch howner _ hkeys
  refine .ledger op (hbranch.trans hb) howner (fun callId hmem => ?_) fun hmem => ?_
  · exact hstep callId (hkeys _ hmem)
  · exact hsuspension (hkeys _ hmem)

/-- Everything a boundary does but to invoke a tool is beside the tools. -/
theorem permits_aside (hb : boundary.store.name boundary.branchId = b) :
    Permits boundary (Aside b) where
  pendingRound := aside_key hb (fun callId h => pendingRoundKey_ne_stepKey callId h.symm)
    pendingRoundKey_ne_activeSuspension.symm
  modelStep digest := aside_key hb (fun callId h => modelStepKey_ne_stepKey digest callId h.symm)
    (modelStepKey_ne_activeSuspension digest).symm
  asked e he := by
    refine .ext e ?_
    cases e with
    | mark m => cases he
    | handler call args => cases he
    | _ => rfl
  model _ _ := .ext _ rfl
  mark m hm := by
    refine .ext _ ?_
    cases m with
    | toolReturned callId result => cases hm
    | agentRun token start => cases hm
    | _ => rfl

theorem after_aside (hb : boundary.store.name boundary.branchId = b) (callId : String) :
    PermitsKey boundary (Aside b) (afterKey callId) :=
  aside_key hb (fun callId' => stepKey_ne_afterKey callId' callId)
    (afterKey_ne_activeSuspension callId).symm

end aside

/-! ## Section 2: What an attempt keeps -/

section attempt

variable {C : Type} {ρ : C → Type} {body : Nat → (call : C) → Prog Op Op.Reply (ρ call)}
  {I P : Code.History C → Prop} {A : Code.History C → Code.Event C → Prop} {tid : Nat}
  {request : C} {b : String} {retry : Bool} {Settled : String → Prop}
  {G : String → List (Code.Event C) → Prop}

/-- The operation keeps the invariant and `P`. -/
abbrev OpKeeps (I : Code.History C → Prop) (A : Code.History C → Code.Event C → Prop) (tid : Nat)
    (request : C) (P : Code.History C → Prop) (o : Op) : Prop :=
  Code.Operation .none I A tid request P o fun _ => P

/-- What the operations of an attempt keep: those beside the tools, those of the tools whose
    calls are not settled, and the return of a record that there is a reason for. -/
structure AttemptKeeps (b : String) (retry : Bool) (Settled : String → Prop)
    (I : Code.History C → Prop) (A : Code.History C → Code.Event C → Prop) (tid : Nat)
    (request : C) (P : Code.History C → Prop) (G : String → List (Code.Event C) → Prop) :
    Prop where
  aside : ∀ o, Aside b o → OpKeeps I A tid request P o
  own : ∀ callId, ¬ Settled callId → ∀ op : LedgerOp Record, op.branchId = b →
    op.owner? = none → (∀ k ∈ op.keys, k = stepKey callId) →
      OpKeeps I A tid request P (.ledger op)
  handler : ∀ call args, ¬ Settled call.toolCallId →
    OpKeeps I A tid request P (.ext (.handler call args))
  settled : ∀ h, P h → ∀ callId, Settled callId →
    (h.now.entry b (stepKey callId)).status = .done ∨
      ((h.now.entry b (stepKey callId)).status = .running ∧ retry = false)
  returned : ∀ callId record, Code.Operation .none I A tid request
    (fun h => P h ∧ G callId h.log) (.ext (.mark (.toolReturned callId (.ok record)))) fun _ => P
  grows : ∀ callId log more, G callId log → G callId (log ++ more)

/-- What is known of the log stays known. -/
theorem OpKeeps.known {o : Op} {R : List (Code.Event C) → Prop}
    (hR : ∀ log more, R log → R (log ++ more)) (ho : OpKeeps I A tid request P o) :
    OpKeeps I A tid request (fun h => P h ∧ R h.log) o := by
  rintro last h r s ⟨hP, hlog⟩ rfl hinv hnext hallowed hperform
  obtain ⟨hI, hP'⟩ := ho _ _ r s hP rfl hinv hnext hallowed hperform
  exact ⟨hI, hP', hR _ _ hlog⟩

variable (K : AttemptKeeps b retry Settled I A tid request P G) {boundary : ExecutionBoundary}
  (hb : boundary.store.name boundary.branchId = b) (hretry : boundary.retryRunning = retry)

include K hb hretry

/-- A settled call is answered from its record, or refused. -/
theorem tool_settled {callId : String} (hsettled : Settled callId) (handler : Code Json) :
    Code.Serial body .none I A tid request (fun h => P h ∧ G callId h.log)
      (boundary.journal.tool callId handler) (fun _ h => P h ∧ G callId h.log) fun _ => P := by
  -- The step is read as settled: done, or running where running steps are not retried.
  have hread : Code.Serial body .none I A tid request (fun h => P h ∧ G callId h.log)
      (boundary.journal.store.read boundary.journal.branchId (stepKey callId))
      (fun step h => (step.status = .done ∨ (step.status = .running ∧ retry = false)) ∧
        (P h ∧ G callId h.log)) fun _ => P := by
    refine Code.Serial.ledger ?_
    rintro last h r s ⟨hP, hG⟩ rfl hinv hnext hallowed hperform
    have haside : Aside b (.ledger (.read b (stepKey callId))) :=
      .ledger _ rfl rfl (by simp [LedgerOp.keys]) (by simp [LedgerOp.keys])
    have hkeep := (K.aside _ haside).known (K.grows callId)
    rw [← hb] at hkeep
    obtain ⟨hI, hpost⟩ := hkeep _ _ r s ⟨hP, hG⟩ rfl hinv hnext hallowed hperform
    obtain ⟨x, hx⟩ := hperform
    obtain ⟨rfl, rfl⟩ := Prod.mk.inj hx
    refine ⟨hI, ?_, hpost⟩
    have hstatus := K.settled _ hP callId hsettled
    rw [← hb] at hstatus
    exact hstatus
  unfold EffectJournal.tool
  refine hread.bind fun step => Code.Serial.ite (fun hdone => ?_) fun hdone => ?_
  · exact Code.Serial.pure fun _ hpre => hpre.2
  · -- Running and not retried: the reclaim refuses it, and no handler runs.
    refine Code.Serial.known (a := step.status = .running ∧ retry = false)
      (fun h hpre => hpre.1.resolve_left hdone) fun hrunning => ?_
    -- a step in doubt is not repeated
    have hrefused : boundary.journal.reclaim (stepKey callId) step
        = throw (.indeterminate boundary.journal.branchId (stepKey callId) step.version) := by
      have hno : ¬ boundary.journal.retryRunning = true := by
        show ¬ boundary.retryRunning = true
        rw [hretry, hrunning.2]
        decide
      unfold EffectJournal.reclaim
      rw [if_pos hrunning.1, if_pos hno]
    rw [hrefused]
    exact (Code.Serial.throw fun _ hpre => hpre.2.1).bind (Q := fun _ _ => False)
      fun _ => Pool.Serial.absurd fun _ hfalse => hfalse

/-- The journal's answer about any call. -/
theorem tool_serial (call : ToolCall) (args : Json) :
    Code.Serial body .none I A tid request (fun h => P h ∧ G call.toolCallId h.log)
      (boundary.journal.tool call.toolCallId (Code.ask (.handler call args)))
      (fun _ h => P h ∧ G call.toolCallId h.log) fun _ => P := by
  by_cases hsettled : Settled call.toolCallId
  · exact tool_settled K hb hretry hsettled _
  · have honly : Code.Only
        (OpKeeps I A tid request fun h => P h ∧ G call.toolCallId h.log)
        (boundary.journal.tool call.toolCallId (Code.ask (.handler call args))) := by
      refine tool_only ?_ (Code.only_ask rfl ?_)
      · intro op hbranch howner _ hkeys
        exact (K.own _ hsettled op (hbranch.trans hb) howner hkeys).known (K.grows _)
      · exact (K.handler call args hsettled).known (K.grows _)
    refine (Code.Serial.invariant honly fun _ ho => ho).mono (fun _ hpre => hpre)
      (fun _ _ hpost => hpost) fun _ _ hpost => hpost.1

/-- A tool call that was let through. -/
theorem wrapToolExecute_serial (ctx : RunContext) (tool : ToolDefinition) (call : ToolCall)
    (args : Json) :
    AttemptM.Serial body .none I A tid request (fun _ h => P h ∧ G call.toolCallId h.log)
      (boundary.wrapToolExecute ctx tool call args) (fun _ _ => P) fun _ _ => P := by
  refine (AttemptM.Serial.code fun _ => tool_serial K hb hretry call args).bind fun record => ?_
  refine (AttemptM.Serial.code (Q := fun _ _ => P) fun _ =>
    Code.Serial.mark (K.returned call.toolCallId record)).bind fun _ => ?_
  refine AttemptM.Serial.state.bind fun st => ?_
  have hkey : PermitsKey boundary (OpKeeps I A tid request P) (afterKey call.toolCallId) :=
    fun op hbranch howner hcalled hkeys =>
      K.aside _ (after_aside hb _ op hbranch howner hcalled hkeys)
  have honly := project_only hkey (fun here committed => K.aside _ (.ext _ rfl))
    (boundary.policy.context st ctx [] (some tool)) record
  exact (AttemptM.Serial.invariant honly fun _ ho => ho).pre fun _ _ hpre => hpre.2

omit hb hretry in
/-- A hook that is not about a tool. -/
theorem aside_serial {α : Type} {x : AttemptM α} (hx : AttemptM.Only (Aside b) x) :
    AttemptM.Serial body .none I A tid request (fun _ => P) x (fun _ _ => P) fun _ _ => P :=
  AttemptM.Serial.invariant hx K.aside

/-- **The agent's run** under the boundary keeps `P`, when every call that is let through has
    a reason. -/
theorem drive_serial {α : Type} {permitted : NodeOp → Prop}
    (hbefore : ∀ ctx tool call args approved, permitted (.tool ctx tool call args approved) →
      AttemptM.Serial body .none I A tid request (fun _ => P)
        (boundary.beforeToolExecute ctx tool call args approved)
        (fun _ _ h => P h ∧ G call.toolCallId h.log) fun _ _ => P)
    (digest : List Message → List ToolDefinition → String) {program : AgentProg α}
    (hprogram : program.All permitted) :
    AttemptM.Serial body .none I A tid request (fun _ => P) (boundary.drive digest program)
      (fun _ _ => P) fun _ _ => P := by
  have hφ := permits_aside hb
  -- Induction on the agent's program: four hooks stand aside, and a tool call goes past its gate.
  induction program with
  | pure a => exact AttemptM.Serial.pure fun _ _ hP => hP
  | perform o next ih =>
    have hhook : AttemptM.Serial body .none I A tid request (fun _ => P) (boundary.hook digest o)
        (fun _ _ => P) fun _ _ => P := by
      cases o with
      | modelRequest ctx model tools =>
        exact aside_serial K (modelRequestNode_only hφ.toPermitsTurns digest ctx model tools)
      | prepareTools tools => exact aside_serial K (prepareTools_only hφ.controls tools)
      | callTools ctx response =>
        exact aside_serial K (callToolsNode_only hφ.controls hφ.pendingRound ctx response)
      | toolsCalled ctx response result =>
        exact aside_serial K (toolsCalledNode_only hφ.toPermitsTurns ctx response result)
      | tool ctx tool call args approved =>
        exact (hbefore ctx tool call args approved hprogram.1).bind fun args =>
          wrapToolExecute_serial K hb hretry ctx tool call args
    refine (AttemptM.Serial.attempt hhook).bind fun r => ?_
    refine (ih r (hprogram.2 r)).pre fun _ _ hpre => ?_
    cases r with
    | ok a => exact hpre
    | error e => exact hpre

end attempt

/-! ## Section 3: `_attempt` -/

section run

variable {C : Type} {ρ : C → Type} {body : Nat → (call : C) → Prog Op Op.Reply (ρ call)}
  {I P P₁ : Code.History C → Prop} {A : Code.History C → Code.Event C → Prop} {tid : Nat}
  {request : C} {b : String} {execution : ExecutionContext} {runtime : AgentRuntime}
  {E : Raised → Code.History C → Prop}

/-- Code that is beside the tools. -/
theorem aside_code (hP : ∀ o, Aside b o → OpKeeps I A tid request P o) {α : Type} {x : Code α}
    (hx : Code.Only (Aside b) x) :
    Code.Serial body .none I A tid request P x (fun _ => P) fun _ => P :=
  Code.Serial.invariant hx hP

theorem notifyEach_aside (ctx : Ctx) (messages : List Message) (completed : List (String × Json))
    (parked : List (ToolCall × SuspendRequest)) :
    Code.Only (Aside b) (AgentRuntime.notifyEach ctx messages completed parked) := by
  induction parked with
  | nil => exact Code.only_pure _
  | cons p parked ih => exact (Code.only_ask rfl (.ext _ rfl)).bind fun _ => ih

/-- A round that parks waits for an answer. -/
theorem park_aside {α : Type} (hb : execution.filedName = b) (boundary : ExecutionBoundary)
    (st : AttemptState) (requests : DeferredToolRequests) (messages : List Message) :
    Code.Only (Aside b) (AgentRuntime.park (α := α) execution boundary st requests messages) := by
  unfold AgentRuntime.park
  refine Code.Only.ite (fun _ => Code.only_throw _) fun _ => ?_
  refine (Code.only_ofExcept _).bind fun parked => ?_
  refine Code.Only.ite (fun _ => Code.only_throw _) fun _ => ?_
  have hnotify : Code.Only (Aside b)
      (AgentRuntime.notifySuspended boundary st.turn messages parked) :=
    Code.Only.ite (fun _ => Code.only_pure _) fun _ => notifyEach_aside _ _ _ parked
  refine hnotify.bind fun _ => (Code.only_ofExcept _).bind fun pending => ?_
  cases happrovals : requests.approvals with
  | nil => exact Code.only_throw _
  | cons first rest =>
    have hcommit : Code.Only (Aside b) (execution.store.commitTransition execution.branchId
        (AgentRuntime.parkWrites (AgentRuntime.parkedSuspension execution.conversation boundary
          st.turn requests messages first.toolCallId)) boundary.token) := by
      refine Code.only_ledger ?_
      have hname : execution.store.name execution.branchId = b := hb
      rw [hname]
      refine .park _ _ fun hdecided => ?_
      have hfirst := hdecided first (show first ∈ requests.approvals by rw [happrovals]; simp)
      cases hfirst
    exact hcommit.bind fun _ => Code.only_throw _

theorem transcript_aside (op : TranscriptOp) :
    Code.Only (Aside b) (Code.ask (α := op.Result) (.transcript op)) :=
  Code.only_ask rfl (.ext _ rfl)

/-- A question to the transcript. -/
theorem transcript_serial
    (hopen : ∀ op, Code.Operation .none I A tid request P₁ (.ext (.transcript op))
      fun (r : Except Raised op.Result) =>
        match r with
        | .ok _ => P₁
        | .error e => E e) (op : TranscriptOp) :
    Code.Serial body .none I A tid request P₁ (Code.ask (α := op.Result) (.transcript op))
      (fun _ => P₁) E := by
  refine Code.Serial.ask rfl ?_
  intro last h r s hP hrel hinv hnext hallowed hperform
  obtain ⟨hI, hpost⟩ := hopen op last h r s hP hrel hinv hnext hallowed hperform
  refine ⟨hI, ?_⟩
  change Except Raised op.Result at r
  cases r with
  | ok a => exact hpost
  | error e => exact hpost

/-- **An attempt** on the target, from a history that was handed to it: `P₁` holds up to the call
    of `agent.run`, `P` from there on. -/
theorem attempt_serial (hb : execution.filedName = b) {token : Int} {options : Options}
    {history : List Message} {prompt : Option Json} {regate : List String}
    (hopen : ∀ op, Code.Operation .none I A tid request P₁ (.ext (.transcript op))
      fun (r : Except Raised op.Result) =>
        match r with
        | .ok _ => P₁
        | .error e => E e)
    (hrun : Code.Operation .none I A tid request P₁
      (.ext (.mark (.agentRun token ⟨prompt, some history, none⟩))) fun _ => P)
    (hP : ∀ o, Aside b o → OpKeeps I A tid request P o) (hE : ∀ e h, P h → E e h)
    (hdrive : AttemptM.Serial body .none I A tid request (fun _ => P)
      ((runtime.boundary execution token options
        { prompt := prompt, messageHistory := some history, regate := regate }).drive
          options.agent.digest (options.agent.run ⟨prompt, some history, none⟩))
      (fun _ _ => P) fun _ _ => P) :
    Code.Serial body .none I A tid request P₁
      (runtime.attempt execution token options
        { prompt := prompt, messageHistory := some history, regate := regate })
      (fun _ => P) E := by
  -- The order of the source: open, deliver, announce, drive, then write what the run came to.
  have hhistory : Code.Serial body .none I A tid request P₁
      (runtime.openHistory execution (some history)) (fun found h => found = some history ∧ P₁ h)
      E := by
    unfold AgentRuntime.openHistory
    refine Code.Serial.ite (fun _ => Code.Serial.pure fun _ hpre => ⟨rfl, hpre⟩) fun _ => ?_
    refine (transcript_serial hopen
      (.openBranch execution.conversation execution.branchId)).bind fun _ => ?_
    exact (transcript_serial hopen (.replace history)).bind fun _ =>
      Code.Serial.pure fun _ hpre => ⟨rfl, hpre⟩
  have hrest : ∀ {α : Type} {x : Code α}, Code.Only (Aside b) x →
      Code.Serial body .none I A tid request P x (fun _ => P) E :=
    fun hx => (aside_code hP hx).mono (fun _ hpre => hpre) (fun _ _ hpost => hpost)
      fun e h hpost => hE e h hpost
  refine hhistory.bind fun found => ?_
  refine Code.Serial.known (a := found = some history) (fun _ hpre => hpre.1) fun hfound => ?_
  subst hfound
  -- a prompt without an id is not queued
  have hprompt : AgentRuntime.deliverPrompt execution token prompt none = pure prompt := by
    cases prompt <;> rfl
  rw [hprompt, pure_bind]
  refine Code.Serial.bind (Q := fun _ => P)
    ((Code.Serial.mark (Q := fun _ => P) hrun).pre fun _ hpre => hpre.2) fun _ => ?_
  have hagent : Code.Serial body .none I A tid request P
      (AgentRuntime.runAgent (runtime.boundary execution token options
        { prompt := prompt, messageHistory := some history, regate := regate }) options.agent
          ⟨prompt, some history, none⟩) (fun _ => P) E := by
    rw [AgentRuntime.runAgent_eq]
    refine Code.Serial.bind ((hdrive {}).mono (fun _ h => h) (fun _ _ h => h)
      fun _ _ h => h.elim) ?_
    rintro ⟨e | (e | result), st⟩
    · exact Code.Serial.throw fun h hpre => hE e h hpre
    · exact Code.Serial.throw fun h hpre => hE e h hpre
    · exact Code.Serial.pure fun _ hpre => hpre
  refine hagent.bind fun r => ?_
  obtain ⟨result, st⟩ := r
  have hreplace : Code.Only (Aside b) (runtime.replaceHistory result.messages) :=
    Code.Only.ite (fun _ => Code.only_pure _) fun _ => transcript_aside (.replace result.messages)
  refine (hrest hreplace).bind fun _ => ?_
  cases result.output with
  | deferred requests => exact hrest (park_aside hb _ st requests result.messages)
  | text output =>
    have hclose : Code.Only (Aside b)
        (runtime.close (st.stopReason.getD .completed) st.callsMade.length) :=
      Code.Only.ite (fun _ => Code.only_pure _) fun _ => transcript_aside (.closed _ _)
    refine (hrest hclose).bind fun _ => ?_
    exact (hrest (Code.only_mark (.ext _ rfl))).bind fun _ => Code.Serial.pure fun _ hpre => hpre

end run

end Forking

end Semora
