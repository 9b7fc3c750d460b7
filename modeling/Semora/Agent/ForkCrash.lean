import Semora.Agent.ForkKnowledge
import Semora.Agent.BranchFinalize

/-! # A Fork and Its Crash

    The fork may crash anywhere; it is tried again, or its target is
    recovered, as often as one likes. Each later try begins with the steps the
    earlier ones left, and with no memory of what they copied.

    The copied steps end as one fork would have left them, and no copied
    record is handed back that the target's controls did not let through, when
    no later try finds the copy half made. -/

namespace Semora

open Pool MemorySteps

/-! ## Section 1: The agent's approvals -/

/-- The node calls a tool as approved. -/
def NodeOp.approves : NodeOp → Bool
  | .tool _ _ _ _ approved => approved
  | _ => false

/-- The agent calls a tool as approved only when its run was handed approvals. -/
def Agent.ApprovesHanded (agent : Agent) : Prop :=
  ∀ start : RunStart, start.approvals = none →
    (agent.run start).All fun o => o.approves = false

namespace Forking

/-! ## Section 2: What is to be proved -/

section property

variable {C : Type} (F : Fork) (history : List Message) (s : MemorySteps Record)

/-- The target's step of a call, as a fork that is not interrupted leaves it. -/
def asForked (call : ToolCall) : Step Record := forkStep (F.sourceStep s call) (F.targetStep s call)

/-- Nothing the attempt does changes the copied step. -/
def Fixed (call : ToolCall) : Prop :=
  (F.sourceStep s call).status = .done ∨
    ((F.sourceStep s call).status ≠ .absent ∧ F.runtime.retryRunning = false)

/-- The controls let the call through. -/
def Allowed (callId : String) (log : List (Code.Event C)) : Prop :=
  ∃ d ∈ log, ∃ here call, call.toolCallId = callId ∧
    d.did (.ext (.preToolUse here call)) (.ok .continue)

/-- Pydantic AI is handed the call's record. -/
def HandsBack (callId : String) (e : Code.Event C) : Prop :=
  ∃ record, e.did (.ext (.mark (.toolReturned callId (.ok record)))) ()

/-- What holds at every event of the fork's tries. -/
structure ForkSafe (before : List (Code.Event C)) (e : Code.Event C) : Prop where
  /-- The first attempt begins with every call copied. -/
  begins : RunsAgent e → (∀ d ∈ before, ¬ RunsAgent d) →
    ∀ call ∈ unansweredToolCalls history, F.targetStep e.after call = asForked F s call
  /-- From then on the copied steps stay as they are. -/
  lasts : RunsAgent e ∨ (∃ d ∈ before, RunsAgent d) →
    ∀ call ∈ unansweredToolCalls history, Fixed F s call →
      F.targetStep e.after call = asForked F s call
  /-- A copied record is handed back once the target's controls let the call through. -/
  asked : F.regate = true → ∀ call ∈ unansweredToolCalls history,
    (F.sourceStep s call).status = .done → HandsBack call.toolCallId e →
      Allowed call.toolCallId before

/-- The event gives the target's lease to its thread. -/
def Grants (e : Code.Event C) : Prop :=
  ∃ owner ttl, ∃ token : Int, token ≠ 0 ∧
    e.did (.ledger (.acquire F.target owner ttl)) (.ok token)

/-- The copy is not half made, in ledger `t` after the events `log`. -/
structure Whole (request : Request) (t : MemorySteps Record) (log : List (Code.Event C)) :
    Prop where
  /-- No call the source is done with is still running. -/
  finished : ∀ call ∈ unansweredToolCalls history, (F.sourceStep s call).status = .done →
    (F.targetStep t call).status ≠ .running
  /-- Who does not copy finds everything copied, or an attempt has begun. -/
  complete : (∃ options messages, request = .recover options messages) →
    (∃ d ∈ log, RunsAgent d) ∨ ∀ call ∈ unansweredToolCalls history,
      (F.sourceStep s call).status ≠ .absent → (F.targetStep t call).status ≠ .absent
  /-- There are controls to ask, and they have let through what was copied before. -/
  asked : F.regate = true → request.options.controls = true ∧
    ∀ call ∈ unansweredToolCalls history, (F.sourceStep s call).status = .done →
      (F.targetStep t call).status = .done → Allowed call.toolCallId log

/-- Whoever is given the lease finds the copy not half made. -/
def Careful (before : List (Code.Event Request)) (e : Code.Event Request) : Prop :=
  Grants F e → Whole F history s e.call (Pool.stateAfter s before) before

/-- Every try is of the same fork: of this history, and with an agent that approves what it was
    handed. -/
def SameFork (e : Code.Event Request) : Prop :=
  (∀ found, e.did (.ext (.transcript (.read F.src.conversation F.at_))) (.ok found) →
    found = history) ∧ e.call.options.agent.ApprovesHanded

end property

/-! ## Section 3: The invariant -/

section invariant

variable {F : Fork} {history : List Message} {s : MemorySteps Record}

/-- A step of the target before, while and after it is copied. -/
def Half (F : Fork) (s : MemorySteps Record) (call : ToolCall) (step : Step Record) : Prop :=
  step = asForked F s call ∨ ((F.sourceStep s call).status ≠ .absent ∧
    (step = F.targetStep s call ∨
      step = { status := .running, version := (F.targetStep s call).version + 1 }))

/-- What holds of every history of the fork's tries. -/
structure CrashInv (F : Fork) (history : List Message) (s : MemorySteps Record)
    (h : Code.History Request) : Prop where
  now : h.now = Pool.stateAfter s h.log
  source : ∀ key, h.now.entry F.source key = s.entry F.source key
  /-- A step is copied, or being copied, unless an attempt may have changed it. -/
  half : ∀ call ∈ unansweredToolCalls history, Unrun h.log ∨ Fixed F s call →
    Half F s call (F.targetStep h.now call)
  /-- Once an attempt has begun, the copy is whole. -/
  whole : (∃ d ∈ h.log, RunsAgent d) → ∀ call ∈ unansweredToolCalls history, Fixed F s call →
    F.targetStep h.now call = asForked F s call
  /-- What is parked waits for an answer. -/
  parked : ∀ active, live F.target h.now = some active → ¬ active.Decided
  safe : Always (ForkSafe F history s) h.log

variable {h : Code.History Request} {i : Nat} {request : Request}

theorem unrun_or (log : List (Code.Event Request)) : Unrun log ∨ ∃ d ∈ log, RunsAgent d := by
  by_cases hrun : ∃ d ∈ log, RunsAgent d
  · exact Or.inr hrun
  · exact Or.inl fun d hd hruns => hrun ⟨d, hd, hruns⟩

/-- An event that leaves every step as it is. -/
theorem Whole.event (hwhole : Whole F history s request h.now h.log) {e : Code.Event Request}
    (hentry : ∀ b key, e.after.entry b key = h.now.entry b key) :
    Whole F history s request e.after (h.log ++ [e]) where
  finished call hcall hdone := by
    have hstep : F.targetStep e.after call = F.targetStep h.now call := hentry _ _
    rw [hstep]
    exact hwhole.finished call hcall hdone
  complete hrequest := by
    rcases hwhole.complete hrequest with ⟨d, hd, hruns⟩ | hcomplete
    · exact Or.inl ⟨d, List.mem_append_left _ hd, hruns⟩
    · refine Or.inr fun call hcall hknown => ?_
      have hstep : F.targetStep e.after call = F.targetStep h.now call := hentry _ _
      rw [hstep]
      exact hcomplete call hcall hknown
  asked hregate := by
    obtain ⟨hcontrols, hasked⟩ := hwhole.asked hregate
    refine ⟨hcontrols, fun call hcall hdone htarget => ?_⟩
    have hstep : F.targetStep e.after call = F.targetStep h.now call := hentry _ _
    rw [hstep] at htarget
    obtain ⟨d, hd, hallowed⟩ := hasked call hcall hdone htarget
    exact ⟨d, List.mem_append_left _ hd, hallowed⟩

theorem Allowed.append {callId : String} {log : List (Code.Event Request)}
    (h : Allowed callId log) (more : List (Code.Event Request)) : Allowed callId (log ++ more) := by
  obtain ⟨d, hd, hallowed⟩ := h
  exact ⟨d, List.mem_append_left _ hd, hallowed⟩

/-- An event that does not call the agent. -/
theorem CrashInv.event (hinv : CrashInv F history s h) {o : Op} {r : o.Reply}
    {t : MemorySteps Record} (ho : ∀ token start, o ≠ .ext (.mark (.agentRun token start)))
    (hsource : ∀ key, t.entry F.source key = h.now.entry F.source key)
    (hhalf : ∀ call ∈ unansweredToolCalls history, Unrun h.log ∨ Fixed F s call →
      Half F s call (F.targetStep t call))
    (hwhole : (∃ d ∈ h.log, RunsAgent d) → ∀ call ∈ unansweredToolCalls history, Fixed F s call →
      F.targetStep t call = asForked F s call)
    (hparked : ∀ active, live F.target t = some active → ¬ active.Decided)
    (hasked : ∀ callId record, o = .ext (.mark (.toolReturned callId (.ok record))) →
      F.regate = true → ∀ call ∈ unansweredToolCalls history, call.toolCallId = callId →
        (F.sourceStep s call).status = .done → Allowed callId h.log) :
    CrashInv F history s (Code.next h i request o r t) := by
  -- The event is not the agent's run, so whatever waits for a run waits still.
  have hsilent : ¬ RunsAgent (⟨i, request, o, r, t⟩ : Code.Event Request) := by
    rintro ⟨token, start, hdid⟩
    exact ho token start (Event.op_of_did hdid)
  have hbefore : ∀ {R : Prop}, ((∃ d ∈ h.log, RunsAgent d) → R) →
      (∃ d ∈ h.log ++ [(⟨i, request, o, r, t⟩ : Code.Event Request)], RunsAgent d) → R := by
    rintro R hR ⟨d, hd, hruns⟩
    rcases List.mem_append.mp hd with hd | hd
    · exact hR ⟨d, hd, hruns⟩
    · obtain rfl := List.mem_singleton.mp hd
      exact absurd hruns hsilent
  refine {
    now := (Pool.stateAfter_concat s h.log ⟨i, request, o, r, t⟩).symm
    source := fun key => (hsource key).trans (hinv.source key)
    half := fun call hcall hor => hhalf call hcall (hor.imp (fun hunrun d hd => ?_) id)
    whole := hbefore hwhole
    parked := hparked
    safe := always_concat.mpr ⟨hinv.safe, ?_⟩ }
  · exact hunrun d (List.mem_append_left _ hd)
  · refine ⟨fun hruns => absurd hruns hsilent, ?_, ?_⟩
    · rintro (hruns | hruns)
      · exact absurd hruns hsilent
      · exact hwhole hruns
    · -- A result handed back is the only event of which `asked` says something.
      rintro hregate call hcall hdone ⟨record, hdid⟩
      exact hasked _ record (Event.op_of_did hdid) hregate call hcall rfl hdone

/-- An event that leaves the copied steps, and the suspension, as they are. -/
theorem CrashInv.idle (hinv : CrashInv F history s h) {o : Op} {r : o.Reply}
    {t : MemorySteps Record} (ho : ∀ token start, o ≠ .ext (.mark (.agentRun token start)))
    (hreturn : ∀ callId record, o ≠ .ext (.mark (.toolReturned callId (.ok record))))
    (hentry : ∀ b key, t.entry b key = h.now.entry b key) :
    CrashInv F history s (Code.next h i request o r t) := by
  have hstep : ∀ call, F.targetStep t call = F.targetStep h.now call := fun call => hentry _ _
  have hlive : live F.target t = live F.target h.now := by
    unfold live
    rw [hentry]
  refine hinv.event ho (hentry F.source) ?_ ?_ ?_ fun callId record hop => absurd hop (hreturn _ _)
  · intro call hcall hor
    rw [hstep]
    exact hinv.half call hcall hor
  · intro hruns call hcall hfixed
    rw [hstep]
    exact hinv.whole hruns call hcall hfixed
  · rw [hlive]
    exact hinv.parked

end invariant

/-! ## Section 4: The attempt -/

section attempt

variable {owners : Owners} {F : Fork} {history : List Message} {s : MemorySteps Record} {i : Nat}
  {request : Request} {h : Code.History Request} {call : ToolCall}

/-- The target is fresh: the ledger knows no step of it, tool or other. -/
def FreshTarget (F : Fork) (s : MemorySteps Record) : Prop :=
  ∀ key, s.entry F.target key = { status := .absent }

theorem FreshTarget.startable (hfresh : FreshTarget F s) (call : ToolCall) :
    (F.targetStep s call).status.startable = true := by
  unfold Fork.targetStep
  rw [hfresh]
  rfl

theorem FreshTarget.done (hfresh : FreshTarget F s)
    (hdone : (F.sourceStep s call).status = .done) : (asForked F s call).status = .done := by
  unfold asForked
  rw [forkStep_done hdone (hfresh.startable call)]

theorem FreshTarget.fixed (hfresh : FreshTarget F s) (hfixed : Fixed F s call) :
    (asForked F s call).status = .done ∨
      ((asForked F s call).status = .running ∧ F.runtime.retryRunning = false) := by
  by_cases hdone : (F.sourceStep s call).status = .done
  · exact Or.inl (hfresh.done hdone)
  · obtain ⟨habsent, hretry⟩ := hfixed.resolve_left hdone
    refine Or.inr ⟨?_, hretry⟩
    unfold asForked
    rw [forkStep_doubt habsent hdone (hfresh.startable call)]

/-- What the scheduler may let happen. -/
def crashAllowed (F : Fork) (history : List Message) (s : MemorySteps Record)
    (h : Code.History Request) (e : Code.Event Request) : Prop :=
  SameFork F history e ∧ (Grants F e → Whole F history s e.call h.now h.log)

/-- A triple about one try. -/
abbrev Tries {α : Type} (owners : Owners) (F : Fork) (history : List Message)
    (s : MemorySteps Record) (i : Nat) (request : Request) (P : Code.History Request → Prop)
    (x : Code α) (Q : α → Code.History Request → Prop)
    (E : Raised → Code.History Request → Prop) : Prop :=
  Code.Serial (forks owners F).body .none (CrashInv F history s) (crashAllowed F history s) i
    request P x Q E

/-- From the call of the agent on. -/
structure Underway (F : Fork) (history : List Message) (s : MemorySteps Record)
    (regate : List String) (h : Code.History Request) : Prop where
  run : ∃ d ∈ h.log, RunsAgent d
  steps : ∀ call ∈ unansweredToolCalls history, Fixed F s call →
    F.targetStep h.now call = asForked F s call
  /-- A copied record is asked about, or was let through before. -/
  asked : F.regate = true → ∀ call ∈ unansweredToolCalls history,
    (F.sourceStep s call).status = .done →
      call.toolCallId ∈ regate ∨ Allowed call.toolCallId h.log

/-- The call may be handed its record. -/
def Cleared (F : Fork) (history : List Message) (s : MemorySteps Record) (callId : String)
    (log : List (Code.Event Request)) : Prop :=
  F.regate = true → ∀ call ∈ unansweredToolCalls history, call.toolCallId = callId →
    (F.sourceStep s call).status = .done → Allowed callId log

/-- The call's step is fixed. -/
def FixedId (F : Fork) (history : List Message) (s : MemorySteps Record) (callId : String) : Prop :=
  ∃ call ∈ unansweredToolCalls history, call.toolCallId = callId ∧ Fixed F s call

/-- An operation that leaves the fixed steps alone. -/
theorem Underway.event {regate : List String} (hunderway : Underway F history s regate h) {o : Op}
    {r : o.Reply} {t : MemorySteps Record}
    (hsteps : ∀ call ∈ unansweredToolCalls history, Fixed F s call →
      F.targetStep t call = F.targetStep h.now call) :
    Underway F history s regate (Code.next h i request o r t) := by
  obtain ⟨d, hd, hruns⟩ := hunderway.run
  refine ⟨⟨d, List.mem_append_left _ hd, hruns⟩, fun call hcall hfixed => ?_, ?_⟩
  · exact (hsteps call hcall hfixed).trans (hunderway.steps call hcall hfixed)
  · intro hregate call hcall hdone
    exact (hunderway.asked hregate call hcall hdone).imp id fun hallowed => hallowed.append _

/-- In an attempt, an event that leaves the fixed steps alone keeps the invariant. -/
theorem CrashInv.attempt (hinv : CrashInv F history s h) {regate : List String}
    (hunderway : Underway F history s regate h) {o : Op} {r : o.Reply} {t : MemorySteps Record}
    (ho : ∀ token start, o ≠ .ext (.mark (.agentRun token start)))
    (hsource : ∀ key, t.entry F.source key = h.now.entry F.source key)
    (hsteps : ∀ call ∈ unansweredToolCalls history, Fixed F s call →
      F.targetStep t call = F.targetStep h.now call)
    (hparked : ∀ active, live F.target t = some active → ¬ active.Decided)
    (hasked : ∀ callId record, o = .ext (.mark (.toolReturned callId (.ok record))) →
      Cleared F history s callId h.log) :
    CrashInv F history s (Code.next h i request o r t) ∧
      Underway F history s regate (Code.next h i request o r t) := by
  have hwhole : ∀ call ∈ unansweredToolCalls history, Fixed F s call →
      F.targetStep t call = asForked F s call := fun call hcall hfixed =>
    (hsteps call hcall hfixed).trans (hunderway.steps call hcall hfixed)
  refine ⟨hinv.event ho hsource ?_ (fun _ => hwhole) hparked ?_, hunderway.event hsteps⟩
  · rintro call hcall (hunrun | hfixed)
    · obtain ⟨d, hd, hruns⟩ := hunderway.run
      exact absurd hruns (hunrun d hd)
    · exact Or.inl (hwhole call hcall hfixed)
  · exact fun callId record hop hregate call hcall heq hdone =>
      hasked callId record hop hregate call hcall heq hdone

/-- A ledger call of the target leaves the source's steps alone. -/
theorem source_entry (hne : F.source ≠ F.target) {op : LedgerOp Record}
    (hbranch : op.branchId = F.target) (x : Env) (t : MemorySteps Record) (key : String) :
    (op.perform x.now x.later t).2.entry F.source key = t.entry F.source key :=
  perform_entry op x.now x.later t (Or.inl fun heq => hne (heq.symm.trans hbranch))

/-- What is parked beside the tools waits for an answer. -/
theorem Aside.parked {op : LedgerOp Record} (ho : Aside F.target (.ledger op)) (x : Env)
    {t : MemorySteps Record} (hparked : ∀ active, live F.target t = some active → ¬ active.Decided)
    (active : Suspension) (hlive : live F.target (op.perform x.now x.later t).2 = some active) :
    ¬ active.Decided := by
  cases ho with
  | ledger _ _ _ _ hsuspension =>
    -- An operation aside leaves the suspension's key alone.
    refine hparked active ?_
    unfold live at hlive ⊢
    rwa [perform_entry op x.now x.later t (Or.inr hsuspension)] at hlive
  | park parked token hwaits =>
    change live F.target (t.commitTransition F.target (AgentRuntime.parkWrites parked) token).2
      = some active at hlive
    -- Parking writes the key: refused it changes nothing, accepted it puts `parked` there, which
    -- waits.
    rcases commitTransition_controls t F.target (AgentRuntime.parkWrites parked).controls token with
      ⟨_, _, heq⟩ | ⟨_, heq⟩
    · have hsame : (t.commitTransition F.target (AgentRuntime.parkWrites parked) token).2 = t :=
        congrArg Prod.snd heq
      rw [hsame] at hlive
      exact hparked active hlive
    · have hsame : (t.commitTransition F.target (AgentRuntime.parkWrites parked) token).2
          = t.applyControls F.target (AgentRuntime.parkWrites parked).controls.items :=
        congrArg Prod.snd heq
      have hnew : live F.target (t.applyControls F.target
          (AgentRuntime.parkWrites parked).controls.items) = some parked :=
        @live_park F.dst t parked
      rw [hsame, hnew] at hlive
      exact Option.some.inj hlive ▸ hwaits

/-- What an attempt does keeps the copied steps, and hands back what was let through. -/
theorem underway_keeps (history : List Message) (i : Nat) (request : Request)
    (hne : F.source ≠ F.target) (hfresh : FreshTarget F s)
    (regate : List String) :
    AttemptKeeps F.target F.runtime.retryRunning (FixedId F history s) (CrashInv F history s)
      (crashAllowed F history s) i request (Underway F history s regate)
      (Cleared F history s) where
  aside o ho := by
    rintro last h r t hunderway rfl hinv _ _ ⟨x, hx⟩
    obtain ⟨rfl, rfl⟩ := Prod.mk.inj hx
    cases o with
    | ext e =>
      -- An outside operation touches no step and parks nothing.
      refine hinv.attempt hunderway ?_ (fun _ => rfl) (fun _ _ _ => rfl) hinv.parked ?_
      · exact ho.plain.silent
      · rintro callId record hop
        cases hop
        cases ho with
        | ext _ he => cases he
    | ledger op =>
      -- A ledger operation aside names no step key of the target.
      refine hinv.attempt hunderway (by simp) (source_entry hne ho.branch x h.now) ?_
        (ho.parked x hinv.parked) (by simp)
      exact fun call _ _ => perform_entry op _ _ _ (Or.inr (ho.steps _))
  own callId hfree op hbranch howner hkeys := by
    rintro last h r t hunderway rfl hinv _ _ ⟨x, hx⟩
    obtain ⟨rfl, rfl⟩ := Prod.mk.inj hx
    -- A call's own operation: the call is none of the fixed ones, and its key is not the
    -- suspension's.
    refine hinv.attempt hunderway (by simp) (source_entry hne hbranch x h.now) ?_ ?_ (by simp)
    · intro call hcall hfixed
      refine perform_entry op _ _ _ (Or.inr fun hmem => hfree ⟨call, hcall, ?_, hfixed⟩)
      exact stepKey_inj (hkeys _ hmem)
    · intro active hlive
      refine hinv.parked active ?_
      have hkey : activeSuspension ∉ op.keys := fun hmem =>
        stepKey_ne_activeSuspension callId (hkeys _ hmem).symm
      change live F.target (op.perform x.now x.later h.now).2 = some active at hlive
      unfold live at hlive ⊢
      rwa [perform_entry op x.now x.later h.now (Or.inr hkey)] at hlive
  handler call args hfree := by
    rintro last h r t hunderway rfl hinv _ _ ⟨x, hx⟩
    obtain ⟨rfl, rfl⟩ := Prod.mk.inj hx
    exact hinv.attempt hunderway (by simp) (fun _ => rfl) (fun _ _ _ => rfl) hinv.parked (by simp)
  settled h hunderway callId hfixed := by
    obtain ⟨call, hcall, rfl, hfixed⟩ := hfixed
    have hstep := hunderway.steps call hcall hfixed
    -- A fixed call is as forked on a fresh target, and that is settled.
    unfold Fork.targetStep at hstep
    rw [hstep]
    exact hfresh.fixed hfixed
  returned callId record := by
    rintro last h r t ⟨hunderway, hcleared⟩ rfl hinv _ _ ⟨x, hx⟩
    obtain ⟨rfl, rfl⟩ := Prod.mk.inj hx
    refine hinv.attempt hunderway (by simp) (fun _ => rfl) (fun _ _ _ => rfl) hinv.parked ?_
    intro callId' record' hop
    cases hop
    exact hcleared
  grows callId log more hcleared := by
    intro hregate call hcall heq hdone
    exact (hcleared hregate call hcall heq hdone).append more

/-- Code of an attempt of one try. -/
abbrev TriesM {α : Type} (owners : Owners) (F : Fork) (history : List Message)
    (s : MemorySteps Record) (i : Nat) (request : Request) (P : Code.History Request → Prop)
    (x : AttemptM α) (Q : α → Code.History Request → Prop)
    (E : Code.History Request → Prop) : Prop :=
  AttemptM.Serial (forks owners F).body .none (CrashInv F history s) (crashAllowed F history s) i
    request (fun _ => P) x (fun a _ => Q a) fun _ _ => E

section gate

variable {regate : List String} {boundary : ExecutionBoundary}

/-- `pre_tool_use` is asked. -/
theorem preToolUse_tries (hne : F.source ≠ F.target) (hfresh : FreshTarget F s)
    (hcontrols : boundary.policy.controls = true) (here : Ctx) (call : ToolCall) :
    TriesM owners F history s i request (Underway F history s regate)
      (boundary.policy.preToolUse here call)
      (fun decision h => (decision = .continue → Allowed call.toolCallId h.log) ∧
        Underway F history s regate h) (Underway F history s regate) := by
  have K := underway_keeps history i request hne hfresh regate
  unfold PolicyRunner.preToolUse
  rw [if_pos hcontrols]
  refine AttemptM.Serial.code fun _ => Code.Serial.ask rfl ?_
  intro last h r t hunderway hrel hinv hnext hallowed hperform
  obtain ⟨hI, hpost⟩ := K.aside _ (.ext (.preToolUse here call) rfl) last h r t hunderway hrel hinv
    hnext hallowed hperform
  refine ⟨hI, ?_⟩
  change Except Raised ToolDecision at r
  cases r with
  | error e => exact hpost
  | ok decision =>
    refine ⟨?_, hpost⟩
    rintro rfl
    exact ⟨_, List.mem_append_right _ List.mem_cons_self, here, call, rfl, rfl⟩

/-- The gate lets through what `pre_tool_use` does. -/
theorem gate_tries (hne : F.source ≠ F.target) (hfresh : FreshTarget F s)
    (hcontrols : boundary.policy.controls = true) (here : Ctx) (call : ToolCall) :
    TriesM owners F history s i request (Underway F history s regate)
      (boundary.policy.gate here call)
      (fun decision h => (decision = .continue → Allowed call.toolCallId h.log) ∧
        Underway F history s regate h) (Underway F history s regate) := by
  unfold PolicyRunner.gate
  refine (preToolUse_tries hne hfresh hcontrols here call).bind fun asked => ?_
  refine AttemptM.Serial.state.bind fun st => ?_
  dsimp only
  refine AttemptM.Serial.ite (fun _ => ?_) fun _ => ?_
  · refine AttemptM.Serial.pure ?_
    rintro _ h ⟨_, _, hunderway⟩
    exact ⟨fun hdeny => (by cases hdeny), hunderway⟩
  · refine AttemptM.Serial.pure ?_
    rintro _ h ⟨_, hasked, hunderway⟩
    refine ⟨fun hdecision => hasked ?_, hunderway⟩
    split at hdecision
    · cases hdecision
    · exact hdecision

/-- A call that is not approved is asked about when its record was copied. -/
theorem choose_tries (hne : F.source ≠ F.target) (hfresh : FreshTarget F s)
    (hb : boundary.store.name boundary.branchId = F.target)
    (hregate : boundary.policy.regate = regate)
    (hcontrols : F.regate = true → boundary.policy.controls = true) (here : Ctx) (call : ToolCall)
    (args : Json) (recorded : Bool) :
    TriesM owners F history s i request (Underway F history s regate)
      (boundary.policy.choose here call args false recorded)
      (fun decision h => (decision = .continue → Cleared F history s call.toolCallId h.log) ∧
        Underway F history s regate h) (Underway F history s regate) := by
  -- Only a fork with `regate` owes an answer to each copied call.
  by_cases hF : F.regate = true
  · unfold PolicyRunner.choose
    refine AttemptM.Serial.ite (fun hbypass => ?_) fun _ => ?_
    · -- not asked again: it is none of the copied ones, or was let through before
      have hmem : call.toolCallId ∉ regate := by
        unfold PolicyRunner.bypasses at hbypass
        rw [hregate, Bool.and_eq_true, decide_eq_true_iff] at hbypass
        exact hbypass.1
      refine AttemptM.Serial.pure ?_
      intro _ h hunderway
      refine ⟨fun _ _ call' hcall heq hdone => ?_, hunderway⟩
      have hasked := hunderway.asked hF call' hcall hdone
      rw [heq] at hasked
      exact hasked.resolve_left hmem
    · rw [if_neg (by decide)]
      -- Asked now: `continue` is the answer that allows it.
      refine (gate_tries hne hfresh (hcontrols hF) here call).mono (fun _ _ hpre => hpre) ?_
        fun _ _ _ hpost => hpost
      rintro decision _ h ⟨hallowed, hunderway⟩
      exact ⟨fun hdecision _ _ _ _ _ => hallowed hdecision, hunderway⟩
  · -- Without `regate` nothing need be cleared.
    have K := underway_keeps history i request hne hfresh regate
    refine (aside_serial K (choose_only (permits_aside hb).controls here call args false recorded)).mono
      (fun _ _ hpre => hpre) ?_ fun _ _ _ hpost => hpost
    intro decision _ h hunderway
    exact ⟨fun _ hregate' => absurd hregate' hF, hunderway⟩

/-- What is let through may be handed its record. -/
theorem decideTool_tries (hne : F.source ≠ F.target) (hfresh : FreshTarget F s)
    (hb : boundary.store.name boundary.branchId = F.target)
    (hregate : boundary.policy.regate = regate)
    (hcontrols : F.regate = true → boundary.policy.controls = true) (here : Ctx) (call : ToolCall)
    (args : Json) (recorded : Bool) :
    TriesM owners F history s i request (Underway F history s regate)
      (boundary.policy.decideTool here call args false recorded)
      (fun decision h => (decision = .continue → Cleared F history s call.toolCallId h.log) ∧
        Underway F history s regate h) (Underway F history s regate) := by
  have K := underway_keeps history i request hne hfresh regate
  unfold PolicyRunner.decideTool
  refine (choose_tries hne hfresh hb hregate hcontrols here call args recorded).bind
    fun decision => ?_
  let P : Code.History Request → Prop := fun h =>
    (decision = .continue → Cleared F history s call.toolCallId h.log) ∧
      Underway F history s regate h
  -- the suspension and the note are the policy's own fields
  have hsuspension : TriesM owners F history s i request P
      (PolicyRunner.enterSuspension call decision) (fun _ => P) (Underway F history s regate) := by
    cases decision with
    | suspend request =>
      refine AttemptM.Serial.ite (fun _ => ?_) fun _ => ?_
      · exact AttemptM.Serial.update fun _ _ hpre => hpre
      · exact AttemptM.Serial.throw fun _ _ hpre => hpre.2
    | «continue» => exact AttemptM.Serial.pure fun _ _ hpre => hpre
    | deny result => exact AttemptM.Serial.pure fun _ _ hpre => hpre
  refine hsuspension.bind fun _ => ?_
  refine (AttemptM.Serial.update (Q := fun _ _ => P) fun _ _ hpre => hpre).bind fun _ => ?_
  -- The mark is after the decision, so what was cleared is cleared in the longer log.
  have hmark : TriesM owners F history s i request P
      (AttemptM.mark (.decided call.toolCallId decision)) (fun _ => P)
      (Underway F history s regate) := by
    refine AttemptM.Serial.code fun _ => Code.Serial.mark ?_
    rintro last h r t ⟨hcleared, hunderway⟩ hrel hinv hnext hallowed hperform
    obtain ⟨hI, hpost⟩ := K.aside _
      (.ext (.mark (.decided call.toolCallId decision)) rfl) last h r t
      hunderway hrel hinv hnext hallowed hperform
    obtain rfl := hrel
    exact ⟨hI, fun hdecision => K.grows _ _ _ (hcleared hdecision), hpost⟩
  exact hmark.bind fun _ => AttemptM.Serial.pure fun _ _ hpre => hpre

/-- **Before a tool runs**: a copied record is handed back once it was let through. -/
theorem beforeToolExecute_tries (hne : F.source ≠ F.target) (hfresh : FreshTarget F s)
    (hb : boundary.store.name boundary.branchId = F.target)
    (hregate : boundary.policy.regate = regate)
    (hcontrols : F.regate = true → boundary.policy.controls = true) (ctx : RunContext)
    (tool : ToolDefinition) (call : ToolCall) (args : Json) :
    TriesM owners F history s i request (Underway F history s regate)
      (boundary.beforeToolExecute ctx tool call args false)
      (fun _ h => Underway F history s regate h ∧ Cleared F history s call.toolCallId h.log)
      (Underway F history s regate) := by
  have K := underway_keeps history i request hne hfresh regate
  have hφ := permits_aside hb
  have hmark : AttemptM.Only (Aside F.target) (AttemptM.mark (.toolEntered call false)) :=
    hφ.controls.only_mark rfl
  unfold ExecutionBoundary.beforeToolExecute
  refine (aside_serial K hmark).bind fun _ => ?_
  refine AttemptM.Serial.state.bind fun st => ?_
  have hrecorded : AttemptM.Only (Aside F.target)
      (AttemptM.code (boundary.journal.recorded call.toolCallId)) :=
    AttemptM.only_code ((read_only hφ.pendingRound _).bind fun _ => Code.only_pure _)
  refine ((aside_serial K hrecorded).pre fun _ _ hpre => hpre.2).bind fun recorded => ?_
  refine (decideTool_tries hne hfresh hb hregate hcontrols _ call args recorded).bind
    fun decision => ?_
  -- Only `continue` lets the handler be reached.
  cases decision with
  | «continue» => exact AttemptM.Serial.pure fun _ _ hpre => ⟨hpre.2, hpre.1 rfl⟩
  | deny result => exact AttemptM.Serial.throw fun _ _ hpre => hpre.2
  | suspend request => exact AttemptM.Serial.throw fun _ _ hpre => hpre.2

end gate

/-- What an attempt may begin with. -/
structure Poised (F : Fork) (history : List Message) (s : MemorySteps Record)
    (regate : List String) (h : Code.History Request) : Prop where
  copied : ∀ call ∈ unansweredToolCalls history, Unrun h.log ∨ Fixed F s call →
    F.targetStep h.now call = asForked F s call
  asked : F.regate = true → ∀ call ∈ unansweredToolCalls history,
    (F.sourceStep s call).status = .done →
      call.toolCallId ∈ regate ∨ Allowed call.toolCallId h.log

/-- An event that leaves the copied steps as they are. -/
theorem Poised.event {regate : List String} (h₁ : Poised F history s regate h) {o : Op}
    {r : o.Reply} {t : MemorySteps Record} (hentry : ∀ b key, t.entry b key = h.now.entry b key) :
    Poised F history s regate (Code.next h i request o r t) := by
  refine ⟨fun call hcall hor => ?_, ?_⟩
  · refine (hentry _ _).trans (h₁.copied call hcall (hor.imp (fun hunrun d hd => ?_) id))
    exact hunrun d (List.mem_append_left _ hd)
  · intro hregate call hcall hdone
    exact (h₁.asked hregate call hcall hdone).imp id fun hallowed => hallowed.append _

/-- The call of the agent. -/
theorem Poised.run {regate : List String} (h₁ : Poised F history s regate h)
    (hinv : CrashInv F history s h) (token : Int) (start : RunStart) {r : Unit} :
    CrashInv F history s
        (Code.next h i request (.ext (.mark (.agentRun token start))) r h.now) ∧
      Underway F history s regate
        (Code.next h i request (.ext (.mark (.agentRun token start))) r h.now) := by
  have hfixed : ∀ call ∈ unansweredToolCalls history, Fixed F s call →
      F.targetStep h.now call = asForked F s call := fun call hcall hfixed =>
    h₁.copied call hcall (Or.inr hfixed)
  have hruns : ∃ d ∈ (Code.next h i request (.ext (.mark (.agentRun token start))) r h.now).log,
      RunsAgent d := ⟨_, List.mem_append_right _ List.mem_cons_self, token, start, rfl⟩
  refine ⟨⟨(Pool.stateAfter_concat s h.log (⟨i, request, .ext (.mark (.agentRun token start)), r, h.now⟩ :
    Code.Event Request)).symm, hinv.source, ?_, fun _ => hfixed, hinv.parked,
    always_concat.mpr ⟨hinv.safe, ?_⟩⟩, ⟨hruns, hfixed, ?_⟩⟩
  · rintro call hcall (hunrun | hcallFixed)
    · obtain ⟨d, hd, hrun⟩ := hruns
      exact absurd hrun (hunrun d hd)
    · exact Or.inl (hfixed call hcall hcallFixed)
  · refine ⟨fun _ hunrun call hcall => h₁.copied call hcall (Or.inl hunrun), fun _ => hfixed, ?_⟩
    rintro _ call _ _ ⟨record, hdid⟩
    cases Event.op_of_did hdid
  · intro hregate call hcall hdone
    exact (h₁.asked hregate call hcall hdone).imp id fun hallowed => hallowed.append _

/-- **An attempt** that begins with the steps copied keeps them, whatever the history it is of. -/
theorem attempt_tries (hne : F.source ≠ F.target) (hfresh : FreshTarget F s)
    {token : Int} {options : Options} {prompt : Option Json} {regate : List String}
    {messages : List Message} (hcontrols : F.regate = true → options.controls = true)
    (hagent : options.agent.ApprovesHanded) :
    Tries owners F history s i request (Poised F history s regate)
      (F.runtime.attempt F.dst token options
        { prompt := prompt, messageHistory := some messages, regate := regate })
      (fun _ _ => True) fun _ _ => True := by
  have K := underway_keeps history i request hne hfresh regate
  let boundary := F.runtime.boundary F.dst token options
    { prompt := prompt, messageHistory := some messages, regate := regate }
  have hb : boundary.store.name boundary.branchId = F.target := rfl
  -- Nothing a forked or recovered agent is handed was approved, so every tool goes past the gate.
  have hbefore : ∀ ctx tool call args approved,
      (NodeOp.tool ctx tool call args approved).approves = false →
      TriesM owners F history s i request (Underway F history s regate)
        (boundary.beforeToolExecute ctx tool call args approved)
        (fun _ h => Underway F history s regate h ∧ Cleared F history s call.toolCallId h.log)
        (Underway F history s regate) := by
    intro ctx tool call args approved happroved
    obtain rfl : approved = false := happroved
    exact beforeToolExecute_tries hne hfresh hb rfl hcontrols ctx tool call args
  have hdrive := drive_serial K hb rfl hbefore options.agent.digest
    (hagent ⟨prompt, some messages, none⟩ rfl)
  refine (attempt_serial rfl ?_ ?_ K.aside (fun _ _ _ => trivial) hdrive).mono (fun _ hpre => hpre)
    (fun _ _ _ => trivial) fun _ _ _ => trivial
  · -- the transcript is asked, and may raise
    rintro op last h r t hpoised rfl hinv _ _ ⟨x, hx⟩
    obtain ⟨rfl, rfl⟩ := Prod.mk.inj hx
    refine ⟨hinv.idle (by simp) (by simp) fun _ _ => rfl, ?_⟩
    cases x.reply (.transcript op) with
    | ok a => exact hpoised.event fun _ _ => rfl
    | error e => trivial
  · rintro last h r t hpoised rfl hinv _ _ ⟨x, hx⟩
    obtain ⟨rfl, rfl⟩ := Prod.mk.inj hx
    exact hpoised.run hinv token _

end attempt

/-! ## Section 5: The tries -/

section tries

variable {owners : Owners} {F : Fork} {history : List Message} {s : MemorySteps Record} {i : Nat}
  {request : Request} {h g : Code.History Request} {call : ToolCall}

/-- After the lease was given out at `g`, without a call of the agent. -/
def Since (g h : Code.History Request) : Prop :=
  ∃ more, h.log = g.log ++ more ∧ ∀ d ∈ more, ¬ RunsAgent d

theorem Since.unrun (h₁ : Since g h) (hunrun : Unrun h.log) : Unrun g.log := by
  obtain ⟨more, hlog, _⟩ := h₁
  intro d hd
  exact hunrun d (hlog ▸ List.mem_append_left _ hd)

/-- A step is written that is not copied yet. -/
theorem CrashInv.write (hinv : CrashInv F history s h) (hne : F.source ≠ F.target)
    {callId : String} {step : Step Record} {op : LedgerOp Record}
    {r : (Op.ledger op).Reply}
    (hnot : ∀ call ∈ unansweredToolCalls history, call.toolCallId = callId →
      F.targetStep h.now call ≠ asForked F s call)
    (hhalf : ∀ call ∈ unansweredToolCalls history, call.toolCallId = callId →
      Half F s call (F.targetStep h.now call) → Half F s call step) :
    CrashInv F history s
      (Code.next h i request (.ledger op) r (h.now.setEntry F.target (stepKey callId) step)) := by
  -- The write is to one step of the target.
  have hother : ∀ call : ToolCall, call.toolCallId ≠ callId →
      F.targetStep (h.now.setEntry F.target (stepKey callId) step) call
        = F.targetStep h.now call := fun call hid =>
    entry_setEntry_ne _ _ fun hkey => hid (stepKey_inj hkey)
  have hhere : ∀ call : ToolCall, call.toolCallId = callId →
      F.targetStep (h.now.setEntry F.target (stepKey callId) step) call = step := by
    rintro call rfl
    exact entry_setEntry_self _ _ _ _
  refine hinv.event (by simp) ?_ ?_ ?_ ?_ (by simp)
  · intro key
    rw [entry_setEntry, if_neg (by simp [hne])]
  · -- half: the written step is half copied by hypothesis, the others as before.
    intro call hcall hor
    by_cases hid : call.toolCallId = callId
    · rw [hhere call hid]
      exact hhalf call hcall hid (hinv.half call hcall hor)
    · rw [hother call hid]
      exact hinv.half call hcall hor
  · -- whole: once the agent has run every fixed call is as forked, and this one is not.
    intro hruns call hcall hfixed
    by_cases hid : call.toolCallId = callId
    · exact absurd (hinv.whole hruns call hcall hfixed) (hnot call hcall hid)
    · rw [hother call hid]
      exact hinv.whole hruns call hcall hfixed
  · -- parked: a step's key is not the suspension's.
    intro active hlive
    refine hinv.parked active ?_
    unfold live at hlive ⊢
    rwa [entry_setEntry_ne _ _ (stepKey_ne_activeSuspension callId).symm] at hlive

/-- A step is started. -/
theorem CrashInv.start (hinv : CrashInv F history s h) (hne : F.source ≠ F.target)
    {callId : String} {token : Int}
    (hsource : (h.now.entry F.source (stepKey callId)).status ≠ .absent)
    {r : Except StoreError Bool} {t : MemorySteps Record}
    (hstart : h.now.start F.target (stepKey callId) token = (r, t)) :
    CrashInv F history s
      (Code.next h i request (.ledger (.start F.target (stepKey callId) token)) r t) := by
  -- A step that cannot be started is left as it is, and so is any step for a stale token.
  cases hfree : (h.now.entry F.target (stepKey callId)).status.startable with
  | false =>
    have hsame : t = h.now := by
      rcases start_settled hfree hstart with ⟨_, _, hsame, _⟩ | ⟨_, hsame⟩
      · exact hsame
      · exact hsame
    exact hinv.idle (by simp) (by simp) fun _ _ => by rw [hsame]
  | true =>
    rcases start_free hfree hstart with ⟨_, _, rfl, _⟩ | ⟨_, rfl⟩
    · exact hinv.idle (by simp) (by simp) fun _ _ => rfl
    · have hknown : ∀ call : ToolCall, call.toolCallId = callId →
          (F.sourceStep s call).status ≠ .absent := by
        rintro call rfl
        rw [hinv.source] at hsource
        exact hsource
      -- what the source knows of and the target may start was never copied
      have hnot : ∀ call ∈ unansweredToolCalls history, call.toolCallId = callId →
          F.targetStep h.now call ≠ asForked F s call := by
        rintro call _ rfl heq
        have hsettled := forkStep_settles (hknown call rfl) (F.targetStep s call)
        change (asForked F s call).status.startable = false at hsettled
        rw [← heq] at hsettled
        exact Bool.false_ne_true (hsettled.symm.trans hfree)
      -- Started: the step is the first half of the copy.
      refine hinv.write hne hnot ?_
      rintro call hcall rfl (hcopied | ⟨habsent, hfirst | hrunning⟩)
      · exact absurd hcopied (hnot call hcall rfl)
      · refine Or.inr ⟨habsent, Or.inr ?_⟩
        rw [← hfirst]
        rfl
      · unfold Fork.targetStep at hrunning
        rw [hrunning] at hfree
        cases hfree

/-- A step is finished. -/
theorem CrashInv.finish (hinv : CrashInv F history s h) (hne : F.source ≠ F.target)
    (hfresh : FreshTarget F s) {callId : String} {token : Int}
    (hsource : (h.now.entry F.source (stepKey callId)).status = .done)
    (htarget : (h.now.entry F.target (stepKey callId)).status = .running)
    {r : Except StoreError Unit} {t : MemorySteps Record}
    (hfinish : h.now.finishEffect F.target (stepKey callId)
      (h.now.entry F.source (stepKey callId)).value token = (r, t)) :
    CrashInv F history s (Code.next h i request (.ledger (.finishEffect F.target (stepKey callId)
      (h.now.entry F.source (stepKey callId)).value token)) r t) := by
  -- The copy is running: refused, nothing changes; otherwise the source's value completes it.
  rcases finish_running htarget hfinish with ⟨_, _, rfl, _⟩ | ⟨_, rfl⟩
  · exact hinv.idle (by simp) (by simp) fun _ _ => rfl
  · have hdone : ∀ call : ToolCall, call.toolCallId = callId →
        (F.sourceStep s call).status = .done := by
      rintro call rfl
      rw [hinv.source] at hsource
      exact hsource
    -- What is copied is done, and this step was running.
    have hnot : ∀ call ∈ unansweredToolCalls history, call.toolCallId = callId →
        F.targetStep h.now call ≠ asForked F s call := by
      rintro call _ rfl heq
      have hcopied := hfresh.done (hdone call rfl)
      rw [← heq] at hcopied
      unfold Fork.targetStep at hcopied
      rw [htarget] at hcopied
      cases hcopied
    -- The second half makes it as forked.
    refine hinv.write hne hnot ?_
    rintro call hcall rfl (hcopied | ⟨habsent, hfirst | hrunning⟩)
    · exact absurd hcopied (hnot call hcall rfl)
    · unfold Fork.targetStep at hfirst
      rw [hfirst, hfresh] at htarget
      cases htarget
    · refine Or.inl ?_
      unfold asForked
      rw [forkStep_done (hdone call rfl) (hfresh.startable call)]
      unfold Fork.targetStep at hrunning
      rw [hrunning, hinv.source]
      rfl

/-- The copy keeps the invariant, and calls no agent. -/
theorem copy_keeps_crash (history : List Message) (i : Nat) (request : Request)
    (hne : F.source ≠ F.target) (hfresh : FreshTarget F s) (token : Int)
    (g : Code.History Request) :
    CopyKeeps F token (CrashInv F history s) (crashAllowed F history s) i request (Since g) := by
  rintro op h r t hinv ⟨more, hlog, hsilent⟩ hop _ ⟨x, hx⟩
  refine ⟨?_, more ++ [⟨i, request, .ledger op, r, t⟩], ?_, ?_⟩
  · cases hop with
    | read callId =>
      obtain ⟨rfl, rfl⟩ := Prod.mk.inj hx
      exact hinv.idle (by simp) (by simp) fun _ _ => rfl
    | start callId hsource => exact hinv.start hne hsource hx
    | finish callId hsource htarget => exact hinv.finish hne hfresh hsource htarget hx
  · rw [← List.append_assoc, ← hlog]
    rfl
  · intro d hd
    rcases List.mem_append.mp hd with hd | hd
    · exact hsilent d hd
    · obtain rfl := List.mem_singleton.mp hd
      rintro ⟨token, start, hdid⟩
      cases Event.op_of_did hdid

/-- A step that was copied for half, as the rest of the copy leaves it. -/
theorem Half.copied {step : Step Record} (hhalf : Half F s call step) (hfresh : FreshTarget F s)
    (hfinished : (F.sourceStep s call).status = .done → step.status ≠ .running) :
    forkStep (F.sourceStep s call) step = asForked F s call := by
  rcases hhalf with rfl | ⟨habsent, rfl | rfl⟩
  · exact forkStep_idem _ _
  · rfl
  · have hdone : (F.sourceStep s call).status ≠ .done := fun hdone => hfinished hdone rfl
    unfold asForked
    rw [forkStep_settled rfl, forkStep_doubt habsent hdone (hfresh.startable call)]

/-- A step that is neither finished half nor left out is copied. -/
theorem Half.complete {step : Step Record} (hhalf : Half F s call step) (hfresh : FreshTarget F s)
    (hfinished : (F.sourceStep s call).status = .done → step.status ≠ .running)
    (hcomplete : (F.sourceStep s call).status ≠ .absent → step.status ≠ .absent) :
    step = asForked F s call := by
  rcases hhalf with hcopied | ⟨habsent, hfirst | hrunning⟩
  · exact hcopied
  · refine absurd ?_ (hcomplete habsent)
    rw [hfirst]
    unfold Fork.targetStep
    rw [hfresh]
  · have hdone : (F.sourceStep s call).status ≠ .done := fun hdone =>
      hfinished hdone (by rw [hrunning])
    rw [hrunning]
    unfold asForked
    rw [forkStep_doubt habsent hdone (hfresh.startable call)]

/-- What holds as the lease is given out, to thread `i`. -/
structure Granted (F : Fork) (history : List Message) (s : MemorySteps Record) (i : Nat)
    (request : Request) (g : Code.History Request) : Prop where
  inv : CrashInv F history s g
  careful : Whole F history s request g.now g.log
  agent : request.options.agent.ApprovesHanded
  moved : Moved .none i g

/-- What was copied is done, or running for a call in doubt. -/
theorem Granted.copied (hg : Granted F history s i request g) (hfresh : FreshTarget F s)
    (hcall : call ∈ unansweredToolCalls history) (hor : Unrun g.log ∨ Fixed F s call) :
    forkStep (F.sourceStep s call) (F.targetStep g.now call) = asForked F s call :=
  (hg.inv.half call hcall hor).copied hfresh (hg.careful.finished call hcall)

/-- The copy leaves what the attempt may begin with. -/
theorem Granted.poised (hg : Granted F history s i request g) (hfresh : FreshTarget F s)
    (hsince : Since g h) (hcopying : Copying F g.now (unansweredToolCalls history) h.now)
    {copied : List String}
    (hcopied : ∀ call ∈ unansweredToolCalls history,
      (g.now.entry F.source (stepKey call.toolCallId)).status = .done →
        (g.now.entry F.target (stepKey call.toolCallId)).status.startable = true →
          call.toolCallId ∈ copied) :
    Poised F history s (if F.regate then copied else []) h := by
  -- The copying was from this try's own lease on, and `source` says the source has not moved.
  have hstep : ∀ call ∈ unansweredToolCalls history, F.targetStep h.now call
      = forkStep (F.sourceStep s call) (F.targetStep g.now call) := by
    intro call hcall
    refine (hcopying.target _).trans ?_
    unfold forked
    rw [if_pos (List.mem_map_of_mem hcall), hg.inv.source]
    rfl
  refine ⟨fun call hcall hor => ?_, fun hregate call hcall hdone => ?_⟩
  · rw [hstep call hcall]
    exact hg.copied hfresh hcall (hor.imp hsince.unrun id)
  · rw [if_pos hregate]
    -- Either this try has copied the call and asks again, or an earlier one had.
    cases hfree : (F.targetStep g.now call).status.startable with
    | true =>
      refine Or.inl (hcopied call hcall ?_ hfree)
      rw [hg.inv.source]
      exact hdone
    | false =>
      -- it was copied before this try
      have hbefore : F.targetStep g.now call = asForked F s call := by
        rw [← hg.copied hfresh hcall (Or.inr (Or.inl hdone)), forkStep_settled hfree]
      obtain ⟨more, hlog, _⟩ := hsince
      rw [hlog]
      refine Or.inr (Allowed.append ?_ more)
      refine (hg.careful.asked hregate).2 call hcall hdone ?_
      rw [hbefore]
      exact hfresh.done hdone

/-- Who recovers finds what the attempt may begin with. -/
theorem Granted.recovers (hg : Granted F history s i request g) (hfresh : FreshTarget F s)
    {options : Options} {messages : List Message} (hrequest : request = .recover options messages) :
    Poised F history s [] g := by
  have hcopied : ∀ call ∈ unansweredToolCalls history, Unrun g.log ∨ Fixed F s call →
      F.targetStep g.now call = asForked F s call := by
    intro call hcall hor
    have hhalf := hg.inv.half call hcall hor
    rcases unrun_or g.log with hunrun | hruns
    · rcases hg.careful.complete ⟨options, messages, hrequest⟩ with ⟨d, hd, hrun⟩ | hcomplete
      · exact absurd hrun (hunrun d hd)
      · exact hhalf.complete hfresh (hg.careful.finished call hcall) (hcomplete call hcall)
    · rcases hor with hunrun | hfixed
      · obtain ⟨d, hd, hrun⟩ := hruns
        exact absurd hrun (hunrun d hd)
      · exact hg.inv.whole hruns call hcall hfixed
  refine ⟨hcopied, fun hregate call hcall hdone => Or.inr ?_⟩
  refine (hg.careful.asked hregate).2 call hcall hdone ?_
  rw [hcopied call hcall (Or.inr (Or.inl hdone))]
  exact hfresh.done hdone

/-- What is done under the lease, when it is given out. -/
theorem lease_tries {α : Type} {P : Code.History Request → Prop}
    {owner : String} {method : Method} {body : Int → Code α}
    (hbody : ∀ token, Tries owners F history s i request
      (fun h => ∃ g, g = h ∧ Granted F history s i request g) (body token) (fun _ _ => True)
      fun _ _ => True) :
    Tries owners F history s i request P (F.runtime.lease F.dst owner method body)
      (fun _ _ => True) fun _ _ => True := by
  unfold AgentRuntime.lease
  have hmark : Tries owners F history s i request P (Code.mark (.leasing method))
      (fun _ _ => True) fun _ _ => True := by
    refine Code.Serial.mark ?_
    rintro last h r t _ rfl hinv _ _ ⟨x, hx⟩
    obtain ⟨rfl, rfl⟩ := Prod.mk.inj hx
    exact ⟨hinv.idle (by simp) (by simp) fun _ _ => rfl, trivial⟩
  have hacquire : Tries owners F history s i request (fun _ => True)
      (F.dst.store.acquire F.dst.branchId owner F.runtime.leaseTtl)
      (fun (token : Int) h => token ≠ 0 → ∃ g, g = h ∧ Granted F history s i request g)
      fun _ _ => True := by
    -- With a token in hand the state at the acquire is the one the try is granted.
    refine Code.Serial.ledger ?_
    rintro last h r t _ rfl hinv _ hallowed ⟨x, hx⟩
    obtain ⟨token, rfl, hentry, _⟩ := acquire_spec hx
    have hinv' : CrashInv F history s (Code.next h i request
        (.ledger (.acquire F.target owner F.runtime.leaseTtl)) (.ok token) t) :=
      hinv.idle (by simp) (by simp) hentry
    refine ⟨hinv', fun hzero => ⟨_, rfl, hinv', ?_, hallowed.1.2, ?_⟩⟩
    · exact Whole.event (e := ⟨i, request, _, _, t⟩)
        (hallowed.2 ⟨owner, _, token, hzero, rfl⟩) hentry
    · exact ⟨_, List.mem_append_right _ List.mem_cons_self, rfl, rfl⟩
  refine hmark.bind fun _ => hacquire.bind fun token => ?_
  refine Code.Serial.ite (fun _ => Code.Serial.throw fun _ _ => trivial) fun hzero => ?_
  -- Releasing touches no step.
  have hrelease : Tries owners F history s i request (fun _ => True)
      (F.dst.store.release F.dst.branchId owner) (fun _ _ => True) fun _ _ => True := by
    refine Code.Serial.ledger ?_
    rintro last h r t _ rfl hinv _ _ ⟨x, hx⟩
    obtain ⟨rfl, rfl⟩ := Prod.mk.inj hx
    refine ⟨hinv.idle (by simp) (by simp) fun b key => ?_, ?_⟩
    · exact perform_entry (.release F.target owner) x.now x.later h.now
        (Or.inr (by simp [LedgerOp.keys]))
    · trivial
  exact Code.Serial.finally_ ((hbody token).pre fun h hpre => hpre hzero) (fun _ => hrelease)
    fun _ => hrelease

/-- `fork`, or `fork` again. -/
theorem fork_tries (hne : F.source ≠ F.target) (hfresh : FreshTarget F s)
    (hhistory : ∀ messages, F.history = some messages → messages = history)
    {options : Options} {prompt : Option Json} (hrequest : request = .fork options prompt)
    {P : Code.History Request → Prop} :
    Tries owners F history s i request P (serve owners F i (.fork options prompt))
      (fun _ _ => True) fun _ _ => True := by
  show Tries owners F history s i request P (F.runtime.fork F.src F.at_ F.dst (owners.name i)
    options prompt F.history F.regate) _ _
  -- Under the lease: the steps are copied from the state granted, and the attempt starts poised.
  have hlease : Tries owners F history s i request (fun _ => True)
      (F.runtime.lease F.dst (owners.name i) .fork fun token => do
        let copied ← AgentRuntime.copySteps F.src F.dst token (unansweredToolCalls history)
        F.runtime.attempt F.dst token options
          { prompt := prompt, messageHistory := some history,
            regate := if F.regate then copied else [] })
      (fun _ _ => True) fun _ _ => True := by
    refine lease_tries fun token => ?_
    refine Code.Serial.exists (fun g h hpre => hpre.1 ▸ hpre.2.moved) fun g => ?_
    refine Code.Serial.known (a := Granted F history s i request g) (fun h hpre => hpre.2)
      fun hg => ?_
    have hcopy := copySteps_serial (forks owners F).body
      (copy_keeps_crash history i request hne hfresh token g) hne [] (unansweredToolCalls history)
      (t := g.now)
    refine Code.Serial.bind (hcopy.mono ?_ (fun _ _ hpost => hpost) fun _ _ _ => trivial)
      fun copied => ?_
    · rintro h ⟨rfl, _⟩
      exact ⟨⟨[], by simp, by simp⟩, copying_nil F g.now⟩
    · have hagent : options.agent.ApprovesHanded := by
        have hagent := hg.agent
        rwa [hrequest] at hagent
      have hcontrols : F.regate = true → options.controls = true := by
        intro hregate
        have hcontrols := (hg.careful.asked hregate).1
        rwa [hrequest] at hcontrols
      refine (attempt_tries hne hfresh hcontrols hagent).pre ?_
      rintro h ⟨hsince, hcopying, hcopied⟩
      refine hg.poised hfresh hsince (by simpa using hcopying) ?_
      intro call hcall hdone hfree
      exact hcopied call hcall hdone (by simpa [forked] using hfree)
  -- The history is given, or read from the transcript; both are the fork's one history.
  unfold AgentRuntime.fork AgentRuntime.forkHistory
  cases hsome : F.history with
  | some messages =>
    obtain rfl := hhistory messages hsome
    exact hlease.pre fun _ _ => trivial
  | none =>
    dsimp only
    by_cases htranscript : ¬ F.runtime.transcript
    · rw [if_pos htranscript]
      exact (Code.Serial.throw fun _ _ => trivial).bind (Q := fun _ _ => False) fun _ =>
        Pool.Serial.absurd fun _ hfalse => hfalse
    · rw [if_neg htranscript]
      refine Code.Serial.bind (Q := fun found _ => found = history) ?_ fun found => ?_
      · refine Code.Serial.ask rfl ?_
        rintro last h r t _ rfl hinv _ hallowed ⟨x, hx⟩
        have hsame : h.now = t := (Prod.mk.inj hx).2
        subst hsame
        refine ⟨hinv.idle (by simp) (by simp) fun _ _ => rfl, ?_⟩
        change Except Raised (List Message) at r
        cases r with
        | ok found => exact hallowed.1.1 found rfl
        | error e => trivial
      · refine Code.Serial.known (a := found = history) (fun _ hpre => hpre) fun hfound => ?_
        subst hfound
        exact hlease.pre fun _ _ => trivial

/-- `_active`, while what is parked waits. -/
theorem active_tries {regate : List String} :
    Tries owners F history s i request (Poised F history s regate)
      (AgentRuntime.active F.dst)
      (fun found h => (∀ active, found = some active → ¬ active.Decided) ∧
        Poised F history s regate h) fun _ _ => True := by
  have hread : Tries owners F history s i request (Poised F history s regate)
      (F.dst.store.read F.dst.branchId activeSuspension)
      (fun record h => (∀ active, suspensionOf record = some active → ¬ active.Decided) ∧
        Poised F history s regate h) fun _ _ => True := by
    refine Code.Serial.ledger ?_
    rintro last h r t hpoised rfl hinv _ _ ⟨x, hx⟩
    obtain ⟨rfl, rfl⟩ := Prod.mk.inj hx
    exact ⟨hinv.idle (by simp) (by simp) fun _ _ => rfl, hinv.parked,
      hpoised.event fun _ _ => rfl⟩
  rw [active_eq]
  refine hread.bind fun record => ?_
  exact Code.Serial.ite (fun _ => Code.Serial.throw fun _ _ => trivial)
    fun _ => Code.Serial.pure fun _ hpre => hpre

/-- `recover` of the target. -/
theorem recover_tries (hne : F.source ≠ F.target) (hfresh : FreshTarget F s)
    {options : Options} {messages : List Message} (hrequest : request = .recover options messages)
    {P : Code.History Request → Prop} :
    Tries owners F history s i request P (serve owners F i (.recover options messages))
      (fun _ _ => True) fun _ _ => True := by
  show Tries owners F history s i request P (F.runtime.lease F.dst (owners.name i) .recover
    fun token => F.runtime.recoverUnderLease F.dst options messages token) _ _
  refine lease_tries fun token => ?_
  refine Code.Serial.exists (fun g h hpre => hpre.1 ▸ hpre.2.moved) fun g => ?_
  refine Code.Serial.known (a := Granted F history s i request g) (fun h hpre => hpre.2)
    fun hg => ?_
  have hagent : options.agent.ApprovesHanded := by
    have hagent := hg.agent
    rwa [hrequest] at hagent
  have hcontrols : F.regate = true → options.controls = true := by
    intro hregate
    have hcontrols := (hg.careful.asked hregate).1
    rwa [hrequest] at hcontrols
  -- A recovery copies nothing: it starts poised with no call to regate.
  have hpoised : ∀ h, g = h ∧ Granted F history s i request g → Poised F history s [] h := by
    rintro h ⟨rfl, _⟩
    exact hg.recovers hfresh hrequest
  unfold AgentRuntime.recoverUnderLease
  refine Code.Serial.bind (active_tries.pre hpoised) fun found => ?_
  cases found with
  | some active =>
    refine Code.Serial.known (a := ¬ active.Decided) (fun _ hpre => hpre.1 active rfl)
      fun hwaits => ?_
    -- what is parked is announced again
    dsimp only
    refine Code.Serial.bind (Q := fun pending _ => pending ≠ []) (Code.Serial.ofExcept ?_ ?_)
      fun pending => ?_
    · rintro pending hpending _ _ rfl
      exact hwaits (undecided_nil hpending)
    · exact fun _ _ _ _ => trivial
    · refine Code.Serial.ite (fun _ => Code.Serial.throw fun _ _ => trivial) fun hnone => ?_
      exact Pool.Serial.absurd fun _ hpre => hnone hpre
  | none =>
    dsimp only
    -- The pending round is read only.
    have hcheck : Code.Only (OpKeeps (CrashInv F history s) (crashAllowed F history s) i request
        (Poised F history s [])) (AgentRuntime.checkPendingRound F.dst messages) := by
      refine checkPendingRound_only ?_ messages
      rintro last h r t hpoised rfl hinv _ _ ⟨x, hx⟩
      obtain ⟨rfl, rfl⟩ := Prod.mk.inj hx
      exact ⟨hinv.idle (by simp) (by simp) fun _ _ => rfl, hpoised.event fun _ _ => rfl⟩
    refine Code.Serial.bind (Q := fun _ => Poised F history s []) ?_ fun _ =>
      attempt_tries hne hfresh hcontrols hagent
    exact (Code.Serial.invariant hcheck fun _ ho => ho).mono (fun _ hpre => hpre.2)
      (fun _ _ hpost => hpost) fun _ _ _ => trivial

end tries

/-! ## Section 6: Every run -/

section runs

variable {F : Fork} {history : List Message} {s : MemorySteps Record}

theorem crash_init (hfresh : FreshTarget F s) :
    CrashInv F history s (⟨s, []⟩ : Code.History Request) where
  now := rfl
  source _ := rfl
  half call _ _ := by
    by_cases habsent : (F.sourceStep s call).status = .absent
    · refine Or.inl ?_
      unfold asForked
      rw [forkStep_absent habsent]
    · exact Or.inr ⟨habsent, Or.inl rfl⟩
  whole := by
    rintro ⟨d, hd, _⟩
    cases hd
  parked active hlive := by
    unfold live at hlive
    rw [hfresh] at hlive
    cases hlive
  safe := always_nil

/-- **A fork survives its crash**: whatever the ledgers and the history, however often the fork is
    tried and its target recovered, wherever each try crashes, when no try is given the lease
    while the copy is half made, the attempt begins with the steps as one fork leaves them, they
    stay so, and no copied record is handed back that the target's controls did not let
    through. -/
theorem fork_survives_crash (owners : Owners) (F : Fork) (hne : F.source ≠ F.target)
    (s : MemorySteps Record) (hfresh : FreshTarget F s) (history : List Message)
    (hhistory : ∀ messages, F.history = some messages → messages = history)
    (schedule : List (Action Request Env))
    (hlog : InSequence .none ((forks owners F).after { hist := ⟨s, []⟩ } schedule).hist.log)
    (hsame : ∀ e ∈ ((forks owners F).after { hist := ⟨s, []⟩ } schedule).hist.log,
      SameFork F history e)
    (hcareful : Always (Careful F history s)
      ((forks owners F).after { hist := ⟨s, []⟩ } schedule).hist.log) :
    Always (ForkSafe F history s)
      ((forks owners F).after { hist := ⟨s, []⟩ } schedule).hist.log := by
  refine (sequence_after (B := .none) (I := CrashInv F history s)
    (A := crashAllowed F history s) ?_ ?_ (crash_init hfresh) schedule hlog ?_).safe
  · -- Each try keeps the invariant, whatever the one before it left half done.
    intro i request _
    cases request with
    | fork options prompt =>
      have hfork : Tries owners F history s i (.fork options prompt) (fun h => ¬ Moved .none i h)
          (serve owners F i (.fork options prompt)) (fun _ _ => True) fun _ _ => True :=
        fork_tries hne hfresh hhistory rfl
      exact Serial.mono (fun _ hpre => hpre) (fun _ _ _ => trivial) hfork
    | recover options messages =>
      have hrecover : Tries owners F history s i (.recover options messages)
          (fun h => ¬ Moved .none i h) (serve owners F i (.recover options messages))
          (fun _ _ => True) fun _ _ => True :=
        recover_tries hne hfresh rfl
      exact Serial.mono (fun _ hpre => hpre) (fun _ _ _ => trivial) hrecover
  · intro i request h hbackground
    cases hbackground
  · intro j e hj
    exact ⟨hsame e (List.mem_of_getElem? hj), hcareful j e hj⟩

end runs

/-! The source is done with one of two calls; the fork crashes and is tried again. -/

section tried_again

/-- One call is done. -/
def oneDone : MemorySteps Record :=
  MemorySteps.init.setEntry "run-a" (stepKey "c1")
    { status := .done, value := some (.tool (.ok "wrote")), version := 2 }

def twoCallsHistory : List Message := [.response (asksFor { name := "write" } ["c1", "c2"])]

def firstCall : ToolCall := ⟨"write", "", "c1"⟩

def forkRequest : Request :=
  .fork { agent := roundAgent { name := "write" } ["c1", "c2"], controls := true } none

/-- The fork crashes after `n` operations, and is tried again once its lease has expired. -/
def triedAgain (n : Nat) : List (Action Request Env) :=
  .begin forkRequest :: List.replicate n (.run 0 (outside 0 ⟨[]⟩ .continue)) ++
    .crash 0 :: .begin forkRequest :: List.replicate 40 (.run 1 (outside 1000 ⟨[]⟩ .continue))

def triedAgainLog (regate : Bool) (n : Nat) : List (Code.Event Request) :=
  ((forks ownerNames (twoCalls regate)).after { hist := ⟨oneDone, []⟩ } (triedAgain n)).hist.log

/-! What an event is, as far as it can be computed. -/

def takesLease (e : Code.Event Request) : Bool :=
  match e.op with
  | .ledger (.acquire ..) => true
  | _ => false

def readsTranscript (e : Code.Event Request) : Bool :=
  match e.op with
  | .ext (.transcript _) => true
  | _ => false

def callsAgent (e : Code.Event Request) : Bool :=
  match e.op with
  | .ext (.mark (.agentRun ..)) => true
  | _ => false

def asksAbout (e : Code.Event Request) : Option String :=
  match e.op with
  | .ext (.preToolUse _ call) => some call.toolCallId
  | _ => none

def returns (e : Code.Event Request) : Option String :=
  match e.op with
  | .ext (.mark (.toolReturned callId (.ok _))) => some callId
  | _ => none

theorem runsAgent_of_callsAgent {e : Code.Event Request} (h : callsAgent e = true) :
    RunsAgent e := by
  obtain ⟨tid, call, op, reply, after⟩ := e
  unfold callsAgent at h
  split at h
  · next token start hop =>
    obtain rfl : op = _ := hop
    exact ⟨token, start, rfl⟩
  · cases h

theorem handsBack_of_returns {e : Code.Event Request} {callId : String}
    (h : returns e = some callId) : HandsBack callId e := by
  obtain ⟨tid, call, op, reply, after⟩ := e
  unfold returns at h
  split at h
  · next callId' record hop =>
    obtain rfl : op = _ := hop
    obtain rfl := Option.some.inj h
    exact ⟨record, rfl⟩
  · cases h

theorem not_allowed_of_asksAbout {log : List (Code.Event Request)} {callId : String}
    (h : ∀ e ∈ log, asksAbout e ≠ some callId) : ¬ Allowed callId log := by
  rintro ⟨d, hd, here, call, rfl, hdid⟩
  refine h d hd ?_
  unfold asksAbout
  rw [Event.op_of_did hdid]

theorem roundAgent_approvesHanded (tool : ToolDefinition) (callIds : List String) :
    (roundAgent tool callIds).ApprovesHanded := by
  intro start _
  unfold roundAgent
  dsimp only
  generalize callIds.map (fun callId => ((⟨tool.name, "", callId⟩ : ToolCall), "")) = calls
  generalize ({} : ToolRound) = round
  induction calls generalizing round with
  | nil => exact trivial
  | cons p calls ih =>
    obtain ⟨call, args⟩ := p
    refine ⟨rfl, fun r => ?_⟩
    dsimp only
    split
    · exact trivial
    · next round _ => exact ih round

theorem call_of_triedAgain (regate : Bool) (n : Nat) :
    ∀ e ∈ triedAgainLog regate n, e.call = forkRequest := by
  refine calls_after (R := (· = forkRequest)) (by simp) (by simp) ?_
  intro call hcall
  simpa [triedAgain] using hcall

theorem sameFork_triedAgain {regate : Bool} {n : Nat}
    (hsilent : ∀ e ∈ triedAgainLog regate n, readsTranscript e = false) :
    ∀ e ∈ triedAgainLog regate n, SameFork (twoCalls regate) twoCallsHistory e := by
  intro e he
  refine ⟨fun found hdid => ?_, ?_⟩
  · have hread := hsilent e he
    unfold readsTranscript at hread
    rw [Event.op_of_did hdid] at hread
    cases hread
  · rw [call_of_triedAgain regate n e he]
    exact roundAgent_approvesHanded _ _

theorem freshTarget_oneDone (regate : Bool) : FreshTarget (twoCalls regate) oneDone := by
  intro key
  have hne : (twoCalls regate).target ≠ "run-a" := by cases regate <;> decide +kernel
  unfold oneDone
  rw [entry_setEntry, if_neg fun h => hne h.1]
  rfl

/-- **Not whatever the crash**: when the first try dies between `start` and `finish_effect`, the
    second's attempt begins with the source's done effect in doubt; and when it dies after the
    copy, the second hands the copied record back unasked. -/
theorem fork_forgets_copied :
    (InSequence .none (triedAgainLog false 4) ∧
      (∀ e ∈ triedAgainLog false 4, SameFork (twoCalls false) twoCallsHistory e) ∧
      ¬ Always (ForkSafe (twoCalls false) twoCallsHistory oneDone) (triedAgainLog false 4)) ∧
    (InSequence .none (triedAgainLog true 5) ∧
      (∀ e ∈ triedAgainLog true 5, SameFork (twoCalls true) twoCallsHistory e) ∧
      ¬ Always (ForkSafe (twoCalls true) twoCallsHistory oneDone) (triedAgainLog true 5)) := by
  have hcall : firstCall ∈ unansweredToolCalls twoCallsHistory := by decide +kernel
  have hdone : ∀ regate, ((twoCalls regate).sourceStep oneDone firstCall).status = .done := by
    decide +kernel
  refine ⟨⟨by decide +kernel, sameFork_triedAgain (by decide +kernel), fun hsafe => ?_⟩,
    by decide +kernel, sameFork_triedAgain (by decide +kernel), fun hsafe => ?_⟩
  · -- Without `regate`: the agent runs while the copied call still stands half copied.
    have hfound : (triedAgainLog false 4)[9]?.map (fun e =>
        (callsAgent e, ((twoCalls false).targetStep e.after firstCall).status))
          = some (true, .running) := by decide +kernel
    obtain ⟨e, he, hevent⟩ := Option.map_eq_some_iff.mp hfound
    obtain ⟨hruns, hrunning⟩ := Prod.mk.inj hevent
    have hcopied := (hsafe 9 e he).lasts (Or.inl (runsAgent_of_callsAgent hruns)) firstCall hcall
      (Or.inl (hdone false))
    rw [hcopied, (freshTarget_oneDone false).done (hdone false)] at hrunning
    cases hrunning
  · -- With `regate`: the call the first try copied is handed back without having been asked about.
    have hfound : (triedAgainLog true 5)[15]?.map returns = some (some "c1") := by decide +kernel
    have hunasked : ∀ e ∈ (triedAgainLog true 5).take 15, asksAbout e ≠ some "c1" := by
      decide +kernel
    obtain ⟨e, he, hreturns⟩ := Option.map_eq_some_iff.mp hfound
    have hallowed := (hsafe 15 e he).asked rfl firstCall hcall (hdone true)
      (handsBack_of_returns hreturns)
    exact not_allowed_of_asksAbout hunasked hallowed

/-- The copy is not half made, and what it made needs no question. -/
def Unhalved (regate : Bool) (before : List (Code.Event Request)) (e : Code.Event Request) : Prop :=
  takesLease e = true → ∀ call ∈ unansweredToolCalls twoCallsHistory,
    ((twoCalls regate).targetStep (Pool.stateAfter oneDone before) call).status = .absent ∨
      (regate = false ∧
        ((twoCalls regate).targetStep (Pool.stateAfter oneDone before) call).status = .done)

instance (regate : Bool) (before : List (Code.Event Request)) (e : Code.Event Request) :
    Decidable (Unhalved regate before e) := by
  unfold Unhalved
  infer_instance

theorem careful_triedAgain {regate : Bool} {n : Nat}
    (hunhalved : Always (Unhalved regate) (triedAgainLog regate n)) :
    Always (Careful (twoCalls regate) twoCallsHistory oneDone) (triedAgainLog regate n) := by
  rintro j e hj ⟨owner, ttl, token, _, hdid⟩
  have hcall := call_of_triedAgain regate n e (List.mem_of_getElem? hj)
  have hsteps := hunhalved j e hj (by
    unfold takesLease
    rw [Event.op_of_did hdid])
  refine ⟨fun call hmem _ hrunning => ?_, ?_, fun hregate => ⟨by rw [hcall]; rfl, ?_⟩⟩
  · rcases hsteps call hmem with habsent | ⟨_, hdone⟩
    · rw [hrunning] at habsent
      cases habsent
    · rw [hrunning] at hdone
      cases hdone
  · rintro ⟨options, messages, hrecover⟩
    rw [hcall] at hrecover
    cases hrecover
  · intro call hmem _ hdone
    rcases hsteps call hmem with habsent | ⟨hno, _⟩
    · rw [hdone] at habsent
      cases habsent
    · rw [hno] at hregate
      cases hregate

/-- A try that dies before it copied, or with a call copied whole, is made up for by the next. -/
theorem fork_survives_crash_tried_again :
    Always (ForkSafe (twoCalls true) twoCallsHistory oneDone) (triedAgainLog true 2) ∧
    Always (ForkSafe (twoCalls false) twoCallsHistory oneDone) (triedAgainLog false 5) := by
  have hhistory : ∀ regate messages, (twoCalls regate).history = some messages →
      messages = twoCallsHistory := fun _ _ hsome => (Option.some.inj hsome).symm
  exact ⟨fork_survives_crash ownerNames (twoCalls true) (by decide +kernel) oneDone
      (freshTarget_oneDone true) twoCallsHistory (hhistory true) (triedAgain 2) (by decide +kernel)
      (sameFork_triedAgain (by decide +kernel)) (careful_triedAgain (by decide +kernel)),
    fork_survives_crash ownerNames (twoCalls false) (by decide +kernel) oneDone
      (freshTarget_oneDone false) twoCallsHistory (hhistory false) (triedAgain 5)
      (by decide +kernel) (sameFork_triedAgain (by decide +kernel))
      (careful_triedAgain (by decide +kernel))⟩

end tried_again

end Forking

end Semora
