import Semora.Agent.ForkAttempt
import Semora.Agent.ToolAgent

/-! # Knowledge, Not Authority

    A fork that runs alone, over any ledger. Its source's rows stay as they
    are; what the source knows of the unanswered calls is in the target's
    ledger when the attempt begins, a grant to retry as a doubt; and unless
    the runtime repeats calls in doubt, the attempt invokes the handler of
    none that the source knows of. -/

namespace Semora

open Pool MemorySteps

namespace Forking

/-! ## Section 1: What is to be proved -/

/-- The source's and the target's step of a call. -/
def Fork.sourceStep (F : Fork) (s : MemorySteps Record) (call : ToolCall) : Step Record :=
  s.entry F.source (stepKey call.toolCallId)

def Fork.targetStep (F : Fork) (s : MemorySteps Record) (call : ToolCall) : Step Record :=
  s.entry F.target (stepKey call.toolCallId)

/-- From ledger `s` to ledger `s'`, the target learnt of these calls what the source knows. -/
structure KnowledgeCopied (F : Fork) (calls : List ToolCall) (s s' : MemorySteps Record) :
    Prop where
  /-- What the source has done is done, with its value. -/
  done : ∀ call ∈ calls, (F.targetStep s call).status.startable = true →
    (F.sourceStep s call).status = .done →
      (F.targetStep s' call).status = .done ∧
        (F.targetStep s' call).value = (F.sourceStep s call).value
  /-- What it started, or may only start again, is in doubt. -/
  doubt : ∀ call ∈ calls, (F.targetStep s call).status.startable = true →
    (F.sourceStep s call).status = .running ∨ (F.sourceStep s call).status = .ready →
      (F.targetStep s' call).status = .running
  /-- Every other step is as it was. -/
  others : ∀ key, (∀ call ∈ calls, stepKey call.toolCallId = key →
      (F.targetStep s call).status.startable = true → (F.sourceStep s call).status = .absent) →
    s'.entry F.target key = s.entry F.target key

section property

variable {C : Type}

/-- `agent.run` is called, on this history. -/
def RunsOn (history : List Message) (e : Code.Event C) : Prop :=
  ∃ token start, start.history = some history ∧ e.did (.ext (.mark (.agentRun token start))) ()

/-- `agent.run` is called. -/
def RunsAgent (e : Code.Event C) : Prop :=
  ∃ token start, e.did (.ext (.mark (.agentRun token start))) ()

/-- The history is the one the fork was asked for: given, or read from the transcript. -/
def AskedFor (F : Fork) (history : List Message) (log : List (Code.Event C)) : Prop :=
  F.history = some history ∨ (F.history = none ∧
    ∃ d ∈ log, d.did (.ext (.transcript (.read F.src.conversation F.at_))) (.ok history))

/-- The fork's lease was refused, or its transcript raised, or it has none. -/
def Refused (F : Fork) (log : List (Code.Event C)) : Prop :=
  (∃ d ∈ log, ∃ owner ttl, d.did (.ledger (.acquire F.target owner ttl)) (.ok (0 : Int))) ∨
  (∃ d ∈ log, ∃ op e, d.did (.ext (.transcript op)) (.error e)) ∨
  (F.history = none ∧ ¬ F.runtime.transcript)

/-- The agent was called, and the call is none of its history's unanswered ones that the source
    knows of. -/
def Unknown (F : Fork) (s : MemorySteps Record) (call : ToolCall) (log : List (Code.Event C)) :
    Prop :=
  (∃ d ∈ log, RunsAgent d) ∧ ∀ d ∈ log, ∀ history, RunsOn history d →
    ∀ call' ∈ unansweredToolCalls history, call'.toolCallId = call.toolCallId →
      (F.sourceStep s call').status = .absent

end property

/-- What a fork does, from ledger `s`. -/
structure ForkRun (F : Fork) (s : MemorySteps Record) (log : List (Code.Event Request)) :
    Prop where
  /-- The source's ledger is not written. -/
  source : ∀ e ∈ log, AgreeOn F.source s e.after
  /-- When the attempt begins, the target knows what the source does. -/
  copied : Always (fun before e => RunsAgent e → ∃ history, RunsOn history e ∧
    AskedFor F history before ∧
    KnowledgeCopied F (unansweredToolCalls history) s e.after) log
  /-- The attempt invokes no tool the source knows of, unless calls in doubt are repeated. -/
  unasked : F.runtime.retryRunning = false → Always (fun before e =>
    ∀ call args reply, e.did (.ext (.handler call args)) reply → Unknown F s call before) log

/-! ## Section 2: What each operation does to it -/

/-- The history of a fork that runs alone. -/
structure ForkInv (F : Fork) (s : MemorySteps Record) (h : Code.History Request) : Prop where
  now : h.now = Pool.stateAfter s h.log
  alone : ∀ e ∈ h.log, e.tid = 0
  run : ForkRun F s h.log

section steps

variable {F : Fork} {s : MemorySteps Record} {h : Code.History Request} {request : Request}

theorem ForkInv.source (hinv : ForkInv F s h) : AgreeOn F.source s h.now := by
  rw [hinv.now]
  rcases List.eq_nil_or_concat h.log with hlog | ⟨log, e, hlog⟩
  · rw [hlog]
    exact AgreeOn.refl _ _
  · rw [hlog, List.concat_eq_append, Pool.stateAfter_concat]
    exact hinv.run.source e (by simp [hlog])

/-- A thread that has not moved is in the ledger it began in. -/
theorem ForkInv.fresh (hinv : ForkInv F s h) (hfresh : ¬ Moved .none 0 h) :
    h.log = [] ∧ h.now = s := by
  have hlog : h.log = [] := by
    cases hcase : h.log with
    | nil => rfl
    | cons e log =>
      have he : e ∈ h.log := by simp [hcase]
      exact absurd ⟨e, he, rfl, hinv.alone e he⟩ hfresh
  refine ⟨hlog, ?_⟩
  rw [hinv.now, hlog]
  rfl

/-- An event that neither calls the agent nor a handler. -/
def Plain (F : Fork) : Op → Prop
  | .ledger op => op.branchId = F.target ∨ ∃ key, op = .read F.source key
  | .ext (.handler ..) => False
  | .ext (.mark (.agentRun ..)) => False
  | .ext _ => True

theorem agree_of_perform (hne : F.source ≠ F.target) {o : Op}
    (ho : ∀ op, o = .ledger op → op.branchId = F.target ∨ ∃ key, op = .read F.source key)
    {r : o.Reply} {s' : MemorySteps Record} (hperform : ∃ x : Env, perform h.now x o = (r, s')) :
    AgreeOn F.source h.now s' := by
  obtain ⟨x, hx⟩ := hperform
  obtain ⟨rfl, rfl⟩ := Prod.mk.inj hx
  cases o with
  | ext e => exact AgreeOn.refl _ _
  | ledger op =>
    rcases ho op rfl with hbranch | ⟨key, rfl⟩
    · exact perform_frame op x.now x.later h.now fun heq => hne (heq.symm.trans hbranch)
    · exact AgreeOn.refl _ _

/-- What an event has to say for itself. -/
theorem ForkInv.event (hinv : ForkInv F s h) {o : Op} {r : o.Reply} {s' : MemorySteps Record}
    (hsource : AgreeOn F.source h.now s')
    (hcopied : ∀ token start, o = .ext (.mark (.agentRun token start)) → ∃ history,
      start.history = some history ∧ AskedFor F history h.log ∧
        KnowledgeCopied F (unansweredToolCalls history) s s')
    (hunasked : ∀ call args, o = .ext (.handler call args) → F.runtime.retryRunning = false →
      Unknown F s call h.log) :
    ForkInv F s (Code.next h 0 request o r s') where
  now := (Pool.stateAfter_concat s h.log ⟨0, request, o, r, s'⟩).symm
  alone e he := by
    rcases List.mem_append.mp he with he | he
    · exact hinv.alone e he
    · obtain rfl := List.mem_singleton.mp he
      rfl
  run := by
    refine ⟨?_, always_concat.mpr ⟨hinv.run.copied, ?_⟩, fun hretry =>
      always_concat.mpr ⟨hinv.run.unasked hretry, ?_⟩⟩
    · -- source: the fork never writes there.
      intro e he
      rcases List.mem_append.mp he with he | he
      · exact hinv.run.source e he
      · obtain rfl := List.mem_singleton.mp he
        exact hinv.source.trans hsource
    · -- copied: the agent's run is the one event of which this says something.
      rintro ⟨token, start, hdid⟩
      have hop : o = .ext (.mark (.agentRun token start)) := Event.op_of_did hdid
      obtain ⟨history, hhistory, hasked, hknows⟩ := hcopied token start hop
      exact ⟨history, ⟨token, start, hhistory, hdid⟩, hasked, hknows⟩
    · -- unasked: likewise the handler.
      intro call args reply hdid
      exact hunasked call args (Event.op_of_did hdid) hretry

theorem ForkInv.plain (hinv : ForkInv F s h) (hne : F.source ≠ F.target) {o : Op}
    (ho : Plain F o) {r : o.Reply} {s' : MemorySteps Record}
    (hperform : ∃ x : Env, perform h.now x o = (r, s')) :
    ForkInv F s (Code.next h 0 request o r s') := by
  refine hinv.event (agree_of_perform hne ?_ hperform) ?_ ?_
  · rintro op rfl
    exact ho
  · rintro token start rfl
    exact ho.elim
  · rintro call args rfl
    exact ho.elim

theorem Plain.silent {o : Op} (ho : Plain F o) (token : Int) (start : RunStart) :
    o ≠ .ext (.mark (.agentRun token start)) := by
  rintro rfl
  exact ho

theorem Aside.plain {o : Op} (ho : Aside F.target o) : Plain F o := by
  cases o with
  | ledger op => exact Or.inl ho.branch
  | ext e =>
    cases ho with
    | ext _ he =>
      cases e with
      | handler call args => cases he
      | mark m => cases m <;> trivial
      | _ => trivial

end steps

/-! ## Section 3: The fork, step by step -/

section thread

variable {owners : Owners} {F : Fork} {s : MemorySteps Record} {request : Request}
  {history : List Message}

/-- A triple about a fork that runs alone. -/
abbrev Forks {α : Type} (owners : Owners) (F : Fork) (s : MemorySteps Record) (request : Request)
    (P : Code.History Request → Prop) (x : Code α) (Q : α → Code.History Request → Prop)
    (E : Raised → Code.History Request → Prop) : Prop :=
  Code.Serial (forks owners F).body .none (ForkInv F s) (fun _ _ => True) 0 request P x Q E

/-- The agent has not been called. -/
def Unrun (log : List (Code.Event Request)) : Prop := ∀ d ∈ log, ¬ RunsAgent d

/-- The fork is over: the agent was called, or it never will be. -/
def Over (F : Fork) (log : List (Code.Event Request)) : Prop :=
  (∃ d ∈ log, RunsAgent d) ∨ Refused F log

/-- What is known before the agent is called. -/
def Before (F : Fork) (history : List Message) (log : List (Code.Event Request)) : Prop :=
  Unrun log ∧ AskedFor F history log

/-- From the call of the agent on: what is settled stays settled. -/
structure During (F : Fork) (s : MemorySteps Record) (history : List Message)
    (h : Code.History Request) : Prop where
  run : ∃ d ∈ h.log, RunsAgent d
  only : ∀ d ∈ h.log, ∀ history', RunsOn history' d → history' = history
  settled : F.runtime.retryRunning = false → ∀ call ∈ unansweredToolCalls history,
    (F.sourceStep s call).status ≠ .absent → (F.targetStep h.now call).status.startable = false

theorem Over.append {log : List (Code.Event Request)} (h : Over F log)
    (more : List (Code.Event Request)) : Over F (log ++ more) := by
  rcases h with ⟨d, hd, hrun⟩ | ⟨d, hd, hrefused⟩ | ⟨d, hd, hraised⟩ | hnone
  · exact Or.inl ⟨d, List.mem_append_left _ hd, hrun⟩
  · exact Or.inr (Or.inl ⟨d, List.mem_append_left _ hd, hrefused⟩)
  · exact Or.inr (Or.inr (Or.inl ⟨d, List.mem_append_left _ hd, hraised⟩))
  · exact Or.inr (Or.inr (Or.inr hnone))

theorem During.over {h : Code.History Request} (hduring : During F s history h) : Over F h.log := by
  exact Or.inl hduring.run

/-- One more event that is no call of the agent. -/
theorem Before.event {log : List (Code.Event Request)} (h : Before F history log) {o : Op}
    {r : o.Reply} {s' : MemorySteps Record}
    (ho : ∀ token start, o ≠ .ext (.mark (.agentRun token start))) :
    Before F history (log ++ [⟨0, request, o, r, s'⟩]) := by
  refine ⟨?_, h.2.imp id fun ⟨hnone, d, hd, hread⟩ => ⟨hnone, d, List.mem_append_left _ hd, hread⟩⟩
  intro d hd
  rcases List.mem_append.mp hd with hd | hd
  · exact h.1 d hd
  · obtain rfl := List.mem_singleton.mp hd
    rintro ⟨token, start, hdid⟩
    exact ho token start (Event.op_of_did hdid)

/-- An operation that leaves the steps of the unanswered calls alone keeps them settled. -/
theorem During.event {h : Code.History Request} (hduring : During F s history h) {o : Op}
    {r : o.Reply} {s' : MemorySteps Record}
    (ho : ∀ token start, o ≠ .ext (.mark (.agentRun token start)))
    (hsteps : F.runtime.retryRunning = false → ∀ call ∈ unansweredToolCalls history,
      (F.sourceStep s call).status ≠ .absent → F.targetStep s' call = F.targetStep h.now call) :
    During F s history (Code.next h 0 request o r s') := by
  obtain ⟨d, hd, hrun⟩ := hduring.run
  refine ⟨⟨d, List.mem_append_left _ hd, hrun⟩, ?_, fun hretry call hcall hsource => ?_⟩
  · intro e he history' hruns
    rcases List.mem_append.mp he with he | he
    · exact hduring.only e he history' hruns
    · obtain rfl := List.mem_singleton.mp he
      obtain ⟨token, start, _, hdid⟩ := hruns
      exact absurd (Event.op_of_did hdid) (ho token start)
  · show (F.targetStep s' call).status.startable = false
    rw [hsteps hretry call hcall hsource]
    exact hduring.settled hretry call hcall hsource

/-- The source knows of the call, and nothing repeats it. -/
def Settled (F : Fork) (s : MemorySteps Record) (history : List Message) (callId : String) : Prop :=
  F.runtime.retryRunning = false ∧ ∃ call ∈ unansweredToolCalls history,
    call.toolCallId = callId ∧ (F.sourceStep s call).status ≠ .absent

/-- What an attempt does keeps what is settled. -/
theorem during_keeps (s : MemorySteps Record) (history : List Message) (request : Request)
    (hne : F.source ≠ F.target) :
    AttemptKeeps F.target F.runtime.retryRunning (Settled F s history) (ForkInv F s)
      (fun _ _ => True) 0 request
      (During F s history) (fun _ _ => True) where
  aside o ho := by
    rintro last h r s' hduring rfl hinv _ _ hperform
    refine ⟨hinv.plain hne ho.plain hperform, hduring.event ho.plain.silent fun _ call _ _ => ?_⟩
    obtain ⟨x, hx⟩ := hperform
    obtain ⟨rfl, rfl⟩ := Prod.mk.inj hx
    cases o with
    | ext e => rfl
    | ledger op => exact perform_entry op _ _ _ (Or.inr (ho.steps _))
  own callId hfree op hbranch howner hkeys := by
    rintro last h r s' hduring rfl hinv _ _ hperform
    refine ⟨hinv.plain hne (o := .ledger op) (Or.inl hbranch) hperform,
      hduring.event (by simp) fun hretry call hcall hsource => ?_⟩
    obtain ⟨x, hx⟩ := hperform
    obtain ⟨rfl, rfl⟩ := Prod.mk.inj hx
    -- A call's own operation: the call is none of the settled ones, so their rows are left alone.
    refine perform_entry op _ _ _ (Or.inr fun hmem => hfree ⟨hretry, call, hcall, ?_, hsource⟩)
    exact stepKey_inj (hkeys _ hmem)
  handler call args hfree := by
    rintro last h r s' hduring rfl hinv _ _ ⟨x, hx⟩
    obtain ⟨rfl, rfl⟩ := Prod.mk.inj hx
    refine ⟨hinv.event (AgreeOn.refl _ _) (fun _ _ hop => by cases hop) ?_,
      hduring.event (by simp) fun _ _ _ _ => rfl⟩
    intro call' args' hop hretry
    cases hop
    -- A handler runs: the call was not settled, so the source knew nothing of it.
    refine ⟨hduring.run, fun d hd history' hruns call' hcall' heq => ?_⟩
    obtain rfl := hduring.only d hd history' hruns
    by_contra hsource
    exact hfree ⟨hretry, call', hcall', heq, hsource⟩
  settled h hduring callId hsettled := by
    obtain ⟨hretry, call, hcall, rfl, hsource⟩ := hsettled
    have hfixed := hduring.settled hretry call hcall hsource
    unfold Fork.targetStep at hfixed
    -- Settled means done, or running where running steps are not retried.
    cases hstatus : (h.now.entry F.target (stepKey call.toolCallId)).status with
    | done => exact Or.inl rfl
    | running => exact Or.inr ⟨rfl, hretry⟩
    | absent =>
      rw [hstatus] at hfixed
      cases hfixed
    | ready =>
      rw [hstatus] at hfixed
      cases hfixed
  returned callId record := by
    rintro last h r s' ⟨hduring, _⟩ rfl hinv _ _ hperform
    refine ⟨hinv.plain hne (o := .ext (.mark (.toolReturned callId (.ok record)))) trivial hperform,
      ?_⟩
    obtain ⟨x, hx⟩ := hperform
    obtain ⟨rfl, rfl⟩ := Prod.mk.inj hx
    exact hduring.event (by simp) fun _ _ _ _ => rfl
  grows _ _ _ _ := trivial

/-- The copy leaves the target with what the source knows. -/
theorem Copying.knowledge {calls : List ToolCall} {s' : MemorySteps Record}
    (h : Copying F s calls s') : KnowledgeCopied F calls s s' := by
  -- What copying leaves of a call is `forkStep` of both branches' steps.
  have hcall : ∀ call ∈ calls, F.targetStep s' call
      = forkStep (F.sourceStep s call) (F.targetStep s call) := by
    intro call hcall
    refine (h.target _).trans ?_
    unfold forked
    rw [if_pos (List.mem_map_of_mem hcall)]
    rfl
  refine ⟨?_, ?_, ?_⟩
  · -- A result is carried over.
    intro call hmem hfree hdone
    rw [hcall call hmem, forkStep_done hdone hfree]
    exact ⟨rfl, rfl⟩
  · -- A doubt is carried over as a doubt.
    intro call hmem hfree hdoubt
    have habsent : (F.sourceStep s call).status ≠ .absent := by
      rcases hdoubt with hstatus | hstatus <;> rw [hstatus] <;> decide
    have hdone : (F.sourceStep s call).status ≠ .done := by
      rcases hdoubt with hstatus | hstatus <;> rw [hstatus] <;> decide
    rw [hcall call hmem, forkStep_doubt habsent hdone hfree]
  · -- Any other key is as it was.
    intro key hothers
    rw [h.target]
    unfold forked
    split
    · next hmem =>
      obtain ⟨call, hcall, rfl⟩ := List.mem_map.mp hmem
      cases hfree : (s.entry F.target (stepKey call.toolCallId)).status.startable with
      | false => exact forkStep_settled hfree _
      | true => exact forkStep_absent (hothers call hcall rfl hfree) _
    · rfl

theorem Copying.settled {calls : List ToolCall} {s' : MemorySteps Record}
    (h : Copying F s calls s') {call : ToolCall} (hcall : call ∈ calls)
    (hsource : (F.sourceStep s call).status ≠ .absent) :
    (F.targetStep s' call).status.startable = false := by
  have hstep : F.targetStep s' call = forkStep (F.sourceStep s call) (F.targetStep s call) := by
    refine (h.target _).trans ?_
    unfold forked
    rw [if_pos (List.mem_map_of_mem hcall)]
    rfl
  rw [hstep]
  exact forkStep_settles hsource _

/-- The attempt. -/
theorem attempt_forks (hne : F.source ≠ F.target) {token : Int} {options : Options}
    {prompt : Option Json} {regate : List String} :
    Forks owners F s request
      (fun h => Before F history h.log ∧ Copying F s (unansweredToolCalls history) h.now)
      (F.runtime.attempt F.dst token options
        { prompt := prompt, messageHistory := some history, regate := regate })
      (fun _ h => Over F h.log) fun _ h => Over F h.log := by
  have K := during_keeps s history request hne
  let boundary := F.runtime.boundary F.dst token options
    { prompt := prompt, messageHistory := some history, regate := regate }
  have hb : boundary.store.name boundary.branchId = F.target := rfl
  -- The gate touches neither steps nor knowledge.
  have hbefore : ∀ ctx tool call args approved, True →
      AttemptM.Serial (forks owners F).body .none (ForkInv F s) (fun _ _ => True) 0 request
        (fun _ => During F s history) (boundary.beforeToolExecute ctx tool call args approved)
        (fun _ _ h => During F s history h ∧ True) fun _ _ => During F s history := by
    intro ctx tool call args approved _
    have honly := beforeToolExecute_only (permits_aside hb).controls ctx tool call args approved
    exact (aside_serial K honly).mono (fun _ _ hpre => hpre)
      (fun _ _ _ hpost => ⟨hpost, trivial⟩) fun _ _ _ hpost => hpost
  have hdrive := drive_serial K hb rfl hbefore options.agent.digest
    (Prog.all_of_forall (fun _ => trivial) (options.agent.run ⟨prompt, some history, none⟩))
  refine (attempt_serial rfl ?_ ?_ K.aside ?_ hdrive).mono (fun _ hpre => hpre)
    (fun _ h hpost => During.over hpost) fun _ _ hpost => hpost
  · -- the transcript is asked, and may raise
    rintro op last h r s' ⟨hbefore, hcopy⟩ rfl hinv _ _ ⟨x, hx⟩
    obtain ⟨rfl, rfl⟩ := Prod.mk.inj hx
    refine ⟨hinv.plain hne (o := .ext (.transcript op)) trivial ⟨x, rfl⟩, ?_⟩
    -- Opened, or raised: then the run is over before it began.
    cases hreply : x.reply (.transcript op) with
    | ok a => exact ⟨hbefore.event (by simp), hcopy⟩
    | error e =>
      refine Or.inr (Or.inr (Or.inl ⟨_, List.mem_append_right _ List.mem_cons_self, op, e, ?_⟩))
      rw [← hreply]
      rfl
  · rintro last h r s' ⟨hbefore, hcopy⟩ rfl hinv _ _ ⟨x, hx⟩
    obtain ⟨rfl, rfl⟩ := Prod.mk.inj hx
    -- The agent runs now: what was copied is what the invariant asks of this event.
    refine ⟨hinv.event (AgreeOn.refl _ _) ?_ (fun _ _ hop => by cases hop), ?_, ?_, ?_⟩
    · intro token' start hop
      cases hop
      exact ⟨history, rfl, hbefore.2, hcopy.knowledge⟩
    · exact ⟨_, List.mem_append_right _ List.mem_cons_self, token, _, rfl⟩
    · intro d hd history' hruns
      rcases List.mem_append.mp hd with hd | hd
      · obtain ⟨token', start, _, hdid⟩ := hruns
        exact absurd ⟨token', start, hdid⟩ (hbefore.1 d hd)
      · obtain rfl := List.mem_singleton.mp hd
        obtain ⟨token', start, hhistory, hdid⟩ := hruns
        cases Event.op_of_did hdid
        exact (Option.some.inj hhistory).symm
    · exact fun _ call hcall hsource => hcopy.settled hcall hsource
  · exact fun _ h hduring => During.over hduring

/-- What the copy does is plain, and its token stays what it is. -/
theorem copy_keeps (s : MemorySteps Record) (history : List Message) (request : Request)
    (hne : F.source ≠ F.target) (token : Int) :
    CopyKeeps F token (ForkInv F s) (fun _ _ => True) 0 request fun h =>
      Before F history h.log ∧ (LeaseOk s → ¬ Stale F token h.now) := by
  rintro op h r s' hinv ⟨hbefore, hfresh⟩ hop _ ⟨x, hperform⟩
  have hplain : Plain F (.ledger op) := by
    cases hop with
    | read callId => exact Or.inr ⟨_, rfl⟩
    | start callId hsource => exact Or.inl rfl
    | finish callId hsource htarget => exact Or.inl rfl
  have howner : op.owner? = none := by cases hop <;> rfl
  have hsame := (perform_sameLeases op howner x.now x.later h.now).issued F.target
  rw [hperform] at hsame
  refine ⟨hinv.plain hne hplain ⟨x, hperform⟩, hbefore.event (by simp), ?_⟩
  rintro hleases ⟨hzero, hlt⟩
  exact hfresh hleases ⟨hzero, hsame ▸ hlt⟩

/-- `acquire` for the fork: refused, or under a token that is not stale. -/
theorem acquire_forks (hne : F.source ≠ F.target) (owner : String) (ttl : ℚ) :
    Forks owners F s request (fun h => h.now = s ∧ Before F history h.log)
      (F.dst.store.acquire F.dst.branchId owner ttl)
      (fun (token : Int) h => (token = 0 → Over F h.log) ∧
        (token ≠ 0 → (Before F history h.log ∧ (LeaseOk s → ¬ Stale F token h.now)) ∧
          Copying F s [] h.now))
      fun _ _ => False := by
  refine Code.Serial.ledger ?_
  rintro last h r s' ⟨hnow, hbefore⟩ rfl hinv _ _ ⟨x, hx⟩
  have hinv' : ForkInv F s (Code.next h 0 request (.ledger (.acquire F.target owner ttl)) r s') :=
    hinv.plain hne (o := .ledger (.acquire F.target owner ttl)) (Or.inl rfl) ⟨x, hx⟩
  obtain ⟨token, rfl, hentry, hissued⟩ := acquire_spec hx
  rw [hnow] at hentry hissued
  refine ⟨hinv', ?_, ?_⟩
  · -- Zero: the lease is another's, and the run is over.
    rintro rfl
    exact Or.inr (Or.inl ⟨_, List.mem_append_right _ List.mem_cons_self, owner, ttl, rfl⟩)
  · -- A lease: the token is the newest, and not a step has moved.
    intro hzero
    refine ⟨⟨hbefore.event (by simp), ?_⟩, hentry F.source, fun key => ?_⟩
    · rintro hleases ⟨_, hlt⟩
      have hnewest : s'.issued F.target = token := hissued hleases hzero
      change token < s'.issued F.target at hlt
      omega
    · refine (hentry F.target key).trans ?_
      simp [forked]

/-- The fork under the target's lease. -/
theorem lease_forks (hne : F.source ≠ F.target) {options : Options} {prompt : Option Json}
    {P : Code.History Request → Prop}
    (hP : ∀ h, ForkInv F s h → P h → h.now = s ∧ Before F history h.log) :
    Forks owners F s request P
      (F.runtime.lease F.dst (owners.name 0) .fork fun token => do
        let copied ← AgentRuntime.copySteps F.src F.dst token (unansweredToolCalls history)
        F.runtime.attempt F.dst token options
          { prompt := prompt, messageHistory := some history,
            regate := if F.regate then copied else [] })
      (fun _ h => LeaseOk s → Over F h.log) fun _ h => LeaseOk s → Over F h.log := by
  unfold AgentRuntime.lease
  have hmark : Forks owners F s request P (Code.mark (.leasing .fork))
      (fun _ h => h.now = s ∧ Before F history h.log) fun _ h => LeaseOk s → Over F h.log := by
    refine Code.Serial.mark ?_
    rintro last h r s' hpre rfl hinv _ _ ⟨x, hx⟩
    obtain ⟨hnow, hbefore⟩ := hP h hinv hpre
    obtain ⟨rfl, rfl⟩ := Prod.mk.inj hx
    exact ⟨hinv.plain hne (o := .ext (.mark (.leasing .fork))) trivial ⟨x, rfl⟩, hnow,
      hbefore.event (by simp)⟩
  refine hmark.bind fun _ => ?_
  refine ((acquire_forks hne (owners.name 0) F.runtime.leaseTtl).mono (fun _ hpre => hpre)
    (fun _ _ hpost => hpost) fun _ _ hfalse => hfalse.elim).bind fun token => ?_
  refine Code.Serial.ite (fun hzero => ?_) fun hzero => ?_
  · exact Code.Serial.throw fun h hpre _ => hpre.1 hzero
  · -- Under the lease the copy comes first, then the attempt on what was copied.
    have hbody : Forks owners F s request
        (fun h => (token = 0 → Over F h.log) ∧
          (token ≠ 0 → (Before F history h.log ∧ (LeaseOk s → ¬ Stale F token h.now)) ∧
            Copying F s [] h.now))
        (do
          let copied ← AgentRuntime.copySteps F.src F.dst token (unansweredToolCalls history)
          F.runtime.attempt F.dst token options
            { prompt := prompt, messageHistory := some history,
              regate := if F.regate then copied else [] })
        (fun _ h => LeaseOk s → Over F h.log) fun _ h => LeaseOk s → Over F h.log := by
      have hcopy := copySteps_serial (forks owners F).body
        (copy_keeps s history request hne token) hne []
        (unansweredToolCalls history) (t := s)
      refine (hcopy.mono (fun h hpre => hpre.2 hzero) (fun _ _ hpost => hpost) ?_).bind
        fun copied => ?_
      · -- the token was just given out, so nothing the copy does is refused
        rintro e h ⟨⟨_, hfresh⟩, hstale⟩ hleases
        exact absurd hstale (hfresh hleases)
      · refine (attempt_forks hne).mono ?_ (fun _ _ hpost _ => hpost) fun _ _ hpost _ => hpost
        rintro h ⟨⟨hbefore, _⟩, hcopying, _⟩
        exact ⟨hbefore, by simpa using hcopying⟩
    -- The release comes last, and what is over stays over.
    have hrelease : Forks owners F s request (fun h => LeaseOk s → Over F h.log)
        (F.dst.store.release F.dst.branchId (owners.name 0))
        (fun _ h => LeaseOk s → Over F h.log) fun _ h => LeaseOk s → Over F h.log := by
      refine Code.Serial.ledger ?_
      rintro last h r s' hover rfl hinv _ _ hx
      refine ⟨hinv.plain hne (o := .ledger (.release F.target (owners.name 0))) (Or.inl rfl) hx, ?_⟩
      cases r with
      | ok a => exact fun hleases => (hover hleases).append _
      | error e => exact fun hleases => (hover hleases).append _
    exact Code.Serial.finally_ hbody (fun _ => hrelease) fun _ => hrelease

/-- **The fork**, whatever history it starts from. -/
theorem fork_forks (owners : Owners) (s : MemorySteps Record) (request : Request)
    (hne : F.source ≠ F.target) (options : Options) (prompt : Option Json) :
    Forks owners F s request (fun h => ¬ Moved .none 0 h)
      (serve owners F 0 (.fork options prompt))
      (fun _ h => LeaseOk s → Over F h.log) fun _ h => LeaseOk s → Over F h.log := by
  show Forks owners F s request _ (F.runtime.fork F.src F.at_ F.dst (owners.name 0) options prompt
    F.history F.regate) _ _
  -- nothing of the fork is on record before its first step
  have hstart : ∀ h, ForkInv F s h → ¬ Moved .none 0 h → h.now = s ∧ Unrun h.log := by
    intro h hinv hfresh
    obtain ⟨hlog, hnow⟩ := hinv.fresh hfresh
    refine ⟨hnow, ?_⟩
    rw [hlog]
    simp [Unrun]
  unfold AgentRuntime.fork AgentRuntime.forkHistory
  cases hhistory : F.history with
  -- the caller gives the history, so nothing is read
  | some history =>
    refine lease_forks hne fun h hinv hfresh => ?_
    exact ⟨(hstart h hinv hfresh).1, (hstart h hinv hfresh).2, Or.inl hhistory⟩
  | none =>
    dsimp only
    by_cases htranscript : ¬ F.runtime.transcript
    · -- with neither a history nor a transcript the call is refused
      rw [if_pos htranscript]
      exact (Code.Serial.throw fun _ _ _ => Or.inr (Or.inr (Or.inr ⟨hhistory, htranscript⟩))).bind
        (Q := fun _ _ => False) fun _ => Pool.Serial.absurd fun _ hfalse => hfalse
    · rw [if_neg htranscript]
      -- the source branch is read; the ledger does not move meanwhile
      refine Code.Serial.bind (Q := fun history h => h.now = s ∧ Before F history h.log) ?_
        fun history => lease_forks hne fun h _ hpre => hpre
      refine Code.Serial.ask rfl ?_
      rintro last h r s' hfresh rfl hinv _ _ hx
      obtain ⟨hnow, hunrun⟩ := hstart h hinv hfresh
      have hinv' : ForkInv F s (Code.next h 0 request
          (.ext (.transcript (.read F.src.conversation F.at_))) r s') :=
        hinv.plain hne (o := .ext (.transcript (.read F.src.conversation F.at_))) trivial hx
      obtain ⟨x, hx⟩ := hx
      have hsame : h.now = s' := (Prod.mk.inj hx).2
      refine ⟨hinv', ?_⟩
      change Except Raised (List Message) at r
      cases r with
      | ok history =>
        refine ⟨hsame ▸ hnow, ?_,
          Or.inr ⟨hhistory, _, List.mem_append_right _ List.mem_cons_self, rfl⟩⟩
        intro d hd
        rcases List.mem_append.mp hd with hd | hd
        · exact hunrun d hd
        · obtain rfl := List.mem_singleton.mp hd
          rintro ⟨token, start, hdid⟩
          cases Event.op_of_did hdid
      -- a read that raises ends the fork, having copied nothing
      | error e =>
        intro _
        exact Or.inr (Or.inr (Or.inl ⟨_, List.mem_append_right _ List.mem_cons_self, _, e, rfl⟩))

end thread

/-! ## Section 4: Every fork -/

/-- **A fork carries knowledge, not authority**: whatever the ledgers and the history, a fork that
    runs alone leaves its source's ledger as it is; its attempt begins with the target knowing of
    the unanswered calls what the source knows, and no other step changed; and it invokes the
    handler of none that the source knows of, unless it repeats calls in doubt. When it is over,
    it was refused or has begun its attempt. -/
theorem fork_carries_knowledge (owners : Owners) (F : Fork) (hne : F.source ≠ F.target)
    (s : MemorySteps Record) (options : Options) (prompt : Option Json) (xs : List Env) :
    ForkRun F s (alone (forks owners F) s (.fork options prompt) xs).hist.log ∧
    (LeaseOk s → ∃ rest, (alone (forks owners F) s (.fork options prompt) xs).threads 0
        = some ⟨.fork options prompt, rest⟩ ∧
      ∀ outcome, rest = .pure outcome →
        Over F (alone (forks owners F) s (.fork options prompt) xs).hist.log) := by
  have hinit : ForkInv F s (⟨s, []⟩ : Code.History Request) := by
    refine ⟨rfl, by simp, by simp, always_nil, fun _ => always_nil⟩
  obtain ⟨hinv, rest, hthread, hover⟩ :=
    alone_after (fork_forks owners s (.fork options prompt) hne options prompt) hinit xs
  refine ⟨hinv.run, fun hleases => ⟨rest, hthread, ?_⟩⟩
  rintro outcome rfl
  have hpost := hover outcome rfl
  cases outcome with
  | ok a => exact hpost hleases
  | error e => exact hpost hleases

/-! The source has done one call and may only repeat the other. -/

section granted

/-- An agent that makes the calls of its history's round. -/
def roundAgent (tool : ToolDefinition) (callIds : List String) : Agent where
  digest := plainDigest
  run start := ToolAgent.callAll tool ⟨0, start.history.getD []⟩ false
    (fun _ => .pure (.error .cancelled)) (callIds.map fun callId => (⟨tool.name, "", callId⟩, "")) {}

/-- A fork of `run-a`, whose latest round makes two calls. -/
def twoCalls (regate : Bool) : Fork where
  runtime := ⟨60, false, false⟩
  src := { branchId := "run-a" }
  dst := { branchId := "run-b" }
  at_ := none
  history := some [.response (asksFor { name := "write" } ["c1", "c2"])]
  regate := regate

/-- One call is done; of the other a person said that it may be repeated. -/
def grantedOnSource : MemorySteps Record :=
  (MemorySteps.init.setEntry "run-a" (stepKey "c1")
    { status := .done, value := some (.tool (.ok "wrote")), version := 2 }).setEntry
      "run-a" (stepKey "c2") { status := .ready, version := 2 }

def grantedRun : World (MemorySteps Record) Op.Reply fun _ : Request => Except Raised Outcome :=
  alone (forks ownerNames (twoCalls false)) grantedOnSource
    (.fork { agent := roundAgent { name := "write" } ["c1", "c2"] } none)
    (List.replicate 40 (outside 0 ⟨[]⟩ .continue))

/-- How often a handler was invoked. -/
def invocations (log : List (Code.Event Request)) : Nat :=
  log.countP fun e =>
    match e.op with
    | .ext (.handler _ _) => true
    | _ => false

theorem fork_carries_knowledge_granted :
    ForkRun (twoCalls false) grantedOnSource grantedRun.hist.log ∧
    grantedRun.hist.now.entry "run-b" (stepKey "c1")
      = { status := .done, value := some (.tool (.ok "wrote")), version := 2 } ∧
    grantedRun.hist.now.entry "run-b" (stepKey "c2") = { status := .running, version := 1 } ∧
    invocations grantedRun.hist.log = 0 := by
  refine ⟨(fork_carries_knowledge ownerNames (twoCalls false) (by decide +kernel) grantedOnSource
    { agent := roundAgent { name := "write" } ["c1", "c2"] } none
    (List.replicate 40 (outside 0 ⟨[]⟩ .continue))).1, ?_, ?_, ?_⟩
  · decide +kernel
  · decide +kernel
  · decide +kernel

end granted

end Forking

end Semora
