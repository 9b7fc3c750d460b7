import Semora.Agent.SharedTranscript
import Semora.Agent.BranchFinalize
import Semora.Agent.RuntimeOps
import Semora.Agent.Verdict
import Semora.Agent.Watch

/-! # Recovering a Branch

    `Recover` reads the state and the committed history of a branch before it
    takes the lease, and its attempt then makes what it read the history of
    the branch. What other workers commit in between is not in it. -/

namespace Semora

open Pool

/-! ## Section 1: What a recovering thread does -/

/-- What a thread that recovers a branch was answered, up to its agent's run. -/
structure Recovering where
  /-- What `committed_history` answered. -/
  read : List Message := []
  /-- The lease was granted. -/
  leased : Bool := false
  /-- The continuation that was found parked. -/
  parked : Option Suspension := none
  /-- What the thread's branch was opened with, or holds in its place. -/
  placed : Option (List Message) := none
  /-- What the agent's run was started with. -/
  start : Option RunStart := none

namespace Recovering

/-- The history that the attempt is handed: the snapshot of the continuation that is parked, or
    else what was read. -/
def handed (m : Recovering) : List Message :=
  match m.parked with
  | some active => active.continuation.messages
  | none => m.read

/-- An exchange before the agent's run. -/
def answered (m : Recovering) : (o : Op) → o.Reply → Recovering
  | .ext (.transcript (.read _ none)), .ok messages => { m with read := messages }
  | .ledger (.acquire ..), .ok (token : Int) => { m with leased := m.leased || token ≠ 0 }
  | .ledger (.read _ key), .ok step =>
    if key = activeSuspension then { m with parked := suspensionOf step } else m
  | .ext (.transcript (.openBranch ..)), .ok messages => { m with placed := some messages }
  | .ext (.transcript (.replace messages)), .ok _ => { m with placed := some messages }
  | .ext (.mark (.agentRun _ start)), _ => { m with start := some start }
  | _, _ => m

/-- What it does before the agent's run: under the lease a branch is opened, replaced with the
    history that was handed on, and the run is started with what the branch holds. -/
def permits (m : Recovering) : Op → Prop
  | .ext (.transcript (.openBranch ..)) => m.leased = true
  | .ext (.transcript (.replace messages)) => m.leased = true ∧ messages = m.handed
  | .ext (.mark (.agentRun _ start)) => m.leased = true ∧ m.placed = some (start.history.getD [])
  | _ => True

/-- What it does from then on: no branch is opened, and no run started. -/
def Settled : Op → Prop
  | .ext (.transcript (.openBranch ..)) => False
  | .ext (.mark (.agentRun ..)) => False
  | _ => True

end Recovering

/-- Watches a thread that recovers a branch. -/
def recovering : Monitor Op Op.Reply Recovering where
  next m o r := if m.start.isSome then m else m.answered o r
  allows m o := if m.start.isSome then Recovering.Settled o else m.permits o

section recovers

variable {α : Type} {runtime : AgentRuntime} {execution : ExecutionContext} {owner : String}
  {options : Options} {P : Recovering → Prop}

/-- `x` does what a recovering thread does. -/
abbrev Recovers (P : Recovering → Prop) (x : Code α) (Q : α → Recovering → Prop) : Prop :=
  Code.Watched recovering P x Q fun _ _ => True

/-- The agent has not run. -/
abbrev Recovering.Early (m : Recovering) : Prop := m.start = none

theorem Recovering.Early.allows_iff {m : Recovering} (h : m.Early) {o : Op} :
    recovering.allows m o ↔ m.permits o := by
  show (if m.start.isSome then Recovering.Settled o else m.permits o) ↔ _
  rw [h]
  exact Iff.rfl

/-- Once the agent runs. -/
theorem running_recovers {x : Code α} (hx : Code.Only Recovering.Settled x) :
    Recovers (fun m => m.start.isSome = true) x fun _ m => m.start.isSome = true := by
  refine (hx.watched ?_).mono (fun _ h => h) (fun _ _ h => h) fun _ _ _ => trivial
  intro o ho m hm
  refine ⟨?_, fun r => ?_⟩
  · show if m.start.isSome then Recovering.Settled o else m.permits o
    rw [if_pos hm]
    exact ho
  · show (if m.start.isSome then m else m.answered o r).start.isSome = true
    rw [if_pos hm]
    exact hm

/-- An operation that is passed over. -/
def Recovering.Unseen (o : Op) : Prop := (∀ m : Recovering, m.permits o) ∧
  Recovering.Settled o ∧ ∀ (m : Recovering) r, m.answered o r = m

theorem unseen_recovers {x : Code α} (hx : Code.Only Recovering.Unseen x) :
    Recovers P x fun _ => P := by
  refine (hx.watched ?_).mono (fun _ h => h) (fun _ _ h => h) fun _ _ _ => trivial
  intro o ho m hm
  refine ⟨?_, fun r => ?_⟩
  · show if m.start.isSome then Recovering.Settled o else m.permits o
    split
    · exact ho.2.1
    · exact ho.1 m
  · show P (if m.start.isSome then m else m.answered o r)
    rw [ho.2.2 m r, ite_self]
    exact hm

/-- `_open`: the branch is opened, and holds what it is handed. -/
theorem openHistory_recovers (htranscript : runtime.transcript = true)
    (history : Option (List Message)) :
    Recovers (fun m => m.Early ∧ m.leased = true ∧ ∀ h ∈ history, h = m.handed)
      (runtime.openHistory execution history)
      fun start m => m.Early ∧ m.leased = true ∧ m.placed = some (start.getD []) := by
  refine Code.Watched.ite (fun h => absurd htranscript h) fun _ => ?_
  have hopened : Recovers (fun m => m.Early ∧ m.leased = true ∧ ∀ h ∈ history, h = m.handed)
      (Code.ask (.transcript (.openBranch execution.conversation execution.branchId)))
      (fun (messages : List Message) m => m.Early ∧ m.leased = true ∧ m.placed = some messages ∧
        ∀ h ∈ history, h = m.handed) := by
    refine Code.Watched.ask rfl (fun m hm => hm.1.allows_iff.mpr hm.2.1) fun m hm r => ?_
    obtain ⟨read, leased, parked, placed, start⟩ := m
    obtain ⟨rfl, hleased, hhanded⟩ := hm
    cases r with
    | error e => trivial
    | ok messages => exact ⟨rfl, hleased, rfl, hhanded⟩
  refine hopened.bind fun messages => ?_
  -- What is placed is what the start is given: the messages opened, or the history put in their
  -- place.
  cases history with
  | none =>
    refine Code.Watched.pure fun m hm => ⟨hm.1, hm.2.1, ?_⟩
    -- An empty list is passed on as no history at all.
    rw [hm.2.2.1]
    by_cases hempty : messages = []
    · rw [if_pos hempty, hempty]
      rfl
    · rw [if_neg hempty]
      rfl
  | some history =>
    -- The history handed on is the one the recovery holds, which is all that `replace` is allowed.
    have hreplaced : Recovers (fun m => m.Early ∧ m.leased = true ∧ m.placed = some messages ∧
          ∀ h ∈ some history, h = m.handed)
        (Code.ask (.transcript (.replace history)))
        (fun (_ : Unit) m => m.Early ∧ m.leased = true ∧ m.placed = some history) := by
      refine Code.Watched.ask rfl (fun m hm =>
        hm.1.allows_iff.mpr ⟨hm.2.1, hm.2.2.2 history rfl⟩) fun m hm r => ?_
      obtain ⟨read, leased, parked, placed, start⟩ := m
      obtain ⟨rfl, hleased, _, _⟩ := hm
      cases r with
      | error e => trivial
      | ok _ => exact ⟨rfl, hleased, rfl⟩
    exact hreplaced.bind fun _ => Code.Watched.pure fun m hm => hm

/-- Calls that a recovering thread may make at any time. -/
theorem unseen_call {op : LedgerOp Record} (howner : op.owner? = none)
    (hread : ∀ b, op ≠ .read b activeSuspension) : Recovering.Unseen (.ledger op) := by
  refine ⟨fun _ => trivial, trivial, fun m r => ?_⟩
  cases op with
  | acquire b w ttl => cases howner
  | read b key =>
    cases r with
    | error e => rfl
    | ok step =>
      show (if key = activeSuspension then _ else m) = m
      rw [if_neg fun hkey => hread b (by rw [hkey])]
  | _ => cases r <;> rfl

theorem unseen_read {b key : String} (hkey : key ≠ activeSuspension) :
    Recovering.Unseen (.ledger (.read b key)) :=
  unseen_call rfl fun _ heq => hkey (LedgerOp.read.inj heq).2

theorem unseen_ledger {op : LedgerOp Record} (howner : op.owner? = none)
    (hread : ∀ b, op ≠ .read b activeSuspension) : Code.Only Recovering.Unseen (Code.ledger op) :=
  Code.only_ledger (unseen_call howner hread)

theorem settled_boundary (boundary : ExecutionBoundary) :
    PermitsTools boundary Recovering.Settled where
  pendingRound _ _ _ _ _ := trivial
  modelStep _ _ _ _ _ _ := trivial
  asked e he := by
    cases e with
    | transcript op =>
      cases op with
      | append messages => trivial
      | _ => cases he
    | mark m => cases he
    | _ => trivial
  model _ _ := trivial
  mark m hm := by
    cases m with
    | agentRun token start => cases hm
    | _ => trivial
  step _ _ _ _ _ _ := trivial
  after _ _ _ _ _ _ := trivial
  handler _ _ := trivial
  returned _ _ := trivial
  postToolUse _ _ _ := trivial

/-- `_attempt`: the branch holds what it is handed when the agent's run begins. -/
theorem attempt_recovers (htranscript : runtime.transcript = true) {token : Int}
    {args : AttemptArgs} :
    Recovers (fun m => m.Early ∧ m.leased = true ∧ ∀ h ∈ args.messageHistory, h = m.handed)
      (runtime.attempt execution token options args) fun _ m => m.start.isSome = true := by
  refine (openHistory_recovers htranscript args.messageHistory).bind fun history => ?_
  -- Delivering the prompt is not seen by the monitor.
  have hdeliver : Code.Only Recovering.Unseen
      (AgentRuntime.deliverPrompt execution token args.prompt args.promptId) :=
    deliverPrompt_only (fun _ _ => unseen_call rfl (by simp)) (fun _ _ => unseen_call rfl (by simp))
      _ _ _
  refine (unseen_recovers hdeliver).bind fun prompt => ?_
  dsimp only
  -- From the start on the monitor is at rest, and the rest of the attempt is free.
  have hstarted : Recovers
      (fun m => m.Early ∧ m.leased = true ∧ m.placed = some (history.getD []))
      (Code.mark (.agentRun token ⟨prompt, history, args.deferredToolResults⟩))
      fun _ m => m.start.isSome = true := by
    refine Code.Watched.mark (fun m hm => hm.1.allows_iff.mpr hm.2) fun m hm => ?_
    obtain ⟨read, leased, parked, placed, start⟩ := m
    obtain ⟨rfl, _, _⟩ := hm
    rfl
  refine hstarted.bind fun _ => running_recovers ?_
  refine (runAgent_only (settled_boundary _) options.agent _).bind fun r => ?_
  obtain ⟨result, st⟩ := r
  refine (replaceHistory_only (fun _ => trivial) result.messages).bind fun _ => ?_
  cases houtput : result.output with
  | deferred requests => exact park_only (fun _ _ _ _ _ => trivial) fun _ _ _ => trivial
  | text output =>
    refine (close_only (fun _ _ => trivial) _ _).bind fun _ => ?_
    exact (Code.only_mark trivial).bind fun _ => Code.only_pure _

/-- What anything does of which nothing is asked. -/
theorem computed_recovers {β : Type} {r : Except Raised β} :
    Recovers P (Code.ofExcept r) fun _ => P := unseen_recovers (Code.only_ofExcept r)

/-- `_active`: what is found is what is parked. -/
theorem active_recovers (hP : ∀ (m : Recovering) parked, P m → P { m with parked := parked }) :
    Recovers (fun m => m.Early ∧ P m) (AgentRuntime.active execution)
      fun found m => m.Early ∧ m.parked = found ∧ P m := by
  have hread : Recovers (fun m => m.Early ∧ P m)
      (execution.store.read execution.branchId activeSuspension)
      fun step m => m.Early ∧ m.parked = suspensionOf step ∧ P m := by
    refine Code.Watched.ledger (fun m hm => hm.1.allows_iff.mpr trivial) (fun m hm step => ?_)
      fun _ _ _ => trivial
    obtain ⟨read, leased, parked, placed, start⟩ := m
    obtain ⟨rfl, hpre⟩ := hm
    exact ⟨rfl, rfl, hP _ _ hpre⟩
  rw [active_eq]
  refine hread.bind fun step => ?_
  exact Code.Watched.ite (fun _ => Code.Watched.throw fun _ _ => trivial)
    fun _ => Code.Watched.pure fun _ hm => hm

/-- `_finalize`, of the continuation that is parked. -/
theorem finalize_recovers (htranscript : runtime.transcript = true) {token : Int}
    {active : Suspension} {answers : Dict String Answer}
    {parked : List (ToolCall × SuspendRequest)} :
    Recovers (fun m => m.Early ∧ m.leased = true ∧ m.parked = some active)
      (runtime.finalize execution token options active answers parked)
      fun _ m => m.start.isSome = true := by
  have hmark : Code.Only Recovering.Unseen (Code.mark (.finalizing active answers)) :=
    Code.only_mark ⟨fun _ => trivial, trivial, fun _ _ => rfl⟩
  refine (unseen_recovers hmark).bind fun _ => computed_recovers.bind fun approvals => ?_
  obtain ⟨approvals, cancelled⟩ := approvals
  dsimp only
  refine (unseen_recovers (unseen_ledger rfl (by simp))).bind fun _ =>
    computed_recovers.bind fun _ => ?_
  -- The parked snapshot is handed on, and it is what was read as parked.
  have hattempt : Recovers (fun m => m.Early ∧ m.leased = true ∧ m.parked = some active)
      (runtime.attempt (executionContext execution
        (if active.conversationId = execution.branchId then none else some active.conversationId))
        token options
        { messageHistory := some active.continuation.messages,
          deferredToolResults := some approvals,
          resumed := resumedOf answers active.continuation.rulesVersion parked,
          cancelled := cancelled }) fun _ m => m.start.isSome = true := by
    refine (attempt_recovers htranscript).pre fun m hm => ⟨hm.1, hm.2.1, ?_⟩
    intro h hh
    obtain rfl := Option.some.inj hh
    unfold Recovering.handed
    rw [hm.2.2]
  refine hattempt.bind fun outcome => running_recovers ?_
  exact (Code.only_ledger trivial).bind fun _ => Code.only_pure _

/-- The body of `recover`, under the lease. -/
theorem recoverUnderLease_recovers (htranscript : runtime.transcript = true)
    {history : List Message} {token : Int} :
    Recovers (fun m => m.Early ∧ m.leased = true ∧ m.read = history)
      (runtime.recoverUnderLease execution options history token)
      fun _ _ => True := by
  have hactive : Recovers (fun m => m.Early ∧ m.leased = true ∧ m.read = history)
      (AgentRuntime.active execution)
      fun found m => m.Early ∧ m.parked = found ∧ m.leased = true ∧ m.read = history :=
    active_recovers fun _ _ h => h
  refine hactive.bind fun found => ?_
  cases found with
  -- Something is parked: announced again, or finalised with its own snapshot.
  | some active =>
    refine computed_recovers.bind fun pending => ?_
    refine Code.Watched.ite (fun _ => Code.Watched.throw fun _ _ => trivial) fun _ => ?_
    refine computed_recovers.bind fun parked => ?_
    exact (finalize_recovers htranscript).mono (fun m hm => ⟨hm.1, hm.2.2.1, hm.2.1⟩)
      (fun _ _ _ => trivial) fun _ _ _ => trivial
  -- Nothing is parked: the attempt is handed the history the dispatch read.
  | none =>
    have hcheck : Code.Only Recovering.Unseen (AgentRuntime.checkPendingRound execution history) :=
      checkPendingRound_only (unseen_read pendingRoundKey_ne_activeSuspension) history
    refine (unseen_recovers hcheck).bind fun _ => ?_
    refine (attempt_recovers htranscript).mono (fun m hm => ⟨hm.1, hm.2.2.1, ?_⟩)
      (fun _ _ _ => trivial) fun _ _ _ => trivial
    intro h hh
    obtain rfl := Option.some.inj hh
    unfold Recovering.handed
    rw [hm.2.1, hm.2.2.2]

/-- A method under the lease. -/
theorem lease_recovers {method : Method} {body : Int → Code α}
    (hP : ∀ (m : Recovering) leased, P m → P { m with leased := leased })
    (hbody : ∀ token, Recovers (fun m => m.Early ∧ m.leased = true ∧ P m) (body token)
      fun _ _ => True) :
    Recovers (fun m => m.Early ∧ P m) (runtime.lease execution owner method body)
      fun _ _ => True := by
  have hmark : Code.Only Recovering.Unseen (Code.mark (.leasing method)) :=
    Code.only_mark ⟨fun _ => trivial, trivial, fun _ _ => rfl⟩
  refine (unseen_recovers hmark).bind fun _ => ?_
  have hacquire : Recovers (fun m => m.Early ∧ P m)
      (execution.store.acquire execution.branchId owner runtime.leaseTtl)
      fun (token : Int) m => m.Early ∧ (token ≠ 0 → m.leased = true) ∧ P m := by
    refine Code.Watched.ledger (fun m hm => hm.1.allows_iff.mpr trivial)
      (fun m hm (token : Int) => ?_) fun _ _ _ => trivial
    -- A token other than zero is the lease.
    obtain ⟨read, leased, parked, placed, start⟩ := m
    obtain ⟨rfl, hpre⟩ := hm
    refine ⟨rfl, fun hne => ?_, hP _ _ hpre⟩
    show (leased || decide (token ≠ 0)) = true
    rw [decide_eq_true hne, Bool.or_true]
  refine hacquire.bind fun (token : Int) => ?_
  refine Code.Watched.ite (fun _ => Code.Watched.throw fun _ _ => trivial) fun hne => ?_
  have hrelease : Code.Only Recovering.Unseen
      (execution.store.release execution.branchId owner) :=
    Code.only_ledger ⟨fun _ => trivial, trivial, fun _ r => by cases r <;> rfl⟩
  -- The release ends either way, and is not seen.
  refine Code.Watched.finally_ ((hbody token).pre fun m hm => ⟨hm.1, hm.2.1 hne, hm.2.2⟩)
    (fun _ => unseen_recovers hrelease) fun _ => unseen_recovers hrelease

/-- `recover`. -/
theorem recover_recovers (htranscript : runtime.transcript = true) {history : List Message} :
    Recovers (fun m => m.Early ∧ m.read = history)
      (runtime.recover execution owner options history) fun _ _ => True :=
  lease_recovers (fun _ _ h => h) fun _ => recoverUnderLease_recovers htranscript

/-- `run`, without a prompt. -/
theorem rerun_recovers (htranscript : runtime.transcript = true) :
    Recovers Recovering.Early (runtime.run execution owner options {}) fun _ _ => True := by
  have hannounced : Code.Only Recovering.Unseen
      (AgentRuntime.announceParked execution none none) := Code.only_pure _
  refine (unseen_recovers hannounced).bind fun _ => ?_
  refine (lease_recovers (P := fun _ => True) (fun _ _ h => h) fun token => ?_).pre
    fun m hm => ⟨hm, trivial⟩
  refine (attempt_recovers htranscript).mono (fun m hm => ⟨hm.1, hm.2.1, fun _ h => by cases h⟩)
    (fun _ _ _ => trivial) fun _ _ _ => trivial

/-- `state`: only what is parked is looked at. -/
theorem state_recovers :
    Recovers Recovering.Early (runtime.state execution) fun _ => Recovering.Early := by
  have hactive : Recovers (fun m => m.Early ∧ True) (AgentRuntime.active execution)
      fun found m => m.Early ∧ m.parked = found ∧ True := active_recovers fun _ _ h => h
  refine (hactive.pre fun m hm => ⟨hm, trivial⟩).bind fun found => ?_
  cases found with
  | some active => exact Code.Watched.pure fun m hm => hm.1
  | none =>
    refine Code.Watched.ite (fun _ => Code.Watched.pure fun m hm => hm.1) fun _ => ?_
    have hrecord : Code.Only Recovering.Unseen
        (Code.ask (α := Option Bool) (.transcript (.readBranch execution.branchId))) :=
      Code.only_ask rfl ⟨fun _ => trivial, trivial, fun _ r => by cases r <;> rfl⟩
    refine ((unseen_recovers hrecord).pre fun m hm => hm.1).bind fun record => ?_
    exact Code.Watched.pure fun m hm => hm

/-- **`dispatch`** of `Recover`. -/
theorem dispatch_recovers :
    Recovers Recovering.Early (runtime.dispatch execution owner options .recover)
      fun _ _ => True := by
  by_cases htranscript : runtime.transcript = true
  · rw [AgentRuntime.dispatch_recover_eq htranscript]
    -- The history is read before any lease: what is read is noted.
    have hhistory : Recovers Recovering.Early (runtime.committedHistory execution)
        fun history m => m.Early ∧ m.read = history := by
      refine Code.Watched.ite (fun _ => Code.Watched.throw fun _ _ => trivial) fun _ => ?_
      refine Code.Watched.ask rfl (fun m hm => Recovering.Early.allows_iff hm |>.mpr trivial)
        fun m hm r => ?_
      obtain ⟨read, leased, parked, placed, start⟩ := m
      obtain rfl : start = none := hm
      cases r with
      | error e => trivial
      | ok messages => exact ⟨rfl, rfl⟩
    refine state_recovers.bind fun state => ?_
    -- Parked, the branch is recovered; interrupted, it is run again; else no row takes the command.
    refine Code.Watched.ite (fun _ => ?_) fun _ => Code.Watched.ite (fun _ => ?_) fun _ =>
      Code.Watched.throw fun _ _ => trivial
    · refine hhistory.bind fun history => ?_
      exact (recover_recovers htranscript).bind fun _ => Code.Watched.pure fun _ _ => trivial
    · exact (rerun_recovers htranscript).bind fun _ => Code.Watched.pure fun _ _ => trivial
  · unfold AgentRuntime.dispatch
    rw [if_pos htranscript]
    exact Code.Watched.throw fun _ _ => trivial

end recovers

/-! ## Section 2: What the attempt keeps -/

section keeps

variable {S C : Type} [PythonScalar S]

/-- The event takes a lease. -/
def TakesLease (e : Code.Event C) : Prop :=
  ∃ b owner ttl, ∃ token : Int, token ≠ 0 ∧ e.did (.ledger (.acquire b owner ttl)) (.ok token)

/-- What thread `i` was answered. -/
def recoveringAt (i : Nat) (log : List (Code.Event C)) : Recovering := recovering.seen {} i log

/-- Before its lease a thread has no branch, and has started nothing. -/
structure Unleased (i : Nat) (t : TranscriptState S) (m : Recovering) : Prop where
  branch : t.branches i = none
  leased : m.leased = false
  placed : m.placed = none
  start : m.start = none

/-- What was active in an earlier log is upheld by thread `i`: it lies on the thread's branch, at
    the beginning of what that was opened or replaced with, and of what the agent's run was
    started with. -/
structure Upheld (outside : Outside S Message) (earlier : Log S) (conversation : String) (i : Nat)
    (t : TranscriptState S) (m : Recovering) : Prop where
  onBranch : OnBranch earlier conversation i t
  placed : m.start = none → ∀ b, t.branches i = some b →
    b.writer.conversationId = conversation → ∀ messages ∈ m.placed,
      FirstOf outside (messagesOf outside (earlier.entries conversation)) messages
  start : ∀ start ∈ m.start, ∀ b, t.branches i = some b →
    b.writer.conversationId = conversation →
      FirstOf outside (messagesOf outside (earlier.entries conversation)) (start.history.getD [])

variable {outside : Outside S Message} (time : Nat → String) {t : TranscriptState S}
  {m : Recovering} {i : Nat} {earlier : Log S} {conversation : String}

theorem Unleased.upheld (h : Unleased i t m) : Upheld outside earlier conversation i t m where
  onBranch b hb _ := by
    rw [h.branch] at hb
    cases hb
  placed _ b hb _ := by
    rw [h.branch] at hb
    cases hb
  start start hstart := by
    rw [h.start] at hstart
    cases hstart

/-- An operation that neither opens nor replaces a branch, nor starts the agent. -/
def Places : Op → Bool
  | .ext (.transcript (.openBranch ..)) => true
  | .ext (.transcript (.replace _)) => true
  | .ext (.mark (.agentRun ..)) => true
  | _ => false

theorem next_of_not_places {o : Op} (ho : Places o = false) (r : o.Reply) :
    (recovering.next m o r).placed = m.placed ∧ (recovering.next m o r).start = m.start := by
  show (if m.start.isSome then m else m.answered o r).placed = _ ∧
    (if m.start.isSome then m else m.answered o r).start = _
  -- Past the start the monitor stays as it is; before it only three operations set either field.
  split
  · exact ⟨rfl, rfl⟩
  · cases o with
    | ledger op =>
      cases op with
      | read b key =>
        cases r with
        | error e => exact ⟨rfl, rfl⟩
        | ok step =>
          show (if key = activeSuspension then _ else m).placed = _ ∧
            (if key = activeSuspension then _ else m).start = _
          split <;> exact ⟨rfl, rfl⟩
      | _ => cases r <;> exact ⟨rfl, rfl⟩
    | ext e =>
      cases e with
      | transcript op =>
        cases op with
        | openBranch c b => cases ho
        | replace messages => cases ho
        | read c cursor => cases cursor <;> cases r <;> exact ⟨rfl, rfl⟩
        | _ => cases r <;> exact ⟨rfl, rfl⟩
      | mark mk =>
        cases mk with
        | agentRun token start => cases ho
        | _ => exact ⟨rfl, rfl⟩
      | _ => exact ⟨rfl, rfl⟩

theorem next_replace (messages : List Message)
    (r : Op.Reply (.ext (.transcript (.replace messages)))) :
    let m' := recovering.next m (.ext (.transcript (.replace messages))) r
    (m'.placed = m.placed ∨ m'.placed = some messages) ∧ m'.start = m.start := by
  obtain ⟨read, leased, parked, placed, run⟩ := m
  cases run with
  | some run => exact ⟨Or.inl rfl, rfl⟩
  | none => cases r with
    | error e => exact ⟨Or.inl rfl, rfl⟩
    | ok _ => exact ⟨Or.inr rfl, rfl⟩

/-- What does not concern the thread. -/
theorem Upheld.same (h : Upheld outside earlier conversation i t m) {t' : TranscriptState S}
    {m' : Recovering} (hbranch : t'.branches i = t.branches i)
    (hfields : m'.placed = m.placed ∧ m'.start = m.start) :
    Upheld outside earlier conversation i t' m' where
  onBranch b hb := h.onBranch b (hbranch ▸ hb)
  placed hstart b hb hconversation messages hmem :=
    h.placed (hfields.2 ▸ hstart) b (hbranch ▸ hb) hconversation messages (hfields.1 ▸ hmem)
  start start hstart b hb := h.start start (hfields.2 ▸ hstart) b (hbranch ▸ hb)

/-- The agent is started with what the branch holds. -/
theorem Upheld.started (h : Upheld outside earlier conversation i t m) {token : Int}
    {start : RunStart} (hallowed : recovering.allows m (.ext (.mark (.agentRun token start)))) :
    Upheld outside earlier conversation i t
      (recovering.next m (.ext (.mark (.agentRun token start))) ()) := by
  obtain ⟨read, leased, parked, placed, run⟩ := m
  cases run with
  | some run => cases hallowed
  | none =>
    obtain ⟨_, hplaced⟩ := hallowed
    refine ⟨h.onBranch, fun hnone => ?_, fun run hrun b hb hconversation => ?_⟩
    · cases hnone
    · obtain rfl := Option.some.inj hrun
      exact h.placed rfl b hb hconversation _ hplaced

variable (hfree : CollisionFree outside) (htimes : Function.Injective outside.markerTime)
  (hdecode : ∀ m, outside.encode (outside.decode (outside.encode m)) = outside.encode m)
  (hsound : t.Sound outside) (hearlier : WellKept outside earlier) (hgrows : Grows earlier t.log)

include hsound

include hfree htimes in
/-- `append` goes on from what is upheld. -/
theorem Upheld.appended (h : Upheld outside earlier conversation i t m) (messages : List Message)
    (r : Op.Reply (.ext (.transcript (.append messages)))) :
    let t' := (t.perform outside time i (.append messages)).2
    Upheld outside earlier conversation i t'
        (recovering.next m (.ext (.transcript (.append messages))) r) ∧
      (activeUuids earlier conversation <+: activeUuids t.log conversation →
        activeUuids earlier conversation <+: activeUuids t'.log conversation) := by
  intro t'
  have hfields := next_of_not_places (m := m) (o := .ext (.transcript (.append messages))) rfl r
  -- Without a branch the append fails and changes nothing.
  cases hb : t.branches i with
  | none =>
    have hsame : t' = t := by
      show (t.moved i ((t.branches i).bind _)).2 = t
      rw [hb]
      rfl
    rw [hsame]
    exact ⟨h.same rfl hfields, id⟩
  | some b =>
    obtain ⟨_, hfollows, b', hb', hsame, _, _⟩ :=
      hsound.append time hfree htimes hb messages
    have hon := h.onBranch.append time hfree htimes hsound hb messages
    -- An append only extends the thread's own branch, so what was placed or started from is kept.
    refine ⟨⟨hon, fun hstart b₂ hb₂ hconversation messages hmem => ?_,
      fun start hstart b₂ hb₂ hconversation => ?_⟩, hon.stays hfollows hb'⟩
    · rw [hb'] at hb₂
      obtain rfl := Option.some.inj hb₂
      exact h.placed (hfields.2 ▸ hstart) b hb (hsame ▸ hconversation) messages (hfields.1 ▸ hmem)
    · rw [hb'] at hb₂
      obtain rfl := Option.some.inj hb₂
      exact h.start start (hfields.2 ▸ hstart) b hb (hsame ▸ hconversation)

include hdecode hearlier hgrows

/-- Where it is still active a branch that is opened upholds it. -/
theorem Upheld.opened {conversationId branchId : String}
    (hallowed : recovering.allows m (.ext (.transcript (.openBranch conversationId branchId))))
    (hactive : conversationId = conversation →
      activeUuids earlier conversation <+: activeUuids t.log conversation)
    {r : Op.Reply (.ext (.transcript (.openBranch conversationId branchId)))}
    (hr : r = (t.perform outside time i (.openBranch conversationId branchId)).1) :
    Upheld outside earlier conversation i
      (t.perform outside time i (.openBranch conversationId branchId)).2
      (recovering.next m (.ext (.transcript (.openBranch conversationId branchId))) r) := by
  obtain ⟨_, hlog, b', hb', hconversation, huuids⟩ :=
    hsound.openBranch time i hdecode conversationId branchId
  -- Opening is allowed only before the start.
  obtain ⟨read, leased, parked, placed, run⟩ := m
  cases run with
  | some run => cases hallowed
  | none =>
    subst hr
    refine ⟨fun b hb hb₂ => ?_, fun _ b hb hb₂ messages hmem => ?_, fun run hrun => ?_⟩
    · -- onBranch: the branch opened shows what is active, and that begins with the earlier entries.
      have heq : some b' = some b := hb'.symm.trans hb
      obtain rfl := Option.some.inj heq
      rw [huuids, ← hconversation, hb₂]
      exact hactive (hconversation.symm.trans hb₂)
    · -- placed: what is opened decodes to messages that begin with the earlier ones.
      have heq : some b' = some b := hb'.symm.trans hb
      obtain rfl := Option.some.inj heq
      obtain rfl : messagesOf outside (t.log.entries conversationId) = messages :=
        Option.some.inj hmem
      rw [← hconversation, hb₂]
      have hopened := hsound.kept.open_anchored hdecode conversation branchId
      have hprefix_ : activeUuids earlier conversation
          <+: (Branch.open_ outside t.log conversation branchId).uuids := by
        rw [← hopened.activeUuids_eq]
        exact hactive (hconversation.symm.trans hb₂)
      exact (hopened.anchored.begins hdecode hearlier hgrows hprefix_).2.2
    · cases hrun

include hfree htimes in
/-- A replacement upholds it when the new history begins with it. -/
theorem Upheld.replaced (h : Upheld outside earlier conversation i t m) {messages : List Message}
    (hallowed : recovering.allows m (.ext (.transcript (.replace messages))))
    (hhanded : m.start = none → ∀ b, t.branches i = some b →
      b.writer.conversationId = conversation →
        FirstOf outside (messagesOf outside (earlier.entries conversation)) m.handed)
    (hagent : ∀ start ∈ m.start, FirstOf outside (start.history.getD []) messages)
    {r : Op.Reply (.ext (.transcript (.replace messages)))}
    (hr : r = (t.perform outside time i (.replace messages)).1) :
    let t' := (t.perform outside time i (.replace messages)).2
    Upheld outside earlier conversation i t'
        (recovering.next m (.ext (.transcript (.replace messages))) r) ∧
      (activeUuids earlier conversation <+: activeUuids t.log conversation →
        activeUuids earlier conversation <+: activeUuids t'.log conversation) := by
  intro t'
  -- Without a branch the replacement fails, and the monitor notes nothing.
  cases hb : t.branches i with
  | none =>
    have hmoved : t.perform outside time i (.replace messages) = (.error .indexError, t) := by
      show t.moved i ((t.branches i).bind _) = _
      rw [hb]
      rfl
    have hsame : t' = t := congrArg Prod.snd hmoved
    have hkept : recovering.next m (.ext (.transcript (.replace messages))) r = m := by
      rw [hr, hmoved]
      show (if m.start.isSome then m else m) = m
      exact ite_self m
    rw [hsame, hkept]
    exact ⟨h, id⟩
  | some b =>
    obtain ⟨_, hfollows, b', hb', hconversation, _⟩ :=
      hsound.replace time hfree htimes hb messages
    -- Before the start the messages are the history handed on, after it the agent's: either way
    -- they begin with the earlier ones.
    have hfirst : b.writer.conversationId = conversation →
        FirstOf outside (messagesOf outside (earlier.entries conversation)) messages := by
      intro hours
      cases hstart : m.start with
      | none =>
        have hmessages : messages = m.handed :=
          ((Recovering.Early.allows_iff hstart).mp hallowed).2
        rw [hmessages]
        exact hhanded hstart b hb hours
      | some start => exact (h.start start hstart b hb hours).trans (hagent start hstart)
    -- And a replacement keeps a prefix exactly when the new messages begin with it.
    have hon : OnBranch earlier conversation i t' := by
      intro b₂ hb₂ hours
      have hheld : b.writer.conversationId = conversation := by
        rw [hb'] at hb₂
        obtain rfl := Option.some.inj hb₂
        exact hconversation.symm.trans hours
      exact (h.onBranch.replace_iff time hfree htimes hdecode hsound hearlier hgrows hb
        hheld messages).mpr (hfirst hheld) b₂ hb₂ hours
    have hours : ∀ b₂, t'.branches i = some b₂ → b₂.writer.conversationId = conversation →
        b.writer.conversationId = conversation := by
      intro b₂ hb₂ h₂
      have heq : some b' = some b₂ := hb'.symm.trans hb₂
      obtain rfl := Option.some.inj heq
      exact hconversation.symm.trans h₂
    obtain ⟨hplaced, hstart⟩ := next_replace (m := m) messages r
    refine ⟨⟨hon, fun hnone b₂ hb₂ h₂ held hmem => ?_, fun start hmem b₂ hb₂ h₂ => ?_⟩,
      hon.stays hfollows hb'⟩
    · -- What is placed is as before, or is what was just put there.
      rcases hplaced with hplaced | hplaced
      · exact h.placed (hstart ▸ hnone) b hb (hours b₂ hb₂ h₂) held (hplaced ▸ hmem)
      · obtain rfl : messages = held := Option.some.inj (hplaced.symm.trans hmem)
        exact hfirst (hours b₂ hb₂ h₂)
    · exact h.start start (hstart ▸ hmem) b hb (hours b₂ hb₂ h₂)

end keeps

/-! ## Section 3: Over a run -/

section events

variable {S C : Type} [PythonScalar S]

/-- Where a recovering thread keeps what was active in an earlier log: a branch is opened while it
    is still active; the history handed on begins with its messages; and what the agent's run
    leaves begins with what it was started with. The first two are about what the thread was told
    before the operation, the last about the agent; none of them says what the operation does to
    the transcript. -/
structure Recovering.Keeps (outside : Outside S Message) (earlier : Log S)
    (conversation : String) (i : Nat)
    (t : TranscriptState S) (m : Recovering) (o : Op) : Prop where
  opened : ∀ branchId, o = .ext (.transcript (.openBranch conversation branchId)) →
    activeUuids earlier conversation <+: activeUuids t.log conversation
  handed : ∀ messages, o = .ext (.transcript (.replace messages)) → m.start = none →
    ∀ b, t.branches i = some b → b.writer.conversationId = conversation →
      FirstOf outside (messagesOf outside (earlier.entries conversation)) m.handed
  agent : ∀ messages, o = .ext (.transcript (.replace messages)) → ∀ start ∈ m.start,
    FirstOf outside (start.history.getD []) messages

/-- What was active in an earlier log is upheld, and stays active where it is. -/
def Stays (outside : Outside S Message) (earlier : Log S) (conversation : String) (i : Nat)
    (t t' : TranscriptState S) (m' : Recovering) : Prop :=
  Upheld outside earlier conversation i t' m' ∧
    (activeUuids earlier conversation <+: activeUuids t.log conversation →
      activeUuids earlier conversation <+: activeUuids t'.log conversation)

variable {outside : Outside S Message} (time : Nat → String) {t : TranscriptState S}
  {m : Recovering} {i : Nat} {earlier : Log S} {conversation : String} {e : Code.Event C}

/-- An operation that leaves the branch and the log as they are. -/
theorem Upheld.still (h : Upheld outside earlier conversation i t m) {t' : TranscriptState S}
    {o : Op} (ho : Places o = false) (r : o.Reply) (hbranch : t'.branches i = t.branches i)
    (hlog : t'.log = t.log) :
    Stays outside earlier conversation i t t' (recovering.next m o r) :=
  ⟨h.same hbranch (next_of_not_places ho r), fun hactive => hlog.symm ▸ hactive⟩

variable (hfree : CollisionFree outside) (htimes : Function.Injective outside.markerTime)
  (hdecode : ∀ m, outside.encode (outside.decode (outside.encode m)) = outside.encode m)

include hfree htimes hdecode

/-- **A step** of the recovering thread. -/
theorem Upheld.event (h : Upheld outside earlier conversation i t m) (hsound : t.Sound outside)
    (hearlier : WellKept outside earlier) (hgrows : Grows earlier t.log) (htid : e.tid = i)
    (hallowed : recovering.allows m e.op)
    (hreplied : ∀ op r, e.did (.ext (.transcript op)) r → r = (t.perform outside time i op).1)
    (hkeeps : Recovering.Keeps outside earlier conversation i t m e.op) :
    Stays outside earlier conversation i t (t.event outside time e)
      (recovering.next m e.op e.reply) := by
  obtain ⟨tid, call, op, r, after⟩ := e
  obtain rfl : tid = i := htid
  cases op with
  -- The ledger moves no branch.
  | ledger op => exact h.still rfl r rfl rfl
  | ext x =>
    cases x with
    | transcript op =>
      have hr : r = (t.perform outside time tid op).1 := hreplied op r rfl
      cases op with
      | openBranch c b =>
        have hlog := (hsound.openBranch time tid hdecode c b).2.1
        refine ⟨Upheld.opened time hdecode hsound hearlier hgrows hallowed (fun hours => ?_) hr,
          fun hactive => hlog.symm ▸ hactive⟩
        subst hours
        exact hkeeps.opened b rfl
      | replace messages =>
        exact h.replaced time hfree htimes hdecode hsound hearlier hgrows hallowed
          (hkeeps.handed messages rfl) (hkeeps.agent messages rfl) hr
      | append messages => exact h.appended time hfree htimes hsound messages r
      | closed reason toolCalls =>
        -- Closing writes a marker for the run and no message.
        have hclosed : (t.event outside time
            ⟨tid, call, .ext (.transcript (.closed reason toolCalls)), r, after⟩)
            = ((t.branches tid).map fun branch => t.closed time branch reason toolCalls).getD t :=
          rfl
        rw [hclosed]
        cases t.branches tid with
        | none => exact h.still rfl r rfl rfl
        | some branch => exact h.still rfl r rfl rfl
      | readBranch branchId => exact h.still rfl r rfl rfl
      | read c cursor => cases cursor <;> exact h.still rfl r rfl rfl
    | mark mk =>
      cases mk with
      | agentRun token start => exact ⟨h.started hallowed, id⟩
      | _ => exact h.still rfl r rfl rfl
    | _ => exact h.still rfl r rfl rfl

/-- **A step of others**. -/
theorem Upheld.others (h : Upheld outside earlier conversation i t m) (hsound : t.Sound outside)
    (htid : e.tid ≠ i) : Upheld outside earlier conversation i (t.event outside time e) m :=
  h.same ((hsound.event time hfree htimes hdecode e).others i (Ne.symm htid)) ⟨rfl, rfl⟩

omit hfree htimes hdecode

/-- What grants no lease leaves the thread without one. -/
theorem next_leased {o : Op} {r : o.Reply} (h : m.leased = false)
    (ho : ∀ b owner ttl, ∀ token : Int,
      (⟨o, r⟩ : Prog.Exchange Op.Reply) = ⟨.ledger (.acquire b owner ttl), .ok token⟩ →
        token = 0) : (recovering.next m o r).leased = false := by
  show (if m.start.isSome then m else m.answered o r).leased = false
  split
  · exact h
  · cases o with
    | ledger op =>
      cases op with
      -- Only a token in hand makes `leased` true.
      | acquire b owner ttl =>
        cases r with
        | error e => exact h
        | ok token =>
          obtain rfl : token = (0 : Int) := ho b owner ttl token rfl
          show (m.leased || decide ((0 : Int) ≠ 0)) = false
          rw [h]
          rfl
      | read b key =>
        cases r with
        | error e => exact h
        | ok step =>
          show (if key = activeSuspension then _ else m).leased = false
          split <;> exact h
      | _ => cases r <;> exact h
    | ext x =>
      cases x with
      | transcript op =>
        cases op with
        | read c cursor => cases cursor <;> cases r <;> exact h
        | _ => cases r <;> exact h
      | mark mk => cases mk <;> exact h
      | _ => exact h

/-- A step of a thread that has no lease yet. -/
theorem Unleased.event (h : Unleased i t m) (htid : e.tid = i)
    (hallowed : recovering.allows m e.op) (htakes : ¬ TakesLease e) :
    Unleased i (t.event outside time e) (recovering.next m e.op e.reply) := by
  obtain ⟨tid, call, op, r, after⟩ := e
  obtain rfl : tid = i := htid
  -- No lease yet: the three operations that place something are refused to the thread.
  have hpermits : m.permits op := (Recovering.Early.allows_iff h.start).mp hallowed
  have hleased : (recovering.next m op r).leased = false := by
    refine next_leased h.leased fun b owner ttl token heq => ?_
    by_contra hne
    exact htakes ⟨b, owner, ttl, token, hne, heq⟩
  have hunplaced : Places op = false := by
    by_contra hplaces
    have hnot : m.leased ≠ true := by
      rw [h.leased]
      exact Bool.false_ne_true
    cases op with
    | ledger op => exact hplaces rfl
    | ext x =>
      cases x with
      | transcript op =>
        cases op with
        | openBranch c b => exact hnot hpermits
        | replace messages => exact hnot hpermits.1
        | _ => exact hplaces rfl
      | mark mk =>
        cases mk with
        | agentRun token start => exact hnot hpermits.1
        | _ => exact hplaces rfl
      | _ => exact hplaces rfl
  obtain ⟨hplaced, hstart⟩ := next_of_not_places (m := m) hunplaced r
  refine ⟨?_, hleased, hplaced.trans h.placed, hstart.trans h.start⟩
  -- without a branch nothing that the thread does makes one, but opening it
  cases op with
  | ledger op => exact h.branch
  | ext x =>
    cases x with
    | transcript op =>
      cases op with
      | openBranch c b => cases hunplaced
      | replace messages => cases hunplaced
      | append messages =>
        show (t.moved tid ((t.branches tid).bind _)).2.branches tid = none
        rw [h.branch]
        exact h.branch
      | closed reason toolCalls =>
        show (((t.branches tid).map fun branch =>
          t.closed time branch reason toolCalls).getD t).branches tid = none
        rw [h.branch]
        exact h.branch
      | readBranch branchId => exact h.branch
      | read c cursor => cases cursor <;> exact h.branch
    | _ => exact h.branch

variable {log : List (Code.Event C)}

include hfree htimes hdecode in
/-- **Before its lease** a thread has no branch. -/
theorem unleased_after (hsound : t.Sound outside) (hnone : t.branches i = none)
    (hallowed : Allowed recovering {} i log) (hno : ∀ e ∈ log, e.tid = i → ¬ TakesLease e) :
    Unleased i (t.after outside time log) (recoveringAt i log) := by
  induction log using List.reverseRecOn with
  | nil => exact ⟨hnone, rfl, rfl, rfl⟩
  | append_singleton log e ih =>
    obtain ⟨hbefore, hlast⟩ := always_concat.mp hallowed
    have hunleased := ih hbefore fun d hd => hno d (List.mem_append_left _ hd)
    unfold recoveringAt
    rw [TranscriptState.after_concat, Monitor.seen_concat]
    by_cases htid : e.tid = i
    · rw [if_pos htid]
      exact hunleased.event time htid (hlast htid) (hno e (by simp) htid)
    · rw [if_neg htid]
      have hsound' := (hsound.after time hfree htimes hdecode log).1
      have hbranch := (hsound'.event time hfree htimes hdecode e).others i (Ne.symm htid)
      exact ⟨hbranch.trans hunleased.branch, hunleased.leased, hunleased.placed, hunleased.start⟩

end events

section runs

variable {S : Type} [PythonScalar S] {outside : Outside S Message} (time : Nat → String)
  {t : TranscriptState S} {owners : Owners} {execution : ExecutionContext}

/-- Event `d` is where a thread that dispatches `Recover` takes its lease. -/
structure LeasesToRecover (log pre : List (Code.Event (Worker execution.filedName)))
    (d : Code.Event (Worker execution.filedName))
    (post : List (Code.Event (Worker execution.filedName))) : Prop where
  split : log = pre ++ d :: post
  takes : TakesLease d
  first : ∀ e ∈ pre, e.tid = d.tid → ¬ TakesLease e
  recovers : ∃ runtime options, d.call = ⟨runtime, .dispatch options .recover⟩

variable {schedule : List (Action (Worker execution.filedName) Env)}

/-- A thread that dispatches `Recover` does what a recovering thread does. -/
theorem LeasesToRecover.allowed {pre post : List (Code.Event (Worker execution.filedName))}
    {d : Code.Event (Worker execution.filedName)}
    (h : LeasesToRecover (branchLog owners execution schedule) pre d post) :
    Allowed recovering {} d.tid (branchLog owners execution schedule) := by
  obtain ⟨runtime, options, hcall⟩ := h.recovers
  have hmem : d ∈ branchLog owners execution schedule := by
    rw [h.split]
    exact List.mem_append_right _ List.mem_cons_self
  have hserve : Recovers Recovering.Early
      (serve owners execution d.tid ⟨runtime, .dispatch options .recover⟩) fun _ _ => True :=
    dispatch_recovers.bind fun _ => Code.Watched.pure fun _ _ => trivial
  have hbody : ((branchWorkers owners execution).body d.tid
      ⟨runtime, .dispatch options .recover⟩).Obeys recovering (fun _ _ => True) {} := by
    refine Prog.Obeys.mono ?_ (hserve {} rfl)
    exact fun _ _ _ => trivial
  exact allowed_after hbody _ schedule hmem rfl hcall

variable {pre post : List (Code.Event (Worker execution.filedName))}
  {d : Code.Event (Worker execution.filedName)} {conversation : String}

/-- The thread keeps what was active when it took its lease, at every event up to some point. -/
def KeepsUpTo (outside : Outside S Message) (time : Nat → String) (t : TranscriptState S)
    (conversation : String) (pre : List (Code.Event (Worker execution.filedName)))
    (d : Code.Event (Worker execution.filedName))
    (post : List (Code.Event (Worker execution.filedName))) : Prop :=
  ∀ mid e rest, post = mid ++ e :: rest → e.tid = d.tid →
    Recovering.Keeps outside (t.after outside time pre).log conversation d.tid
      (t.after outside time (pre ++ d :: mid)) (recoveringAt d.tid (pre ++ d :: mid)) e.op

theorem concat_after (mid : List (Code.Event (Worker execution.filedName)))
    (e : Code.Event (Worker execution.filedName)) :
    pre ++ d :: (mid ++ [e]) = (pre ++ d :: mid) ++ [e] := by simp

variable (hfree : CollisionFree outside) (htimes : Function.Injective outside.markerTime)
  (hdecode : ∀ m, outside.encode (outside.decode (outside.encode m)) = outside.encode m)
  (hsound : t.Sound outside)

include hfree htimes hdecode hsound

/-- What was active at the lease is still stored. -/
theorem grows_since_lease (mid : List (Code.Event (Worker execution.filedName))) :
    Grows (t.after outside time pre).log (t.after outside time (pre ++ d :: mid)).log := by
  have hpre := (hsound.after time hfree htimes hdecode pre).1
  unfold TranscriptState.after
  rw [List.foldl_append]
  exact (hpre.after time hfree htimes hdecode (d :: mid)).2

/-- **From its lease on** the thread upholds what was active there. -/
theorem upheld_since_lease (hnone : ∀ tid, t.branches tid = none)
    (hreplied : t.Replied outside time (pre ++ d :: post))
    (hallowed : Allowed recovering {} d.tid (pre ++ d :: post)) (htakes : TakesLease d)
    (hno : ∀ e ∈ pre, e.tid = d.tid → ¬ TakesLease e)
    (hkeeps : KeepsUpTo outside time t conversation pre d post) :
    Upheld outside (t.after outside time pre).log conversation d.tid
      (t.after outside time (pre ++ d :: post)) (recoveringAt d.tid (pre ++ d :: post)) := by
  induction post using List.reverseRecOn with
  -- Up to the lease the thread has no branch, so there is nothing to uphold.
  | nil =>
    obtain ⟨b, owner, ttl, token, _, hdid⟩ := htakes
    have hbefore : Allowed recovering {} d.tid pre := (always_concat.mp hallowed).1
    have hunleased := unleased_after time hfree htimes hdecode hsound (hnone d.tid)
      hbefore hno
    unfold recoveringAt
    rw [TranscriptState.after_concat, Monitor.seen_concat, if_pos rfl]
    obtain ⟨tid, call, op, r, after⟩ := d
    obtain rfl : op = .ledger (.acquire b owner ttl) := Event.op_of_did hdid
    exact (hunleased.upheld.still rfl r rfl rfl).1
  -- One more event: the thread's own is a step of the monitor, another's grows the log.
  | append_singleton mid e ih =>
    rw [concat_after] at hreplied hallowed ⊢
    obtain ⟨hbefore, hlast⟩ := always_concat.mp hallowed
    obtain ⟨hanswered, hanswer⟩ := always_concat.mp hreplied
    have hupheld := ih hanswered hbefore fun mid' e' rest hsplit =>
      hkeeps mid' e' (rest ++ [e]) (by rw [hsplit]; simp)
    have hsound' := (hsound.after time hfree htimes hdecode (pre ++ d :: mid)).1
    unfold recoveringAt
    rw [TranscriptState.after_concat, Monitor.seen_concat]
    by_cases htid : e.tid = d.tid
    · rw [if_pos htid]
      have hearlier := (hsound.after time hfree htimes hdecode pre).1.kept
      exact (hupheld.event time hfree htimes hdecode hsound' hearlier
        (grows_since_lease time hfree htimes hdecode hsound mid) htid (hlast htid)
        (fun op r hdid => htid ▸ hanswer op r hdid) (hkeeps mid e [] rfl htid)).1
    · rw [if_neg htid]
      exact hupheld.others time hfree htimes hdecode hsound' htid

omit hfree htimes hdecode hsound

/-- No event of the thread takes from the active branch what was active when the thread took its
    lease. -/
def RewindsNothing (outside : Outside S Message) (time : Nat → String) (t : TranscriptState S)
    (conversation : String) (pre : List (Code.Event (Worker execution.filedName)))
    (d : Code.Event (Worker execution.filedName))
    (post : List (Code.Event (Worker execution.filedName))) : Prop :=
  let active := fun log => activeUuids (t.after outside time log).log conversation
  ∀ mid e rest, post = mid ++ e :: rest → e.tid = d.tid →
    active pre <+: active (pre ++ d :: mid) → active pre <+: active (pre ++ d :: (mid ++ [e]))

/-- **`Recover` rewinds no newer work** in every run in which, at each of its operations, the
    thread keeps what was active when it took its lease. The command reads the history before it
    takes the lease, and the attempt then makes it the history of the branch; what others commit in
    between is kept where a round is found parked under the lease, whose snapshot holds it, and
    rewound where none is (`recover_rewinds`).

    The transcript's own hypotheses are those of its other results: identifiers do not collide,
    markers differ by their time, and a message that is read and written again is the same. It is
    sound and open on no branch before the run, and answers as it stands. -/
theorem recover_keeps_newer (owners : Owners) (execution : ExecutionContext)
    (schedule : List (Action (Worker execution.filedName) Env)) (outside : Outside S Message)
    (hfree : CollisionFree outside) (htimes : Function.Injective outside.markerTime)
    (hdecode : ∀ m, outside.encode (outside.decode (outside.encode m)) = outside.encode m)
    (time : Nat → String) (t : TranscriptState S) (hsound : t.Sound outside)
    (hnone : ∀ tid, t.branches tid = none)
    (hreplied : t.Replied outside time (branchLog owners execution schedule))
    (pre post : List (Code.Event (Worker execution.filedName)))
    (d : Code.Event (Worker execution.filedName))
    (hleases : LeasesToRecover (branchLog owners execution schedule) pre d post)
    (conversation : String) (hkeeps : KeepsUpTo outside time t conversation pre d post) :
    RewindsNothing outside time t conversation pre d post := by
  intro mid e rest hsplit htid hactive
  -- The event in question is the last of a prefix of the log; all before it is known to be upheld.
  have hlog : branchLog owners execution schedule = (pre ++ d :: mid) ++ e :: rest := by
    rw [hleases.split, hsplit]
    simp
  have hallowed := hleases.allowed
  rw [hlog] at hallowed hreplied
  have hsofar : Allowed recovering {} d.tid (pre ++ d :: mid) := by
    have htake := hallowed.take (pre ++ d :: mid).length
    rwa [List.take_left] at htake
  have hanswered : t.Replied outside time (pre ++ d :: mid) := by
    have htake := Always.take hreplied (pre ++ d :: mid).length
    rwa [List.take_left] at htake
  have hupheld := upheld_since_lease time hfree htimes hdecode hsound hnone hanswered hsofar
    hleases.takes hleases.first fun mid' e' rest' hsplit' =>
      hkeeps mid' e' (rest' ++ e :: rest) (by rw [hsplit, hsplit']; simp)
  have hsound' := (hsound.after time hfree htimes hdecode (pre ++ d :: mid)).1
  have hearlier := (hsound.after time hfree htimes hdecode pre).1.kept
  show activeUuids _ conversation <+: activeUuids _ conversation
  rw [concat_after, TranscriptState.after_concat]
  refine (hupheld.event time hfree htimes hdecode hsound' hearlier
    (grows_since_lease time hfree htimes hdecode hsound mid) htid (hallowed.split htid)
      (fun op r hdid => ?_)
    (hkeeps mid e rest hsplit htid)).2 hactive
  exact htid ▸ Always.split hreplied op r hdid

end runs

/-! Whether a run rewinds can be computed. -/

section computed

variable {S C : Type} [PythonScalar S] (outside : Outside S Message) (time : Nat → String)
  (t : TranscriptState S) (conversation : String)

/-- Whether a token is granted. -/
def isToken (token : Int) : Bool := token ≠ 0

theorem isToken_iff {token : Int} : isToken token = true ↔ token ≠ 0 := decide_eq_true_iff

/-- Whether an exchange takes a lease. -/
def takes : (o : Op) → o.Reply → Bool
  | .ledger (.acquire ..), .ok token => isToken token
  | _, _ => false

theorem takes_iff {e : Code.Event C} : TakesLease e ↔ takes e.op e.reply = true := by
  obtain ⟨tid, call, op, r, after⟩ := e
  constructor
  · rintro ⟨b, owner, ttl, token, hne, hdid⟩
    obtain rfl : op = .ledger (.acquire b owner ttl) := Event.op_of_did hdid
    cases hdid
    exact isToken_iff.mpr hne
  · intro h
    cases op with
    | ledger op =>
      cases op with
      | acquire b owner ttl =>
        cases r with
        | error e => cases h
        | ok token => exact ⟨b, owner, ttl, token, isToken_iff.mp h, rfl⟩
      | _ => cases r <;> cases h
    | ext x => cases h

/-- Whether the worker dispatches `Recover`. -/
def Worker.dispatchesRecover {b : String} (worker : Worker b) : Bool :=
  match worker.request with
  | .dispatch _ .recover => true
  | _ => false

theorem Worker.dispatchesRecover_iff {b : String} {worker : Worker b}
    (h : worker.dispatchesRecover = true) :
    ∃ runtime options, worker = ⟨runtime, .dispatch options .recover⟩ := by
  obtain ⟨runtime, request⟩ := worker
  cases request with
  | dispatch options command =>
    cases command with
    | recover => exact ⟨runtime, options, rfl⟩
    | _ => cases h
  | _ => cases h

/-- Whether the `k`-th event is where a thread that dispatches `Recover` takes its lease. -/
def leasesAt {b : String} (log : List (Code.Event (Worker b))) (k : Nat) : Bool :=
  (log[k]?).any fun d => d.call.dispatchesRecover && takes d.op d.reply &&
    (log.take k).all fun e => decide (e.tid ≠ d.tid) || !takes e.op e.reply

/-- The active branch after the first `n` events. -/
def activeAt (log : List (Code.Event C)) (n : Nat) : List String :=
  activeUuids (t.after outside time (log.take n)).log conversation

/-- Whether the `j`-th event, of the thread of the `k`-th, takes away what was active at the
    `k`-th. -/
def rewindsAt (log : List (Code.Event C)) (k j : Nat) : Bool :=
  decide (k < j) && (log[k]?).any (fun d => (log[j]?).any fun e => decide (e.tid = d.tid)) &&
    (activeAt outside time t conversation log k).isPrefixOf
      (activeAt outside time t conversation log j) &&
    !(activeAt outside time t conversation log k).isPrefixOf
      (activeAt outside time t conversation log (j + 1))

instance (outside : Outside S Message) (m m' : Message) :
    Decidable (SameMessage outside m m') := inferInstanceAs (Decidable (_ = true))

instance (outside : Outside S Message) (first history : List Message) :
    Decidable (FirstOf outside first history) := inferInstanceAs (Decidable (List.Forall₂ _ _ _))

/-- Whether an operation of thread `i` keeps what was active in an earlier log. -/
def Recovering.keepsNow (earlier : Log S) (i : Nat) (m : Recovering) : Op → Bool
  | .ext (.transcript (.openBranch c _)) => decide (c ≠ conversation) ||
      (activeUuids earlier conversation).isPrefixOf (activeUuids t.log conversation)
  | .ext (.transcript (.replace messages)) =>
    match m.start with
    | none => (t.branches i).all fun b => decide (b.writer.conversationId ≠ conversation) ||
        decide (FirstOf outside (messagesOf outside (earlier.entries conversation)) m.handed)
    | some start => decide (FirstOf outside (start.history.getD []) messages)
  | _ => true

variable {outside t conversation} in
theorem Recovering.keeps_of_keepsNow {earlier : Log S} {i : Nat} {m : Recovering} {o : Op}
    (h : keepsNow outside t conversation earlier i m o = true) :
    Recovering.Keeps outside earlier conversation i t m o where
  opened branchId ho := by
    subst ho
    rcases Bool.or_eq_true_iff.mp h with hother | hactive
    · exact absurd rfl (of_decide_eq_true hother)
    · exact List.isPrefixOf_iff_prefix.mp hactive
  handed messages ho hstart b hb hours := by
    subst ho
    unfold keepsNow at h
    dsimp only at h
    rw [hstart, hb] at h
    rcases Bool.or_eq_true_iff.mp h with hother | hfirst
    · exact absurd hours (of_decide_eq_true hother)
    · exact of_decide_eq_true hfirst
  agent messages ho start hstart := by
    subst ho
    unfold keepsNow at h
    dsimp only at h
    rw [Option.mem_def.mp hstart] at h
    exact of_decide_eq_true h

/-- Whether the thread of the `k`-th event keeps what was active there, at each later event. -/
def keepsFrom (log : List (Code.Event C)) (k : Nat) : Bool :=
  (log[k]?).all fun d => (List.range log.length).all fun j =>
    decide (j ≤ k) || (log[j]?).all fun e => decide (e.tid ≠ d.tid) ||
      Recovering.keepsNow outside (t.after outside time (log.take j)) conversation
        (t.after outside time (log.take k)).log d.tid (recoveringAt d.tid (log.take j)) e.op

end computed

section at_index

variable {S : Type} [PythonScalar S] {outside : Outside S Message} (time : Nat → String)
  {t : TranscriptState S} {conversation : String} {execution : ExecutionContext}
  {log : List (Code.Event (Worker execution.filedName))} {k j : Nat}

/-- The log around its `k`-th event. -/
theorem split_at {ε : Type} {log : List ε} {e : ε} (h : log[k]? = some e) :
    log = log.take k ++ e :: log.drop (k + 1) := by
  obtain ⟨hlt, rfl⟩ := List.getElem?_eq_some_iff.mp h
  rw [← List.drop_eq_getElem_cons hlt, List.take_append_drop]

theorem leasesToRecover_of_leasesAt (h : leasesAt log k = true) :
    ∃ d, log[k]? = some d ∧ LeasesToRecover log (log.take k) d (log.drop (k + 1)) := by
  unfold leasesAt at h
  cases hd : log[k]? with
  | none =>
    rw [hd] at h
    cases h
  | some d =>
    rw [hd, Option.any_some, Bool.and_eq_true, Bool.and_eq_true] at h
    obtain ⟨⟨hcall, htakes⟩, hfirst⟩ := h
    refine ⟨d, rfl, split_at hd, takes_iff.mpr htakes, fun e he htid hearlier => ?_,
      Worker.dispatchesRecover_iff hcall⟩
    have hnot := List.all_eq_true.mp hfirst e he
    rw [takes_iff.mp hearlier, htid] at hnot
    simp at hnot

theorem not_rewindsNothing_of_rewindsAt {d : Code.Event (Worker execution.filedName)}
    (hd : log[k]? = some d) (h : rewindsAt outside time t conversation log k j = true) :
    ¬ RewindsNothing outside time t conversation (log.take k) d (log.drop (k + 1)) := by
  unfold rewindsAt at h
  rw [Bool.and_eq_true, Bool.and_eq_true, Bool.and_eq_true, hd, Option.any_some] at h
  obtain ⟨⟨⟨hlt, hthread⟩, hbefore⟩, hafter⟩ := h
  have hlt : k < j := of_decide_eq_true hlt
  intro hnothing
  cases he : log[j]? with
  | none =>
    rw [he] at hthread
    cases hthread
  | some e =>
    rw [he] at hthread
    -- The checked position `j` is one event of the thread after the lease.
    have hsplit : log.drop (k + 1)
        = (log.drop (k + 1)).take (j - (k + 1)) ++
          e :: (log.drop (k + 1)).drop (j - (k + 1) + 1) := by
      refine split_at ?_
      rw [List.getElem?_drop]
      rw [show k + 1 + (j - (k + 1)) = j by omega]
      exact he
    -- What precedes it is the first `j` events of the log.
    have hmid : log.take k ++ d :: (log.drop (k + 1)).take (j - (k + 1)) = log.take j := by
      have htake : log.take (k + 1) = log.take k ++ [d] := by
        rw [List.take_add_one, hd]
        rfl
      have hwhole := (List.take_append_drop (k + 1) (log.take j)).symm
      rw [List.take_take, Nat.min_eq_left hlt, htake, List.drop_take] at hwhole
      rw [hwhole]
      simp
    have hnext := hnothing _ e _ hsplit (of_decide_eq_true hthread)
    dsimp only at hnext
    rw [concat_after, hmid] at hnext
    have hlonger : log.take j ++ [e] = log.take (j + 1) := by
      rw [List.take_add_one, he]
      rfl
    rw [hlonger] at hnext
    -- So the property would keep the active entries where the check has found them gone.
    have hkept := hnext (List.isPrefixOf_iff_prefix.mp hbefore)
    have hyes : (activeAt outside time t conversation log k).isPrefixOf
        (activeAt outside time t conversation log (j + 1)) = true :=
      List.isPrefixOf_iff_prefix.mpr hkept
    rw [hyes] at hafter
    cases hafter

theorem keepsUpTo_of_keepsFrom {d : Code.Event (Worker execution.filedName)}
    (hd : log[k]? = some d) (h : keepsFrom outside time t conversation log k = true) :
    KeepsUpTo outside time t conversation (log.take k) d (log.drop (k + 1)) := by
  unfold keepsFrom at h
  rw [hd, Option.all_some] at h
  intro mid e rest hsplit htid
  have hlog : log = (log.take k ++ d :: mid) ++ e :: rest := by
    have hwhole := split_at hd
    rw [hsplit] at hwhole
    rw [List.append_assoc, List.cons_append]
    exact hwhole
  -- `j` is the position of the event, and the check was made at every position after `k`.
  let j := (log.take k ++ d :: mid).length
  have hbefore : log.take j = log.take k ++ d :: mid := by
    have htake := congrArg (List.take j) hlog
    rwa [List.take_left] at htake
  have he : log[j]? = some e := by
    have hget : log[j]? = ((log.take k ++ d :: mid) ++ e :: rest)[j]? :=
      congrArg (fun l => l[j]?) hlog
    rw [hget, List.getElem?_append_right (Nat.le_refl _), Nat.sub_self]
    rfl
  have hlt : j < log.length := (List.getElem?_eq_some_iff.mp he).1
  have hlater : ¬ j ≤ k := by
    have hk : (log.take k).length = k :=
      List.length_take_of_le (Nat.le_of_lt (List.getElem?_eq_some_iff.mp hd).1)
    show ¬ (log.take k ++ d :: mid).length ≤ k
    rw [List.length_append, hk, List.length_cons]
    omega
  have hchecked := List.all_eq_true.mp h j (List.mem_range.mpr hlt)
  rw [he, Option.all_some, hbefore, decide_eq_false hlater, Bool.false_or] at hchecked
  rcases Bool.or_eq_true_iff.mp hchecked with hother | hkeeps
  · exact absurd htid (of_decide_eq_true hother)
  · exact Recovering.keeps_of_keepsNow hkeeps

end at_index

/-! A worker is told to recover a parked branch, and has read its history when another resumes the
    branch and completes it. -/

section recovered_late

/-- A schedule over a transcript that is empty. -/
def recorded (schedule : List (Action (Worker mailBranch.filedName) Env)) :
    List (Action (Worker mailBranch.filedName) Env) :=
  overTranscript (fun i worker => (serve ownerNames mailBranch i worker).run) messageOutside
    Nat.repr ({} : TranscriptState PyScalar) { hist := ⟨.init, []⟩ } schedule

/-- What is answered over the empty transcript is what it answers. -/
theorem replied_recorded (schedule : List (Action (Worker mailBranch.filedName) Env)) :
    ({} : TranscriptState PyScalar).Replied messageOutside Nat.repr
      (branchLog ownerNames mailBranch (recorded schedule)) := by
  have hnothing : ({} : TranscriptState PyScalar).Replied messageOutside Nat.repr
      ([] : List (Code.Event (Worker mailBranch.filedName))) := always_nil
  exact replied_overTranscript _ rfl hnothing schedule

theorem message_collisionFree : CollisionFree messageOutside where
  injective := plain_collisionFree.injective
  nonempty := plain_collisionFree.nonempty

theorem message_times : Function.Injective messageOutside.markerTime :=
  fun _ _ heq => PyScalar.natRepr_injective heq

/-- An empty transcript, with no branch open. -/
theorem sound_empty : ({} : TranscriptState PyScalar).Sound messageOutside :=
  ⟨wellKept_empty, fun _ _ hb => (by cases hb)⟩

/-- The second worker reads what is committed; the third finishes the round; then the second takes
    the lease, and opens a branch with what it has read. -/
def recoveredLate : List (Action (Worker mailBranch.filedName) Env) :=
  recorded (.begin ⟨recordingRuntime, .run mailOptions { prompt := some "go" }⟩ ::
    works 0 20 (outside 0 (asksFor mailTool ["c"]) .continue) ++
  .begin ⟨recordingRuntime, .dispatch mailOptions .recover⟩ ::
    works 1 3 (outside 1 (tells "sent") .continue) ++
  .begin ⟨recordingRuntime, .resume mailOptions "c" { type := some "approve" }⟩ ::
    works 2 37 (outside 2 (tells "sent") .continue) ++
    works 1 5 (outside 3 (tells "sent") .continue))

/-- The round that was finished is no longer active. -/
theorem recover_rewinds :
    let log := branchLog ownerNames mailBranch recoveredLate
    ({} : TranscriptState PyScalar).Replied messageOutside Nat.repr log ∧
    ∃ pre d post, LeasesToRecover log pre d post ∧
      ¬ RewindsNothing messageOutside Nat.repr ({} : TranscriptState PyScalar)
        mailBranch.conversation pre d post := by
  intro log
  refine ⟨replied_recorded _, ?_⟩
  have hleases : leasesAt log 60 = true := by decide +kernel
  have hrewinds : rewindsAt messageOutside Nat.repr ({} : TranscriptState PyScalar)
      mailBranch.conversation log 60 64 = true := by decide +kernel
  obtain ⟨d, hd, hrecovers⟩ := leasesToRecover_of_leasesAt hleases
  exact ⟨_, d, _, hrecovers, not_rewindsNothing_of_rewindsAt Nat.repr hd hrewinds⟩

/-- The second worker reads what is committed; the third resumes the round, and parks the next
    one; the fourth is given its answer and dies. The second takes the lease, and finalizes the
    round that it finds parked with the history of that round, not with what it has read. -/
def recoveredParked : List (Action (Worker mailBranch.filedName) Env) :=
  recorded (.begin ⟨recordingRuntime, .run mailOptions { prompt := some "go" }⟩ ::
    works 0 20 (outside 0 (asksFor mailTool ["c"]) .continue) ++
  .begin ⟨recordingRuntime, .dispatch mailOptions .recover⟩ ::
    works 1 3 (outside 1 (tells "sent") .continue) ++
  .begin ⟨recordingRuntime, .resume mailOptions "c" { type := some "approve" }⟩ ::
    works 2 37 (outside 2 (asksFor mailTool ["d"]) .continue) ++
  .begin ⟨recordingRuntime, .resume mailOptions "d" { type := some "approve" }⟩ ::
    works 3 7 (outside 3 (tells "sent") .continue) ++ .crash 3 ::
    works 1 35 (outside 100 (tells "sent") .continue))

/-- More is active when the lease is taken than was read, and all of it stays active. -/
theorem recover_keeps_newer_parked :
    let log := branchLog ownerNames mailBranch recoveredParked
    ∃ pre d post, LeasesToRecover log pre d post ∧
      (recoveringAt d.tid pre).read.length
        < (activeUuids (({} : TranscriptState PyScalar).after messageOutside Nat.repr pre).log
            mailBranch.conversation).length ∧
      RewindsNothing messageOutside Nat.repr ({} : TranscriptState PyScalar)
        mailBranch.conversation pre d post := by
  intro log
  have hleases : leasesAt log 67 = true := by decide +kernel
  have hwindow : ((log[67]?).any fun d => (recoveringAt d.tid (log.take 67)).read.length
      < (activeAt messageOutside Nat.repr ({} : TranscriptState PyScalar)
          mailBranch.conversation log 67).length) = true := by
    decide +kernel
  have hkeeps : keepsFrom messageOutside Nat.repr ({} : TranscriptState PyScalar)
      mailBranch.conversation log 67 = true := by decide +kernel
  obtain ⟨d, hd, hrecovers⟩ := leasesToRecover_of_leasesAt hleases
  rw [hd, Option.any_some] at hwindow
  refine ⟨_, d, _, hrecovers, of_decide_eq_true hwindow, ?_⟩
  exact recover_keeps_newer ownerNames mailBranch recoveredParked messageOutside
    message_collisionFree message_times (fun m => congrArg Message.toJson m.ofJson_toJson) Nat.repr
    {} sound_empty (fun _ => rfl) (replied_recorded _) _ _ d hrecovers mailBranch.conversation
    (keepsUpTo_of_keepsFrom Nat.repr hd hkeeps)

end recovered_late

end Semora
