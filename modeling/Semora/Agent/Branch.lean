import Semora.Agent.BoundaryOps
import Semora.Agent.Dispatch

/-! # Workers of One Branch

    Any number of workers, each with a runtime of its own, over one ledger
    that starts empty, all asked about the same branch: to run it, to answer
    or recover its parked round, to fork onto it. They renew their leases,
    stall and crash between any two operations.

    This module says what such workers can do to the branch's suspension, and
    proves it of every schedule: each write is an answer, the beginning or the
    end of a finalization, or a park, each made on the suspension that is in
    force. What can be said of parked rounds is read off the log. -/

namespace Semora

open Pool MemorySteps

/-! ## Section 1: Workers -/

/-- What a worker of the branch filed under `b` is asked to do. -/
inductive Request (b : String) where
  | run (options : Options) (args : AttemptArgs)
  | resume (options : Options) (pendingId : String) (answer : Answer)
  | recover (options : Options) (history : List Message)
  | fork (options : Options) (src : ExecutionContext) (at_ : Option String)
      (prompt : Option Json) (history : Option (List Message)) (regate : Bool)
  | submit (item : PendingInput)
  | resolveEffect (callId : String) (resolution : EffectResolution Record)
      (workersStopped : Bool)
  | dispatch (options : Options) (command : Command)
  /-- The renewal task of worker `i`. -/
  | renew (i : Nat)
  /-- A call that is not about the branch's lease or suspension. -/
  | other (op : LedgerOp Record)
      (h : op.branchId ≠ b ∨ (op.owner? = none ∧ activeSuspension ∉ op.keys))

/-- A worker: its runtime, and what it is asked. -/
structure Worker (b : String) where
  runtime : AgentRuntime
  request : Request b

/-- The answer a worker is to route, and the pending id it is for. -/
def Request.answer? {b : String} : Request b → Option (String × Answer)
  | .resume _ pendingId answer => some (pendingId, answer)
  | .dispatch _ (.answer pendingId answer) => some (pendingId, answer)
  | _ => none

/-- The agent a worker drives. -/
def Request.agent? {b : String} : Request b → Option Agent
  | .run options _ => some options.agent
  | .resume options _ _ => some options.agent
  | .recover options _ => some options.agent
  | .fork options _ _ _ _ _ => some options.agent
  | .dispatch options _ => some options.agent
  | _ => none

/-- Code whose result nobody reads. -/
def Code.discard {α : Type} (x : Code α) : Code Unit := x >>= fun _ => pure ()

section pool

variable (owners : Owners) (execution : ExecutionContext)

/-- Worker `i` at what it is asked. -/
def serve (i : Nat) (worker : Worker execution.filedName) : Code Unit :=
  let runtime := worker.runtime
  match worker.request with
  | .run options args => Code.discard (runtime.run execution (owners.name i) options args)
  | .resume options pendingId answer =>
    Code.discard (runtime.resume execution (owners.name i) options pendingId answer)
  | .recover options history =>
    Code.discard (runtime.recover execution (owners.name i) options history)
  | .fork options src at_ prompt history regate =>
    Code.discard (runtime.fork src at_ execution (owners.name i) options prompt history regate)
  | .submit item => Code.discard (AgentRuntime.submit execution item)
  | .resolveEffect callId resolution workersStopped =>
    Code.discard (runtime.resolveEffect execution (owners.name i) callId resolution workersStopped)
  | .dispatch options command =>
    Code.discard (runtime.dispatch execution (owners.name i) options command)
  | .renew j => runtime.renew execution (owners.name j)
  | .other op _ => Code.discard (Code.ledger op)

/-- The workers of a branch. -/
def branchWorkers : System (MemorySteps Record) Env Op.Reply
    fun _ : Worker execution.filedName => Except Raised Unit :=
  Code.system fun i worker => (serve owners execution i worker).run

/-- What a schedule of theirs has carried out, from an empty ledger. -/
def branchLog (schedule : List (Action (Worker execution.filedName) Env)) :
    List (Code.Event (Worker execution.filedName)) :=
  ((branchWorkers owners execution).after { hist := ⟨.init, []⟩ } schedule).hist.log

end pool

/-! ## Section 2: The suspension in the log -/

/-- The suspension is answered. -/
def Suspension.answered (active : Suspension) (callId : String) (answer : Answer) : Suspension :=
  { active with answers := active.answers.set callId answer }

/-- The suspension as its finalization begins. -/
def Suspension.resumed (active : Suspension) : Suspension := { active with state := .resuming }

/-- The parked calls. -/
def Suspension.calls (active : Suspension) : List ToolCall :=
  active.continuation.deferred.approvals

/-- Every parked call has an answer. -/
def Suspension.Decided (active : Suspension) : Prop :=
  ∀ call ∈ active.calls, (active.answers.get? call.toolCallId).isSome

/-- Some parked call was refused. -/
def Suspension.refused (active : Suspension) : Bool :=
  active.calls.any fun call => (active.answers.get? call.toolCallId).any Answer.refuses

/-- The approvals a finalization of the suspension makes of its answers. -/
def Suspension.approvals (active : Suspension) : List (String × Approval) :=
  active.calls.filterMap fun call =>
    (active.answers.get? call.toolCallId).map fun answer => (call.toolCallId, answer.approval)

/-- The call parked under a pending id. -/
def Suspension.callFor (active : Suspension) (pendingId : String) : Option ToolCall :=
  match decodeParked active with
  | .ok parked => byPending parked pendingId
  | .error _ => none

section log

variable {C : Type} (b : String)

/-- The suspension a step holds. -/
def suspensionOf (step : Step Record) : Option Suspension :=
  if step.status = .done then
    match step.value with
    | some (.suspension active) => some active
    | _ => none
  else none

/-- `_active` computes it from the step it reads, but for a marker without a value. -/
theorem active_eq (execution : ExecutionContext) :
    AgentRuntime.active execution = (do
      let step ← execution.store.read execution.branchId activeSuspension
      if step.status = .done ∧ step.value.isNone = true then
        throw (.other "'NoneType' object has no attribute 'get'")
      else pure (suspensionOf step)) := by
  refine congrArg (_ >>= ·) (funext fun step => ?_)
  by_cases hdone : step.status = .done
  · unfold suspensionOf
    cases hvalue : step.value with
    | none => simp [hdone]
    | some value => cases value <;> simp [hdone]
  · simp [suspensionOf, hdone]

/-- The suspension that is in force: what `_active` finds. -/
def live (s : MemorySteps Record) : Option Suspension := suspensionOf (s.entry b activeSuspension)

/-- The ledger a log leads to. -/
def stateAfter (log : List (Code.Event C)) : MemorySteps Record :=
  (log.getLast?.map Event.after).getD .init

/-- An accepted `write_control` of the suspension. -/
def Wrote (active : Suspension) (e : Code.Event C) : Prop :=
  ∃ token, e.did (.ledger (.writeControl b activeSuspension (some (.suspension active)) token))
    (.ok ())

/-- An accepted `write_control` of the completed marker. -/
def Completed (e : Code.Event C) : Prop :=
  ∃ callId callIds token, e.did (.ledger (.writeControl b activeSuspension
    (some (.completed callId callIds)) token)) (.ok ())

/-- An accepted `_park`. -/
def Parked (active : Suspension) (e : Code.Event C) : Prop :=
  ∃ token inserted, e.did
    (.ledger (.commitTransition b (AgentRuntime.parkWrites active) token)) (.ok inserted)

/-- An event that changes the suspension. -/
def Turns (e : Code.Event C) : Prop :=
  (∃ active, Wrote b active e) ∨ Completed b e ∨ ∃ active, Parked b active e

/-- Thread `i` has entered `_finalize`, of this suspension. -/
def Entered (i : Nat) (active : Suspension) (log : List (Code.Event C)) : Prop :=
  ∃ d ∈ log, d.tid = i ∧ ∃ found answers, active = { found with answers := answers } ∧
    d.did (.ext (.mark (.finalizing found answers))) ()

/-- Thread `i` has entered `_finalize`. -/
def Finalizing (i : Nat) (log : List (Code.Event C)) : Prop := ∃ active, Entered i active log

/-- Thread `i` has begun the finalization that `active` is written for. -/
def Resuming (i : Nat) (active : Suspension) (log : List (Code.Event C)) : Prop :=
  ∃ pre d mid, log = pre ++ d :: mid ∧ d.tid = i ∧ Finalizing i pre ∧ Wrote b active d

/-- Thread `i` is about to take the lease for `method`. -/
def Leasing (i : Nat) (method : Method) (log : List (Code.Event C)) : Prop :=
  ∃ d ∈ log, d.tid = i ∧ d.did (.ext (.mark (.leasing method))) ()

/-- The event takes the lease for thread `d.tid`, to drive the branch whatever is parked. -/
def TakenToDrive (pre : List (Code.Event C)) (d : Code.Event C) : Prop :=
  (Leasing d.tid .run pre ∨ Leasing d.tid .fork pre) ∧
    ∃ owner ttl, ∃ token : Int, token ≠ 0 ∧ d.did (.ledger (.acquire b owner ttl)) (.ok token)

/-! The log can be read by computation. -/

/-- The suspension an accepted `write_control` writes. -/
def written (e : Code.Event C) : Option Suspension :=
  match e with
  | ⟨_, _, .ledger (.writeControl b' key (some (.suspension active)) _), .ok (), _⟩ =>
    if b' = b ∧ key = activeSuspension then some active else none
  | _ => none

theorem wrote_iff {active : Suspension} {e : Code.Event C} :
    Wrote b active e ↔ written b e = some active := by
  constructor
  · rintro ⟨token, hdid⟩
    obtain ⟨tid, call, o, r, s⟩ := e
    cases hdid
    simp [written]
  · intro h
    unfold written at h
    split at h
    · next token _ =>
      split at h
      · next hkey =>
        obtain ⟨rfl, rfl⟩ := hkey
        cases h
        exact ⟨token, rfl⟩
      · cases h
    · cases h

instance (active : Suspension) (e : Code.Event C) : Decidable (Wrote b active e) :=
  decidable_of_iff _ (wrote_iff b).symm

/-- The event enters `_finalize`. -/
def entering (e : Code.Event C) : Bool :=
  match e.op with
  | .ext (.mark (.finalizing _ _)) => true
  | _ => false

theorem finalizing_iff {i : Nat} {log : List (Code.Event C)} :
    Finalizing i log ↔ ∃ d ∈ log, d.tid = i ∧ entering d = true := by
  constructor
  · rintro ⟨active, d, hd, htid, found, answers, _, hdid⟩
    refine ⟨d, hd, htid, ?_⟩
    unfold entering
    rw [Event.op_of_did hdid]
  · rintro ⟨d, hd, htid, hentering⟩
    obtain ⟨tid, call, o, r, s⟩ := d
    unfold entering at hentering
    dsimp only at hentering
    split at hentering
    · next found answers => exact ⟨_, _, hd, htid, found, answers, rfl, rfl⟩
    · cases hentering

instance (i : Nat) (log : List (Code.Event C)) : Decidable (Finalizing i log) :=
  decidable_of_iff _ finalizing_iff.symm

end log

/-! ## Section 3: What a worker may do -/

section legit

variable {b : String}

/-- What an event makes of the suspension, after the events `before`. These are all the ways it
    moves, with what its writer knew: an invariant of the suspension is one case for each. -/
inductive Turned (before : List (Code.Event (Worker b))) (e : Code.Event (Worker b)) : Prop where
  /-- Nothing. -/
  | same (hturns : ¬ Turns b e)
      (hentry : e.after.entry b activeSuspension
        = (stateAfter before).entry b activeSuspension)
  /-- A person's answer is recorded, for the call parked under its pending id. -/
  | answered {active : Suspension} {pendingId : String} {answer : Answer} {call : ToolCall}
      (hrequest : e.call.request.answer? = some (pendingId, answer))
      (hfresh : ¬ Finalizing e.tid before) (hlive : live b (stateAfter before) = some active)
      (hcall : active.callFor pendingId = some call)
      (hwrote : Wrote b (active.answered call.toolCallId answer) e)
      (hafter : live b e.after = some (active.answered call.toolCallId answer))
  /-- The finalization of a decided suspension begins. -/
  | begun {active : Suspension} (hentered : Entered e.tid active before)
      (hdecided : active.Decided) (hlive : live b (stateAfter before) = some active)
      (hwrote : Wrote b active.resumed e) (hafter : live b e.after = some active.resumed)
  /-- It is over. -/
  | completed {active : Suspension} (hbegun : Resuming b e.tid active before)
      (hlive : live b (stateAfter before) = some active) (hcompleted : Completed b e)
      (hafter : live b e.after = none)
  /-- A round parks: it waits, and nobody has answered. -/
  | parked {active : Suspension} (hparked : Parked b active e)
      (hafter : live b e.after = some active) (hwaiting : active.state = .waiting)
      (hanswers : active.answers = Dict.empty)

/-- When `agent.run` may be called: the lease is lost; or nothing is parked; or the suspension
    is the thread's own to finalize; or it was there when the thread took the lease to run or
    fork. The first and the last are what the source does not exclude. -/
def Starts (before : List (Code.Event (Worker b))) (i : Nat) (token : Int) : Prop :=
  token < (stateAfter before).issued b ∨ live b (stateAfter before) = none ∨
    (∃ active, live b (stateAfter before) = some active ∧ active.Decided ∧
      Resuming b i active before) ∨
    ∃ pre d mid, before = pre ++ d :: mid ∧ d.tid = i ∧ TakenToDrive b pre d ∧
      live b d.after = live b (stateAfter before)

/-- What the points a thread passes say, after the events `before`. -/
def Said (before : List (Code.Event (Worker b))) (e : Code.Event (Worker b)) : Prop :=
  match e.op with
  | .ext (.mark (.finalizing found answers)) =>
      let active : Suspension := { found with answers := answers }
      active.Decided ∧ ∃ d ∈ before, live b d.after = some active
  | .ext (.mark (.agentRun token start)) =>
      Starts before e.tid token ∧
        ∀ active, Resuming b e.tid active before → start.approvals = some active.approvals
  | .ext (.mark (.ended reason)) =>
      ∀ active, Resuming b e.tid active before → active.refused = true →
        (∀ agent ∈ e.call.request.agent?, agent.Reports) → reason = .aborted
  | .ext (.model _) => ∀ active, Resuming b e.tid active before → active.refused = false
  | _ => True

/-- What a worker may do. -/
structure Legit (before : List (Code.Event (Worker b))) (e : Code.Event (Worker b)) : Prop where
  turned : Turned before e
  said : Said before e

end legit

/-! ## Section 4: The contract -/

section contract

variable (owners : Owners) (b conversation : String)

/-- What holds of every history of the branch. -/
structure BranchInv (h : Code.History (Worker b)) : Prop where
  leases : LeaseOk h.now
  now : h.now = stateAfter h.log
  conversation : ∀ active, live b h.now = some active → active.conversationId = conversation
  legit : Always Legit h.log

/-- Others keep to the lease. -/
structure BranchRely (i : Nat) (h h' : Code.History (Worker b)) : Prop where
  lease : LeaseRely b (owners.name i) (· = activeSuspension) h.now h'.now
  log : ∃ more, h'.log = h.log ++ more ∧ ∀ e ∈ more, e.tid ≠ i

/-- What each operation guarantees. -/
structure BranchGuar (i : Nat) (worker : Worker b) (h : Code.History (Worker b)) (o : Op)
    (r : o.Reply) (h' : Code.History (Worker b)) : Prop where
  log : h'.log = h.log ++ [⟨i, worker, o, r, h'.now⟩]
  inv : BranchInv b conversation h'
  others : ∀ j, j ≠ i → LeaseRely b (owners.name j) (· = activeSuspension) h.now h'.now

variable {owners b conversation}

theorem BranchRely.trans {i : Nat} {h₁ h₂ h₃ : Code.History (Worker b)}
    (h : BranchRely owners b i h₁ h₂) (h' : BranchRely owners b i h₂ h₃) :
    BranchRely owners b i h₁ h₃ := by
  obtain ⟨more, hlog, hmore⟩ := h.log
  obtain ⟨more', hlog', hmore'⟩ := h'.log
  refine ⟨h.lease.trans h'.lease, more ++ more', by simp [hlog', hlog], ?_⟩
  intro e he
  exact (List.mem_append.mp he).elim (hmore e) (hmore' e)

variable (owners b conversation)

/-- The contract of a branch's workers. -/
def branchContract : Contract (MemorySteps Record) Env (Worker b) Op.Reply where
  inv := BranchInv b conversation
  ok _ _ _ _ _ := True
  rely := BranchRely owners b
  guar := BranchGuar owners b conversation
  rely_refl _ _ := ⟨LeaseRely.refl .., [], (List.append_nil _).symm, by simp⟩
  rely_trans := BranchRely.trans
  keep _ hguar := hguar.inv
  others {i j _ _ _ _ _} _ hguar hne := by
    refine ⟨hguar.others j hne, _, hguar.log, ?_⟩
    intro e he
    obtain rfl := List.mem_singleton.mp he
    exact Ne.symm hne

end contract

end Semora
