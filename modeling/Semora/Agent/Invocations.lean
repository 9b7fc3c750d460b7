import Semora.Agent.LedgerHistory
import Semora.Agent.Methods
import Semora.Agent.Finalizations
import Semora.Store.RetryAuthority

/-! # Invocations Are Paid For

    Every tool and every model request of the runtime goes out under running
    intent that the same worker has just recorded for its step, and intent is
    recorded once for each authority: the first start of a step, a retry
    decision, or a `forget`. A worker clears intent only when its own
    invocation has come back saying that nothing happened, or when it was
    given leave to repeat (`retry_running`).

    The intent is that of the very step: filed under the branch's own name, and
    under the call's id, or under the key that the worker's own agent makes of
    the messages it sends.

    So over every schedule of workers of a branch, the invocations of a step
    are counted: one, and one for each that was withdrawn, for each decision,
    and for each clearing by leave. -/

namespace Semora

open Pool MemorySteps

/-! ## Section 1: Intent -/

/-- What a thread stands under after its last exchange. -/
inductive Intent where
  | idle
  /-- It has recorded running intent for a step. -/
  | begun (b key : String)
  /-- Its invocation of the step raised, and nothing happened. -/
  | withdrawn (b key : String)
  deriving DecidableEq, Repr

/-- The invocation under an intent has raised. -/
def Intent.raised (m : Intent) (nothing : Bool) : Intent :=
  match m, nothing with
  | .begun b key, true => .withdrawn b key
  | _, _ => .idle

/-- An exchange of the thread. -/
def Intent.after (m : Intent) : (o : Op) → o.Reply → Intent
  | .ledger (.start b key _), .ok true => .begun b key
  | .ext (.handler _ _), .error e => m.raised e.nothingHappened
  | .ext (.model _), .error e => m.raised (decide (e ≠ .cancelled))
  | _, _ => .idle

/-- What a worker may do of itself, and how its invocations are filed. -/
structure Leave where
  /-- It may repeat what is in doubt. -/
  repeats : Bool
  /-- It calls the ledger itself. -/
  direct : Bool
  /-- Its branch may be filed under this name. -/
  files : String → Prop
  /-- Its agent may make this key of a request with these messages. -/
  keys : List Message → String → Prop

/-- A call that a host makes past the runtime. -/
def Request.direct {b : String} : Request b → Bool
  | .other .. => true
  | _ => false

/-- The names an execution is filed under. `_finalize` fills in the conversation of the record it
    finishes when the execution names none; an execution that names one has its own name only. -/
def ExecutionContext.FiledAs (execution : ExecutionContext) (b : String) : Prop :=
  ∃ conversationId, b = (executionContext execution conversationId).filedName

/-- The keys that an agent makes of a request with these messages, whatever tools it offers. -/
def Agent.Keys (agent : Agent) (messages : List Message) (key : String) : Prop :=
  ∃ tools, key = modelStepKey (agent.digest messages tools)

/-- What a worker may do of itself. -/
def Worker.leave {execution : ExecutionContext} (worker : Worker execution.filedName) : Leave where
  repeats := worker.runtime.retryRunning
  direct := worker.request.direct
  files := execution.FiledAs
  keys messages key := ∃ agent ∈ worker.request.agent?, agent.Keys messages key

/-- A worker that may repeat what is in doubt, or calls the ledger itself. -/
def Worker.byLeave {b : String} (worker : Worker b) : Bool :=
  worker.runtime.retryRunning || worker.request.direct

/-- Watches a thread: what goes out goes out under intent for its very step, intent is cleared
    only after it was withdrawn, and no effect is written as control state, but by leave. -/
def intending (leave : Leave) : Monitor Op Op.Reply Intent where
  next m o r := m.after o r
  allows m
    | .ext (.handler call _) => ∃ b, leave.files b ∧ m = .begun b (stepKey call.toolCallId)
    | .ext (.model messages) => ∃ b key, leave.files b ∧ leave.keys messages key ∧ m = .begun b key
    | .ledger op =>
      (∀ b key token, op = .forget b key token →
        leave.repeats = true ∨ leave.direct = true ∨ m = .withdrawn b key) ∧
      (leave.direct = true ∨ ∀ key ∈ op.controlKeys, ¬ EffectKey key)
    | _ => True

/-! ## Section 2: The journal -/

section code

variable {leave : Leave} {α : Type}

/-- Code that abides by the monitor, whatever stood before and comes of it. -/
abbrev Intends (leave : Leave) (x : Code α) : Prop :=
  Code.Abides (intending leave) (fun _ => True) x

/-- What the methods do besides may be done at any time. -/
theorem Op.Plain.routine (leave : Leave) (o : Op) (h : o.Plain) :
    o.Routine (intending leave) fun _ => True := by
  intro m _
  refine ⟨?_, fun _ => trivial⟩
  cases o with
  | ledger op => exact ⟨fun b key token heq => absurd heq (h.2.1 b key token), Or.inr h.2.2⟩
  | ext e =>
    cases e with
    | handler call args => exact h.elim
    | model messages => exact h.elim
    | _ => trivial

theorem intends_plain {x : Code α} (hx : Code.Only Op.Plain x) : Intends leave x :=
  hx.abides (Op.Plain.routine leave)

theorem intends_ledger {op : LedgerOp Record} (hforget : ∀ b key token, op ≠ .forget b key token)
    (hcontrol : op.controlKeys = []) : Intends leave (Code.ledger op) := by
  refine Code.Watched.ledger (fun m _ => ?_) (fun _ _ _ => trivial) fun _ _ _ => trivial
  refine ⟨fun b key token heq => absurd heq (hforget b key token), Or.inr fun key hkey => ?_⟩
  rw [hcontrol] at hkey
  cases hkey

section journal

variable {j : EffectJournal} (hfiled : leave.files (j.store.name j.branchId))

/-- `reclaim` clears intent by leave. -/
theorem reclaim_intends (hleave : j.retryRunning = true → leave.repeats = true) (key : String)
    (step : Step Record) : Intends leave (j.reclaim key step) := by
  apply Code.Watched.ite
  · intro _
    apply Code.Watched.ite
    · intro _
      exact Code.Watched.throw fun _ _ => trivial
    · intro hretry
      have hgiven : leave.repeats = true := hleave (not_not.mp hretry)
      exact Code.Watched.ledger (fun _ _ => ⟨fun _ _ _ _ => Or.inl hgiven, Or.inr nofun⟩)
        (fun _ _ _ => trivial) fun _ _ _ => trivial
  · intro _
    exact Code.Watched.pure fun _ _ => trivial

/-- `begin_` returns under the intent it has recorded. -/
theorem begin_intends (key : String) :
    Code.Watched (intending leave) (fun _ => True) (j.begin_ key)
      (fun _ m => m = .begun (j.store.name j.branchId) key) fun _ _ => True := by
  have hstart : Code.Watched (intending leave) (fun _ => True)
      (j.store.start j.branchId key j.token)
      (fun began m => began = true → m = .begun (j.store.name j.branchId) key)
      fun _ _ => True := by
    refine Code.Watched.ledger (fun m _ => ⟨nofun, Or.inr nofun⟩)
      (fun m _ began => ?_) fun _ _ _ => trivial
    intro hbegan
    subst hbegan
    rfl
  refine hstart.bind fun began => ?_
  cases began with
  | true => exact Code.Watched.pure fun m hm => hm rfl
  | false =>
    have hread : Intends leave (j.store.read j.branchId key) := intends_ledger nofun rfl
    refine Code.Watched.bind (hread.pre fun _ _ => trivial) fun current => ?_
    exact Code.Watched.throw fun _ _ => trivial

/-- An intent that was withdrawn may be cleared. -/
theorem forget_intends (key : String) :
    Code.Watched (intending leave) (fun m => m = .withdrawn (j.store.name j.branchId) key)
      (j.store.forget j.branchId key j.token) (fun _ _ => True) fun _ _ => True := by
  refine Code.Watched.ledger (fun m hm => ⟨fun b' key' token heq => ?_, Or.inr nofun⟩)
    (fun _ _ _ => trivial) fun _ _ _ => trivial
  obtain ⟨rfl, rfl, -⟩ := LedgerOp.forget.inj heq
  exact Or.inr (Or.inr hm)

/-- A handler goes out under the intent of its step. -/
theorem handler_intends (call : ToolCall) (args : Json) {b : String} (hb : leave.files b) :
    Code.Watched (intending leave) (fun m => m = .begun b (stepKey call.toolCallId))
      (Code.ask (.handler call args)) (fun _ _ => True)
      fun e m => e.nothingHappened = true → m = .withdrawn b (stepKey call.toolCallId) := by
  refine Code.Watched.ask rfl (fun m hm => ⟨b, hb, hm⟩) ?_
  rintro m rfl (e | value)
  · intro hnothing
    show Intent.raised _ e.nothingHappened = _
    rw [hnothing]
    rfl
  · trivial

/-- A model request goes out under the intent of the key that is made of it. -/
theorem model_intends {messages : List Message} {b key : String} (hb : leave.files b)
    (hkey : leave.keys messages key) :
    Code.Watched (intending leave) (fun m => m = .begun b key)
      (Code.ask (α := ModelResponse) (.model messages)) (fun _ _ => True)
      fun e m => e ≠ .cancelled → m = .withdrawn b key := by
  refine Code.Watched.ask rfl (fun m hm => ⟨b, key, hb, hkey, hm⟩) ?_
  rintro m rfl (e | response)
  · intro hraised
    show Intent.raised _ (decide (e ≠ .cancelled)) = _
    rw [decide_eq_true hraised]
    rfl
  · trivial

include hfiled

/-- `EffectJournal.tool`. -/
theorem journal_tool_intends (hleave : j.retryRunning = true → leave.repeats = true)
    (call : ToolCall)
    (args : Json) :
    Intends leave (j.tool call.toolCallId (Code.ask (.handler call args))) := by
  have hread : Intends leave (j.store.read j.branchId (stepKey call.toolCallId)) :=
    intends_ledger nofun rfl
  -- Each exchange of the journal under what the thread intends then: to run this step, and nothing
  -- else.
  have hcommit : ∀ record, Intends leave (j.commit (stepKey call.toolCallId) record) := by
    intro record
    have hfinish : Intends leave (j.store.finishEffect j.branchId (stepKey call.toolCallId)
        (some (.tool record)) j.token) := intends_ledger nofun rfl
    exact hfinish.bind fun _ => Code.Watched.pure fun _ _ => trivial
  refine Code.Watched.bind hread fun step => ?_
  apply Code.Watched.ite
  · intro _
    exact Code.Watched.pure fun _ _ => trivial
  · intro _
    refine (reclaim_intends hleave _ step).bind fun _ => ?_
    refine (begin_intends (stepKey call.toolCallId)).bind fun _ => ?_
    refine (handler_intends call args hfiled).attempt.bind fun outcome => ?_
    cases outcome with
    | ok value => exact (hcommit _).pre fun _ _ => trivial
    | error e =>
      apply Code.Watched.ite
      · intro hnothing
        refine Code.Watched.bind ((forget_intends (stepKey call.toolCallId)).pre
          fun m hm => hm hnothing) fun _ => ?_
        exact Code.Watched.throw fun _ _ => trivial
      · intro _
        apply Code.Watched.ite
        · intro _
          exact Code.Watched.throw fun _ _ => trivial
        · intro _
          exact (hcommit _).pre fun _ _ => trivial

/-- `EffectJournal.model`. -/
theorem journal_model_intends (hleave : j.retryRunning = true → leave.repeats = true)
    {messages : List Message} {key : String} (hkey : leave.keys messages key) :
    Intends leave (j.model key (Code.ask (.model messages))) := by
  have hread : Intends leave (j.store.read j.branchId key) := intends_ledger nofun rfl
  refine Code.Watched.bind hread fun step => ?_
  apply Code.Watched.ite
  · intro _
    exact intends_plain (asResponse_only _)
  · intro _
    refine (reclaim_intends hleave _ step).bind fun _ => ?_
    refine (begin_intends key).bind fun _ => ?_
    have hfinish : ∀ response, Intends leave (j.store.finishEffect j.branchId key
        (some (.model response)) j.token) := fun _ => intends_ledger nofun rfl
    refine Code.Watched.bind (Q := fun _ _ => True) ?_ fun response =>
      (hfinish response).bind fun _ => Code.Watched.pure fun _ _ => trivial
    refine (model_intends hfiled hkey).catch_ fun e => ?_
    · apply Code.Watched.ite
      · intro _
        exact Code.Watched.throw fun _ _ => trivial
      · intro hraised
        refine Code.Watched.bind ((forget_intends key).pre fun m hm => hm hraised) fun _ => ?_
        exact Code.Watched.throw fun _ _ => trivial

end journal

/-! ## Section 3: Workers -/

/-- An attempt invokes under intent for its own steps. -/
theorem attempt_intends {runtime : AgentRuntime}
    (hleave : runtime.retryRunning = true → leave.repeats = true) {execution : ExecutionContext}
    (hfiled : leave.files execution.filedName) {options : Options}
    (hkeys : ∀ messages tools,
      leave.keys messages (modelStepKey (options.agent.digest messages tools)))
    (token : Int) (args : AttemptArgs) :
    Intends leave (runtime.attempt execution token options args) :=
  attempt_abides (Op.Plain.routine leave)
    (fun messages tools => journal_model_intends hfiled hleave (hkeys messages tools))
    fun call toolArgs => journal_tool_intends hfiled hleave call toolArgs

/-- A method under a lease. -/
theorem lease_intends {runtime : AgentRuntime} {execution : ExecutionContext} {owner : String}
    (method : Method) (body : Int → Code α) (hbody : ∀ token, Intends leave (body token)) :
    Intends leave (runtime.lease execution owner method body) := by
  have hmark : Intends leave (Code.mark (.leasing method)) :=
    Code.Watched.mark (fun _ _ => trivial) fun _ _ => trivial
  have hacquire : Intends leave
      (execution.store.acquire execution.branchId owner runtime.leaseTtl) :=
        intends_ledger nofun rfl
  have hrelease : Intends leave (execution.store.release execution.branchId owner) :=
    intends_ledger nofun rfl
  refine hmark.bind fun _ => hacquire.bind fun (token : Int) => ?_
  refine Code.Watched.ite (fun _ => Code.Watched.throw fun _ _ => trivial) fun _ => ?_
  exact Code.Watched.finally_ (hbody token) (fun _ => hrelease) fun _ => hrelease

/-- **Whatever a worker is asked**, it invokes under intent. -/
theorem serve_intends (owners : Owners) {execution : ExecutionContext} (i : Nat)
    (worker : Worker execution.filedName) :
    Intends worker.leave (serve owners execution i worker) := by
  by_cases hserved : worker.request.served = true
  · refine serve_abides owners i hserved (Op.Plain.routine _) (Op.Plain.routine _) ?_
      fun _ method body hbody => lease_intends method body hbody
    intro options hagent conversationId token args
    have hfiled : worker.leave.files (executionContext execution conversationId).filedName :=
      ⟨conversationId, rfl⟩
    have hkeys : ∀ messages tools,
        worker.leave.keys messages (modelStepKey (options.agent.digest messages tools)) :=
      fun messages tools => ⟨options.agent, hagent, tools, rfl⟩
    exact attempt_intends id hfiled hkeys token args
  · obtain ⟨runtime, request⟩ := worker
    cases request with
    | renew j =>
      have hacquire : Intends (⟨runtime, .renew j⟩ : Worker execution.filedName).leave
          (execution.store.acquire execution.branchId (owners.name j) runtime.leaseTtl) :=
        intends_ledger nofun rfl
      exact hacquire.bind fun _ => Code.Watched.pure fun _ _ => trivial
    | other op hop =>
      -- a direct call is by leave, whatever it does
      refine Code.Abides.discard (Code.Watched.ledger (fun m _ => ?_) (fun _ _ _ => trivial)
        fun _ _ _ => trivial)
      exact ⟨fun _ _ _ _ => Or.inr (Or.inl rfl), Or.inl rfl⟩
    | _ => exact absurd rfl hserved

end code

/-! ## Section 4: The accounts of a step -/

section accounts

variable {C : Type}

/-- The monitor of a worker that has every leave. -/
def trusting : Monitor Op Op.Reply Intent := intending ⟨true, true, fun _ => True, fun _ _ => True⟩

/-- What thread `tid` stands under. -/
def intent (tid : Nat) (log : List (Code.Event C)) : Intent := trusting.seen .idle tid log

/-- What an operation of a worker needs to go out: a tool's function goes out under intent for
    the step of its call on the worker's branch, a model request under intent for a key that the
    worker's own agent makes of the messages sent. -/
def Op.Under {execution : ExecutionContext} (worker : Worker execution.filedName) (m : Intent) :
    Op → Prop
  | .ext (.handler call _) => ∃ b, execution.FiledAs b ∧ m = .begun b (stepKey call.toolCallId)
  | .ext (.model messages) => ∃ b key, execution.FiledAs b ∧
      (∃ agent ∈ worker.request.agent?, agent.Keys messages key) ∧ m = .begun b key
  | _ => True

def Op.goesOut : Op → Bool
  | .ext (.handler ..) => true
  | .ext (.model _) => true
  | _ => false

def Op.forgets (b key : String) : Op → Bool
  | .ledger (.forget b' key' _) => decide (b' = b ∧ key' = key)
  | _ => false

variable (b key : String) (before : List (Code.Event C)) (e : Code.Event C)

/-- The event invokes the step. -/
def invokes : Nat := if e.op.goesOut = true ∧ intent e.tid before = .begun b key then 1 else 0

/-- The event is an accepted `start` of the step. -/
def starts : Nat := if (intent e.tid before).after e.op e.reply = .begun b key then 1 else 0

/-- The event is an invocation of the step that raised, and nothing happened. -/
def withdraws : Nat :=
  if (intent e.tid before).after e.op e.reply = .withdrawn b key then 1 else 0

/-- The event clears a running episode of the step, by a worker of the kind. -/
def clears (kind : C → Bool) : Nat :=
  if e.op.forgets b key = true ∧ ((stateAfter before).entry b key).status = .running ∧
    (e.after.entry b key).status = .absent ∧ kind e.call = true then 1 else 0

/-- The retry decision about the step that the event accepts. -/
def retryOf : Code.Event C → Option String
  | ⟨_, _, .ledger (.resolveEffect b' key' resolution _ _), .ok _, _⟩ =>
    if b' = b ∧ key' = key ∧ resolution.action = .retry then some resolution.decisionId else none
  | _ => none

end accounts

section carried

variable {C : Type} {log : List (Code.Event C)} {calls : List (LedgerCall Record)} (b key : String)

/-- Nothing but a `start` leaves its thread under a fresh intent. -/
theorem Intent.after_ext_ne_begun (m : Intent) (e : External) (r : Op.Reply (.ext e)) :
    m.after (.ext e) r ≠ .begun b key := by
  have hraised : ∀ nothing, m.raised nothing ≠ .begun b key := by
    intro nothing
    cases m <;> cases nothing <;> simp [Intent.raised]
  cases e with
  | handler call args =>
    cases r with
    | error e => exact hraised _
    | ok value => exact nofun
  | model messages =>
    cases r with
    | error e => exact hraised _
    | ok response => exact nofun
  | _ => exact nofun

theorem CarriesOut.starts_eq (h : CarriesOut log calls) :
    Pool.tally (starts b key) log = (ledger Record).tally (startsStep b key) .init calls := by
  refine h.tally_eq (fun before tid call op now later => ?_) fun before tid call e r => ?_
  · generalize Pool.stateAfter MemorySteps.init before = s
    cases op with
    | start b' key' token =>
      show (if Intent.after _ (.ledger (.start b' key' token)) (s.start b' key' token).1 = _
        then 1 else 0) = if b' = b ∧ key' = key ∧ (s.start b' key' token).1 = .ok true then 1 else 0
      cases (s.start b' key' token).1 with
      | error e => simp [Intent.after]
      | ok began => cases began <;> simp [Intent.after]
    | _ => exact if_neg nofun
  · exact if_neg (Intent.after_ext_ne_begun b key _ e r)

/-- A call that clears, as the ledger weighs it. -/
theorem clears_ledger {before : List (Code.Event C)} {s : MemorySteps Record}
    (hs : stateAfter before = s) (tid : Nat) (call : C) (op : LedgerOp Record) (now later : ℚ) :
    clears b key before ⟨tid, call, .ledger op, (op.perform now later s).1,
      (op.perform now later s).2⟩ (fun _ => true) = clearsStep b key s ⟨op, now, later⟩ := by
  subst hs
  cases op with
  | forget b' key' token =>
    show (if decide (b' = b ∧ key' = key) = true ∧ _ then 1 else 0)
      = if b' = b ∧ key' = key ∧ _ then 1 else 0
    simp only [decide_eq_true_eq, and_assoc, and_true]
    rfl
  | _ => exact if_neg fun h => Bool.noConfusion h.1

theorem CarriesOut.clears_eq (h : CarriesOut log calls) :
    Pool.tally (fun before e => clears b key before e fun _ => true) log
      = (ledger Record).tally (clearsStep b key) .init calls := by
  refine h.tally_eq (fun before tid call op now later => ?_) fun before tid call e r => ?_
  · exact clears_ledger b key rfl tid call op now later
  · exact if_neg fun h => Bool.noConfusion h.1

/-- A decision that was answered, as the ledger accepts it. -/
theorem retryOf_resolve (tid : Nat) (call : C) (b' key' : String)
    (resolution : EffectResolution Record) (workersStopped : Bool) (token : Int)
    (r : Except StoreError (Step Record)) (s' : MemorySteps Record) :
    retryOf b key (⟨tid, call, .ledger (.resolveEffect b' key' resolution workersStopped token), r,
        s'⟩ : Code.Event C)
      = if b' = b ∧ key' = key ∧ resolution.action = .retry ∧ r.isOk then
          some resolution.decisionId else none := by
  cases r with
  | error e => exact (if_neg fun h => Bool.noConfusion h.2.2.2).symm
  | ok step =>
    show (if b' = b ∧ key' = key ∧ resolution.action = .retry then _ else _) = _
    simp only [Except.isOk, Except.toBool, and_true]

theorem CarriesOut.retries_eq (h : CarriesOut log calls) :
    log.filterMap (retryOf b key) = acceptedRetries b key .init calls := by
  induction h with
  | nil => rfl
  | @call log calls h tid call op now later ih =>
    rw [List.filterMap_append, ih, acceptedRetries_concat]
    congr 1
    have hone : ∀ e : Code.Event C, [e].filterMap (retryOf b key) = (retryOf b key e).toList := by
      intro e
      cases h : retryOf b key e <;> simp [h]
    rw [hone]
    congr 1
    cases op with
    | resolveEffect b' key' resolution workersStopped token => exact retryOf_resolve ..
    | _ => rfl
  | outside h tid call e r ih =>
    rw [List.filterMap_append, ih]
    exact List.append_nil _

end carried

/-! ## Section 5: Every schedule -/

section schedules

variable (owners : Owners) (execution : ExecutionContext)

/-- Every worker keeps to the monitor, by its own leave. -/
theorem intending_allowed (schedule : List (Action (Worker execution.filedName) Env))
    {e : Code.Event (Worker execution.filedName)}
    (he : e ∈ branchLog owners execution schedule) :
    Allowed (intending e.call.leave) .idle e.tid (branchLog owners execution schedule) := by
  refine allowed_after (Prog.Obeys.mono ?_ (serve_intends owners e.tid e.call .idle trivial)) _
    schedule he rfl rfl
  exact fun _ _ _ => trivial

/-- What goes out goes out under intent. -/
theorem under_intent (schedule : List (Action (Worker execution.filedName) Env)) :
    Always (fun before e => e.op.Under e.call (intent e.tid before))
      (branchLog owners execution schedule) := by
  intro j e hj
  have hallowed := intending_allowed owners execution schedule (List.mem_of_getElem? hj) j e hj rfl
  generalize (branchLog owners execution schedule).take j = before at hallowed
  obtain ⟨tid, call, o, r, s⟩ := e
  cases o with
  | ledger op => trivial
  | ext q =>
    cases q with
    | handler call args => exact hallowed
    | model messages => exact hallowed
    | _ => trivial

/-- Intent that is cleared without leave was withdrawn. -/
theorem cleared_withdrawn {C : Type} {b key : String} {before : List (Code.Event C)}
    {e : Code.Event C} {leave : Leave} (hnone : leave.repeats = false ∧ leave.direct = false)
    (hforgets : e.op.forgets b key = true)
    (hallowed : (intending leave).allows (intent e.tid before) e.op) :
    intent e.tid before = .withdrawn b key := by
  obtain ⟨tid, call, o, r, s⟩ := e
  cases o with
  | ext q => cases hforgets
  | ledger op =>
    cases op with
    | forget b' key' token =>
      obtain ⟨rfl, rfl⟩ : b' = b ∧ key' = key := of_decide_eq_true hforgets
      have hcleared := hallowed.1 b' key' token rfl
      rw [hnone.1, hnone.2] at hcleared
      exact (hcleared.resolve_left nofun).resolve_left nofun
    | _ => cases hforgets

/-- An invocation spends the intent that a start has left. -/
theorem invokes_le_starts {C : Type} (b key : String) (log : List (Code.Event C)) :
    Pool.tally (invokes b key) log ≤ Pool.tally (starts b key) log := by
  refine spent_le_earned trusting .idle (fun m => if m = .begun b key then 1 else 0) rfl
    fun j e hj => ?_
  generalize log.take j = before
  show invokes b key before e + starts b key before e
    ≤ (if intent e.tid before = .begun b key then 1 else 0) + starts b key before e
  apply Nat.add_le_add_right
  unfold invokes
  by_cases hunder : intent e.tid before = .begun b key
  · rw [if_pos hunder]
    split <;> omega
  · rw [if_neg hunder, if_neg fun h => hunder h.2]

/-- Without leave, a clearing spends what a withdrawal has left. -/
theorem clears_le_withdraws (schedule : List (Action (Worker execution.filedName) Env))
    (b key : String) :
    Pool.tally (fun before e => clears b key before e fun call => !Worker.byLeave call)
        (branchLog owners execution schedule)
      ≤ Pool.tally (withdraws b key) (branchLog owners execution schedule) := by
  refine spent_le_earned trusting .idle (fun m => if m = .withdrawn b key then 1 else 0)
    rfl fun j e hj => ?_
  have hallowed := intending_allowed owners execution schedule (List.mem_of_getElem? hj) j e hj rfl
  generalize (branchLog owners execution schedule).take j = before at hallowed ⊢
  show clears b key before e _ + withdraws b key before e
    ≤ (if intent e.tid before = .withdrawn b key then 1 else 0) + withdraws b key before e
  unfold clears
  split
  · next hclears =>
    obtain ⟨hforgets, _, _, hkind⟩ := hclears
    have hnone : e.call.leave.repeats = false ∧ e.call.leave.direct = false := by
      simpa [Worker.byLeave, Worker.leave] using hkind
    rw [if_pos (cleared_withdrawn hnone hforgets hallowed)]
  · omega

/-- Whoever clears does it by leave or without. -/
theorem clears_split {C : Type} (kind : C → Bool) (b key : String)
    (log : List (Code.Event C)) :
    Pool.tally (fun before e => clears b key before e fun _ => true) log
      = Pool.tally (fun before e => clears b key before e kind) log
        + Pool.tally (fun before e => clears b key before e fun call => !kind call) log := by
  rw [← tally_add]
  congr 1
  funext before e
  unfold clears
  cases hkind : kind e.call <;> simp [hkind]

/-- **Every invocation is paid for**, over every schedule of workers of a branch. A tool's
    function goes out only while its thread stands under intent that it has just recorded itself
    for the step of that call, and a model request only under intent for a key that the worker's
    own agent makes of the messages it sends. And a step is invoked no more often than once, once
    for each invocation that was withdrawn, once for each clearing by leave, and once for each
    retry decision about it. -/
theorem invocations_paid (schedule : List (Action (Worker execution.filedName) Env))
    (b key : String) :
    let log := branchLog owners execution schedule
    Always (fun before e => e.op.Under e.call (intent e.tid before)) log ∧
    Pool.tally (invokes b key) log ≤ 1 + Pool.tally (withdraws b key) log
      + Pool.tally (fun before e => clears b key before e Worker.byLeave) log
      + (log.filterMap (retryOf b key)).toFinset.card := by
  intro log
  obtain ⟨calls, hcarries⟩ : ∃ calls, CarriesOut log calls :=
    carries_after (fun i worker => (serve owners execution i worker).run) schedule
  refine ⟨under_intent owners execution schedule, ?_⟩
  -- Handlers are paid for by starts, and starts by the clearings and retries of the ledger.
  have hinvoked := invokes_le_starts b key log
  have hstarted : Pool.tally (starts b key) log
      ≤ 1 + Pool.tally (fun before e => clears b key before e fun _ => true) log
        + (log.filterMap (retryOf b key)).toFinset.card := by
    rw [CarriesOut.starts_eq b key hcarries, CarriesOut.clears_eq b key hcarries,
      CarriesOut.retries_eq b key hcarries]
    exact starts_le b key .init calls
  have hsplit := clears_split Worker.byLeave b key log
  have hwithdrawn : Pool.tally (fun before e => clears b key before e fun call =>
      !Worker.byLeave call) log ≤ Pool.tally (withdraws b key) log :=
    clears_le_withdraws owners execution schedule b key
  omega

end schedules

/-! ## Section 6: What is completed stays completed -/

section completed

variable (owners : Owners) (execution : ExecutionContext)

/-- The operation writes no effect as control state. -/
def Op.SparesEffects (o : Op) : Prop :=
  ∀ op, o = .ledger op → ∀ key ∈ op.controlKeys, ¬ EffectKey key

/-- No code of the runtime writes an effect as control state. -/
theorem sparesEffects (schedule : List (Action (Worker execution.filedName) Env))
    (hdirect : ∀ e ∈ branchLog owners execution schedule, e.call.request.direct = true →
      e.op.SparesEffects) :
    ∀ e ∈ branchLog owners execution schedule, e.op.SparesEffects := by
  intro e he op hop
  by_cases hdone : e.call.request.direct = true
  · exact hdirect e he hdone op hop
  · obtain ⟨j, hj⟩ := List.getElem?_of_mem he
    have hallowed := intending_allowed owners execution schedule he j e hj rfl
    rw [hop] at hallowed
    exact hallowed.2.resolve_left hdone

/-- What one event does to an effect that it does not write as control state. -/
structure Completes {C : Type} (b key : String) (s : MemorySteps Record) (e : Code.Event C) :
    Prop where
  advances : Advances (s.entry b key) (e.after.entry b key)
  started : (s.entry b key).status = .done → ∀ token,
    ¬ e.did (.ledger (.start b key token)) (.ok true)
  read : ∀ r, e.did (.ledger (.read b key)) r → r = .ok (s.entry b key)

theorem completes_ledger {C : Type} {b key : String} (s : MemorySteps Record) (tid : Nat)
    (call : C) (op : LedgerOp Record) (now later : ℚ) (hkey : key ∉ op.controlKeys) :
    Completes b key s ⟨tid, call, .ledger op, (op.perform now later s).1,
      (op.perform now later s).2⟩ where
  advances := (MemorySteps.perform_move op now later s (Or.inr hkey)).advances
  started hdone token hdid := by
    obtain rfl : op = .start b key token := Op.ledger.inj (Pool.Event.op_of_did hdid)
    have hreply : (s.start b key token).1 = .ok true := eq_of_heq (Sigma.mk.inj hdid).2
    rcases s.start_cases b key token with ⟨e, heq⟩ | heq | ⟨_, hnot, _⟩
    · rw [heq] at hreply
      cases hreply
    · rw [heq] at hreply
      cases hreply
    · exact hnot hdone
  read r hdid := by
    obtain rfl : op = .read b key := Op.ledger.inj (Pool.Event.op_of_did hdid)
    exact (eq_of_heq (Sigma.mk.inj hdid).2).symm

theorem completes_outside {C : Type} {b key : String} (s : MemorySteps Record) (tid : Nat)
    (call : C) (q : External) (r : Op.Reply (.ext q)) :
    Completes b key s ⟨tid, call, .ext q, r, s⟩ where
  advances := Advances.refl _
  started _ _ hdid := nomatch Pool.Event.op_of_did hdid
  read _ hdid := nomatch Pool.Event.op_of_did hdid

theorem completes_always (schedule : List (Action (Worker execution.filedName) Env))
    (hdirect : ∀ e ∈ branchLog owners execution schedule, e.call.request.direct = true →
      e.op.SparesEffects) {b key : String} (hkey : EffectKey key) :
    Always (fun before e => Completes b key (stateAfter before) e)
      (branchLog owners execution schedule) := by
  obtain ⟨calls, hcarries⟩ : ∃ calls, CarriesOut (branchLog owners execution schedule) calls :=
    carries_after (fun i worker => (serve owners execution i worker).run) schedule
  have hspares := sparesEffects owners execution schedule hdirect
  have hall := hcarries.always (φ := fun s e => e.op.SparesEffects → Completes b key s e)
    (fun s tid call op now later hspared => completes_ledger s tid call op now later
      fun hmem => hspared op rfl key hmem hkey)
    fun s tid call q r _ => completes_outside s tid call q r
  intro j e hj
  exact hall j e hj (hspares e (List.mem_of_getElem? hj))

/-- Whoever stands under intent has recorded it: no start, no intent. -/
theorem intent_earlier {C : Type} {b key : String} {before mid : List (Code.Event C)}
    (hnone : ∀ e ∈ mid, ∀ token, ¬ e.did (.ledger (.start b key token)) (.ok true)) {tid : Nat}
    (hunder : intent tid (before ++ mid) = .begun b key) : intent tid before = .begun b key := by
  -- Induction backwards: the intent to run a step is taken up by its start alone.
  induction mid using List.reverseRecOn with
  | nil => simpa using hunder
  | append_singleton mid e ih =>
    apply ih fun d hd => hnone d (List.mem_append_left _ hd)
    unfold intent at hunder ⊢
    rw [← List.append_assoc, Monitor.seen_concat] at hunder
    by_cases htid : e.tid = tid
    · rw [if_pos htid] at hunder
      have hstarted := hnone e (List.mem_append_right _ List.mem_cons_self)
      obtain ⟨i, call, o, r, s⟩ := e
      cases o with
      | ext q => exact absurd hunder (Intent.after_ext_ne_begun b key _ q r)
      | ledger op =>
        cases op with
        | start b' key' token =>
          rcases r with e | (_ | _)
          · cases hunder
          · cases hunder
          · obtain ⟨rfl, rfl⟩ := Intent.begun.inj hunder
            exact absurd rfl (hstarted token)
        | _ => cases hunder
    · rwa [if_neg htid] at hunder

/-- **What is completed stays completed**, over every schedule of workers of a branch. The one
    hypothesis is on the host: the calls it makes to the ledger past the runtime write no effect
    as control state. Then no operation of the whole run does, and once the step of a tool or of
    a model request is completed it stays so with its value, every read answers it, no start of
    it is accepted, and only workers that were already under its intent may still invoke it. -/
theorem completed_stays (schedule : List (Action (Worker execution.filedName) Env))
    (hdirect : ∀ e ∈ branchLog owners execution schedule, e.call.request.direct = true →
      e.op.SparesEffects) {b key : String} (hkey : EffectKey key)
    {before rest : List (Code.Event (Worker execution.filedName))}
    (hlog : branchLog owners execution schedule = before ++ rest)
    (hdone : ((stateAfter before).entry b key).status = .done) :
    (∀ e ∈ branchLog owners execution schedule, e.op.SparesEffects) ∧
    (∀ e ∈ rest, (e.after.entry b key).status = .done ∧
      (e.after.entry b key).value = ((stateAfter before).entry b key).value) ∧
    (∀ e ∈ rest, ∀ r, e.did (.ledger (.read b key)) r →
      ∃ step : Step Record, r = .ok step ∧ step.status = .done ∧
        step.value = ((stateAfter before).entry b key).value) ∧
    (∀ e ∈ rest, ∀ token, ¬ e.did (.ledger (.start b key token)) (.ok true)) ∧
    ∀ mid e more, rest = mid ++ e :: more → invokes b key (before ++ mid) e = 1 →
      intent e.tid before = .begun b key := by
  have hspares := sparesEffects owners execution schedule hdirect
  have hall := completes_always owners execution schedule hdirect (b := b) hkey
  rw [hlog] at hall
  -- From the completed state on every event keeps the step completed, with its value.
  have hkept : ∀ mid more, rest = mid ++ more →
      ((stateAfter (before ++ mid)).entry b key).status = .done ∧
        ((stateAfter (before ++ mid)).entry b key).value
          = ((stateAfter before).entry b key).value := by
    intro mid more hsplit
    have hadvances := related_of_always
      (R := fun s t => Advances (s.entry b key) (t.entry b key)) (fun s => Advances.refl _)
      (fun _ _ _ h h' => h.trans h') (fun j e hj => (hall j e hj).advances) hsplit
    exact hadvances.done hdone
  have hat : ∀ e ∈ rest, ∃ s : MemorySteps Record, (s.entry b key).status = .done ∧
      (s.entry b key).value = ((stateAfter before).entry b key).value ∧ Completes b key s e := by
    intro e he
    obtain ⟨mid, more, hsplit⟩ := List.append_of_mem he
    have hwhole : Always (fun before e => Completes b key (stateAfter before) e)
        ((before ++ mid) ++ e :: more) := by
      rw [hsplit] at hall
      simpa using hall
    obtain ⟨hstatus, hvalue⟩ := hkept mid (e :: more) hsplit
    exact ⟨_, hstatus, hvalue, hwhole.split⟩
  -- A start that succeeded would have found it open.
  have hnone : ∀ e ∈ rest, ∀ token, ¬ e.did (.ledger (.start b key token)) (.ok true) := by
    intro e he
    obtain ⟨s, hstatus, _, hcompletes⟩ := hat e he
    exact hcompletes.started hstatus
  refine ⟨hspares, fun e he => ?_, fun e he r hdid => ?_, hnone,
    fun mid e more hsplit hinvokes => ?_⟩
  · obtain ⟨s, hstatus, hvalue, hcompletes⟩ := hat e he
    have hstays := hcompletes.advances.done hstatus
    exact ⟨hstays.1, hstays.2.trans hvalue⟩
  · obtain ⟨s, hstatus, hvalue, hcompletes⟩ := hat e he
    exact ⟨_, hcompletes.read r hdid, hstatus, hvalue⟩
  · have hunder : intent e.tid (before ++ mid) = .begun b key := by
      by_contra hother
      rw [invokes, if_neg fun h => hother h.2] at hinvokes
      cases hinvokes
    refine intent_earlier (fun d hd => hnone d ?_) hunder
    rw [hsplit]
    exact List.mem_append_left _ hd

end completed

/-- The tool runs once: its worker dies after it has recorded the result, and another finalizes. -/
theorem completed_stays_mail :
    let log := branchLog ownerNames mailBranch (answeredAgain { type := some "approve" })
    ((stateAfter (log.take 34)).entry "main" (stepKey "c")).status = .done ∧
    (log.drop 34).length = 27 ∧
    ∀ e ∈ log.drop 34, (e.after.entry "main" (stepKey "c")).status = .done ∧
      (e.after.entry "main" (stepKey "c")).value
        = ((stateAfter (log.take 34)).entry "main" (stepKey "c")).value := by
  intro log
  have hnone : log.all (fun e => !e.call.request.direct) = true := by decide +kernel
  have hdone : ((stateAfter (log.take 34)).entry "main" (stepKey "c")).status = .done := by
    decide +kernel
  refine ⟨hdone, by decide +kernel, ?_⟩
  refine (completed_stays ownerNames mailBranch (answeredAgain { type := some "approve" })
    (fun e he hdirect => ?_) (Or.inl ⟨"c", rfl⟩) (List.take_append_drop 34 log).symm hdone).2.1
  have hnot := List.all_eq_true.mp hnone e he
  rw [hdirect] at hnot
  cases hnot

end Semora
