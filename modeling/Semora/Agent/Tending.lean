import Semora.Agent.BranchRuns
import Semora.Agent.ForkAttempt
import Semora.Agent.RuntimeOps
import Semora.Agent.ToolAgent
import Semora.Agent.Watch

/-! # What a Thread Does in Its Rounds

    A tool is started for a call of the round its attempt has recorded, under
    the lease the round was recorded under. That is so because an agent calls
    tools in the node of a response, for calls of that response. It is a
    property of one thread's exchanges with the ledger, whatever the others
    do: a monitor (`tending`) says it, and every method is checked against the
    monitor. -/

namespace Semora

open Pool

/-! ## Section 1: Rounds of an agent -/

/-- The calls of the round an agent is in, after an operation. -/
def NodeOp.roundAfter (round : List ToolCall) : (o : NodeOp) → Except Raised o.Result →
    List ToolCall
  | .callTools _ response, .ok _ => response.toolCalls
  | .callTools .., .error _ => []
  | _, _ => round

/-- The program calls tools for the calls of the response whose node it is in. -/
def KeepsToRounds {α : Type} : List ToolCall → AgentProg α → Prop
  | _, .pure _ => True
  | round, .perform o next =>
    (∀ ctx tool call args approved, o = .tool ctx tool call args approved →
      call.toolCallId ∈ round.map ToolCall.toolCallId) ∧
      ∀ r, KeepsToRounds (o.roundAfter round r) (next r)

/-- The agent's graph: tools are called in a `CallToolsNode`, for calls of its response. -/
def Agent.KeepsToRounds (agent : Agent) : Prop :=
  ∀ start, Semora.KeepsToRounds [] (agent.run start)

namespace ToolAgent

variable {tool : ToolDefinition}

theorem keepsToRounds_callAll {ctx : RunContext} {approved : Bool} {next : ToolRound → Run}
    {called : List ToolCall} (hnext : ∀ round, KeepsToRounds called (next round))
    {calls : List (ToolCall × Json)} (hcalls : ∀ p ∈ calls, p.1 ∈ called) (round : ToolRound) :
    KeepsToRounds called (callAll tool ctx approved next calls round) := by
  induction calls generalizing round with
  | nil => exact hnext round
  | cons p calls ih =>
    obtain ⟨call, args⟩ := p
    refine ⟨?_, fun r => ?_⟩
    · intro ctx' tool' call' args' approved' heq
      obtain ⟨_, _, rfl, _, _⟩ := NodeOp.tool.inj heq
      exact List.mem_map_of_mem (hcalls (call, args) List.mem_cons_self)
    · dsimp only
      cases round.add call r with
      | error error => exact trivial
      | ok round => exact ih (fun q hq => hcalls q (List.mem_cons_of_mem _ hq)) round

theorem keepsToRounds_endRound {ctx : RunContext} {response : ModelResponse}
    {request : ModelRequest → Run} {called : List ToolCall}
    (hrequest : ∀ next, KeepsToRounds called (request next)) (round : ToolRound) :
    KeepsToRounds called (endRound ctx response request round) := by
  unfold endRound
  by_cases hwaiting : round.waiting ≠ []
  · rw [if_pos hwaiting]
    refine ⟨nofun, fun r => ?_⟩
    cases r with
    | error error => exact trivial
    | ok result => exact trivial
  · rw [if_neg hwaiting]
    refine ⟨nofun, fun r => ?_⟩
    cases r with
    | error error => exact trivial
    | ok result =>
      cases result with
      | next next => exact hrequest next
      | finished output => exact trivial
      | deferred requests => exact trivial

theorem keepsToRounds_endTurn {ctx : RunContext} {response : ModelResponse}
    {request : ModelRequest → Run} {called : List ToolCall}
    (hrequest : ∀ next, KeepsToRounds called (request next)) :
    KeepsToRounds called (endTurn ctx response request) := by
  refine ⟨nofun, fun r => ?_⟩
  cases r with
  | error error => exact trivial
  | ok result =>
    cases result with
    | next next => exact hrequest next
    | finished output => exact trivial
    | deferred requests => exact trivial

theorem keepsToRounds_turns (limit step : Nat) (messages : List Message) (request : ModelRequest)
    (called : List ToolCall) : KeepsToRounds called (turns tool limit step messages request) := by
  -- Induction on the turns left: a response without calls ends the run, one with calls opens a
  -- round of exactly these.
  induction limit generalizing step messages request called with
  | zero => exact trivial
  | succ limit ih =>
    refine ⟨nofun, fun r => ?_⟩
    cases r with
    | error error => exact trivial
    | ok result =>
      cases result with
      | halted joined output => exact trivial
      | answered request response =>
        refine ⟨nofun, fun r => ?_⟩
        cases r with
        | error error => exact trivial
        | ok u =>
          show KeepsToRounds response.toolCalls (if response.toolCalls = [] then _ else _)
          by_cases hnone : response.toolCalls = []
          · rw [if_pos hnone]
            exact keepsToRounds_endTurn fun next => ih _ _ next _
          · rw [if_neg hnone]
            refine keepsToRounds_callAll (keepsToRounds_endRound fun next => ih _ _ next _) ?_ _
            intro p hp
            obtain ⟨call, hcall, rfl⟩ := List.mem_map.mp hp
            exact hcall

/-- What is approved is a call of the round that is resumed. -/
theorem approved_mem {approvals : List (String × Approval)} {calls : List ToolCall}
    {p : ToolCall × Json} (h : p ∈ approved approvals calls) : p.1 ∈ calls := by
  obtain ⟨call, hcall, hsome⟩ := List.mem_filterMap.mp h
  split at hsome
  · cases hsome
    exact hcall
  · cases hsome

theorem keepsToRounds_resumed (limit : Nat) (history : List Message)
    (approvals : List (String × Approval)) :
    KeepsToRounds [] (resumed tool limit history approvals) := by
  unfold resumed
  cases hlatest : latestResponse history with
  | none => exact trivial
  | some found =>
    obtain ⟨response, later⟩ := found
    refine ⟨nofun, fun r => ?_⟩
    cases r with
    | error error => exact trivial
    | ok tools =>
      refine ⟨nofun, fun r => ?_⟩
      cases r with
      | error error => exact trivial
      | ok u =>
        refine keepsToRounds_callAll
          (keepsToRounds_endRound fun next => keepsToRounds_turns _ _ _ next _) ?_ _
        intro p hp
        have hcall := approved_mem hp
        unfold unansweredToolCalls at hcall
        rw [hlatest] at hcall
        exact (List.mem_filter.mp hcall).1

end ToolAgent

/-- It calls its tool for the calls of a response. -/
theorem toolAgent_keepsToRounds (digest : List Message → List ToolDefinition → String)
    (tool : ToolDefinition) (limit : Nat) : (toolAgent digest tool limit).KeepsToRounds := by
  intro start
  unfold toolAgent
  dsimp only
  cases start.approvals with
  | none => exact ToolAgent.keepsToRounds_turns _ _ _ _ _
  | some approvals => exact ToolAgent.keepsToRounds_resumed _ _ _

/-! ## Section 2: What a driving thread does -/

/-- What a thread was answered about its lease and its round. -/
structure Tending where
  /-- The token of its lease. -/
  token : Int := 0
  /-- The calls of the round it recorded last, under this token. -/
  round : List String := []

section monitor

variable (b owner : String)

/-- An exchange of the thread that takes leases as `owner`. -/
def Tending.answered (m : Tending) : (o : Op) → o.Reply → Tending
  | .ledger (.acquire b' w _), .ok (token : Int) =>
    if b' = b ∧ w = owner then { token := token } else m
  | .ledger (.release b' w), _ => if b' = b ∧ w = owner then {} else m
  | .ledger (.writeControl b' key (some (.pendingRound calls _)) _), .ok _ =>
    if b' = b ∧ key = pendingRoundKey then { m with round := calls.map CallEntry.id } else m
  | _, _ => m

/-- What it does on the branch: it records rounds under its own lease, and starts a tool for a
    call of the round it has recorded. -/
structure Tending.Permits (m : Tending) (op : LedgerOp Record) : Prop where
  records : pendingRoundKey ∈ op.keys →
    ∃ calls turn, op = .writeControl b pendingRoundKey (some (.pendingRound calls turn)) m.token ∧
      m.token ≠ 0
  starts : ∀ callId token, op = .start b (stepKey callId) token →
    token = m.token ∧ m.token ≠ 0 ∧ callId ∈ m.round
  releases : ∀ w, op = .release b w → w = owner

/-- Watches a thread that drives the branch. -/
def tending : Monitor Op Op.Reply Tending where
  next m o r := m.answered b owner o r
  allows m
    | .ledger op => op.branchId = b → m.Permits b owner op
    | .ext _ => True

end monitor

/-! ## Section 3: The code -/

/-- An operation that is passed over. -/
def Tending.Unseen (b : String) : Op → Prop
  | .ledger op => op.branchId ≠ b ∨ (op.owner? = none ∧ pendingRoundKey ∉ op.keys ∧
      ∀ callId token, op ≠ .start b (stepKey callId) token)
  | .ext _ => True

section unseen

variable {b owner : String}

/-- What takes, releases and records nothing on the branch. -/
theorem Tending.answered_of_idle {op : LedgerOp Record}
    (hop : op.branchId ≠ b ∨ (op.owner? = none ∧ pendingRoundKey ∉ op.keys)) (m : Tending)
    (r : Op.Reply (.ledger op)) : m.answered b owner (.ledger op) r = m := by
  -- Three methods can move the monitor, and each only on the branch, and only on the lease or the
  -- round.
  cases op with
  | acquire b' w ttl =>
    have hb : b' ≠ b := hop.resolve_right fun h => by cases h.1
    cases r with
    | error e => rfl
    | ok token => exact if_neg fun h => hb h.1
  | release b' w =>
    have hb : b' ≠ b := hop.resolve_right fun h => by cases h.1
    exact if_neg fun h => hb h.1
  | writeControl b' key value token =>
    have hother : ¬ (b' = b ∧ key = pendingRoundKey) := by
      rintro ⟨rfl, rfl⟩
      rcases hop with hb | ⟨_, hkeys⟩
      · exact hb rfl
      · exact hkeys List.mem_cons_self
    cases value with
    | none => rfl
    | some value =>
      cases value with
      | pendingRound calls turn =>
        cases r with
        | error e => rfl
        | ok u => exact if_neg hother
      | _ => rfl
  | _ => cases r <;> rfl

theorem Tending.Unseen.answered {o : Op} (ho : Unseen b o) (m : Tending) (r : o.Reply) :
    m.answered b owner o r = m := by
  cases o with
  | ext e => rfl
  | ledger op => exact answered_of_idle (ho.imp id fun h => ⟨h.1, h.2.1⟩) m r

theorem Tending.Unseen.allowed {o : Op} (ho : Unseen b o) (m : Tending) :
    (tending b owner).allows m o := by
  cases o with
  | ext e => trivial
  | ledger op =>
    intro hb
    obtain ⟨howner, hkeys, hstart⟩ := ho.resolve_left fun h => h hb
    refine ⟨fun hmem => absurd hmem hkeys, fun callId token heq => absurd heq (hstart _ _), ?_⟩
    rintro w rfl
    cases howner

/-- A key that is neither the round's nor a tool step's. -/
theorem unseen_key {boundary : ExecutionBoundary} {key : String} (hround : key ≠ pendingRoundKey)
    (hstep : ∀ callId, key ≠ stepKey callId) : PermitsKey boundary (Tending.Unseen b) key := by
  intro op _ howner _ hkeys
  refine Or.inr ⟨howner, fun hmem => hround (hkeys _ hmem).symm, ?_⟩
  rintro callId token rfl
  exact hstep callId (hkeys _ List.mem_cons_self).symm

theorem unseen_turns (boundary : ExecutionBoundary) :
    PermitsTurns boundary (Tending.Unseen b) where
  modelStep digest := unseen_key (modelStepKey_ne_pendingRoundKey digest)
    fun callId => modelStepKey_ne_stepKey digest callId
  asked _ _ := trivial
  model _ _ := trivial
  mark _ _ := trivial

end unseen

section drive

variable {b owner : String} {boundary : ExecutionBoundary}
  (hb : boundary.store.name boundary.branchId = b)

/-- What is passed over, and the start of one tool. -/
def StartsOnly (b : String) (callId : String) (token : Int) (o : Op) : Prop :=
  Tending.Unseen b o ∨ o = .ledger (.start b (stepKey callId) token)

theorem unseen_step {callId : String} {op : LedgerOp Record} (howner : op.owner? = none)
    (hkeys : ∀ key ∈ op.keys, key = stepKey callId)
    (hstart : ∀ callId token, op ≠ .start b (stepKey callId) token) {token : Int} :
    StartsOnly b callId token (.ledger op) :=
  Or.inl (Or.inr ⟨howner,
    fun hmem => pendingRoundKey_ne_stepKey callId (hkeys _ hmem), hstart⟩)

include hb in
/-- The journal of a tool starts nothing else. -/
theorem tool_starts_only {callId : String} {handler : Code Json}
    (hhandler : Code.Only (StartsOnly b callId boundary.token) handler) :
    Code.Only (StartsOnly b callId boundary.token) (boundary.journal.tool callId handler) := by
  -- Each exchange of the journal in turn: only `start` begins a step, and it begins this one.
  have hread : Code.Only (StartsOnly b callId boundary.token)
      (boundary.journal.store.read boundary.journal.branchId (stepKey callId)) :=
    Code.only_ledger (unseen_step rfl (by simp [LedgerOp.keys]) (by simp))
  have hforget : Code.Only (StartsOnly b callId boundary.token)
      (boundary.journal.store.forget boundary.journal.branchId (stepKey callId)
        boundary.journal.token) :=
    Code.only_ledger (unseen_step rfl (by simp [LedgerOp.keys]) (by simp))
  have hstart : Code.Only (StartsOnly b callId boundary.token)
      (boundary.journal.store.start boundary.journal.branchId (stepKey callId)
        boundary.journal.token) :=
    Code.only_ledger (Or.inr (by rw [← hb]; rfl))
  have hcommit : ∀ record, Code.Only (StartsOnly b callId boundary.token)
      (boundary.journal.commit (stepKey callId) record) := by
    intro record
    have hfinish : Code.Only (StartsOnly b callId boundary.token)
        (boundary.journal.store.finishEffect boundary.journal.branchId (stepKey callId)
          (some (.tool record)) boundary.journal.token) :=
      Code.only_ledger (unseen_step rfl (by simp [LedgerOp.keys]) (by simp))
    exact hfinish.bind fun _ => Code.only_pure _
  refine hread.bind fun step => Code.Only.ite (fun _ => Code.only_pure _) fun _ => ?_
  have hreclaim : Code.Only (StartsOnly b callId boundary.token)
      (boundary.journal.reclaim (stepKey callId) step) := by
    refine Code.Only.ite (fun _ => ?_) fun _ => Code.only_pure _
    exact Code.Only.ite (fun _ => Code.only_throw _) fun _ => hforget
  have hbegin : Code.Only (StartsOnly b callId boundary.token)
      (boundary.journal.begin_ (stepKey callId)) := by
    refine hstart.bind fun began => ?_
    cases began with
    | true => exact Code.only_pure _
    | false => exact hread.bind fun _ => Code.only_throw _
  refine hreclaim.bind fun _ => hbegin.bind fun _ => hhandler.attempt.bind fun outcome => ?_
  cases outcome with
  | ok value => exact hcommit _
  | error e =>
    refine Code.Only.ite (fun _ => hforget.bind fun _ => Code.only_throw _) fun _ => ?_
    exact Code.Only.ite (fun _ => Code.only_throw _) fun _ => hcommit _

include hb in
theorem wrapToolExecute_starts_only (ctx : RunContext) (tool : ToolDefinition) (call : ToolCall)
    (args : Json) :
    AttemptM.Only (StartsOnly b call.toolCallId boundary.token)
      (boundary.wrapToolExecute ctx tool call args) := by
  have hafter : PermitsKey boundary (StartsOnly b call.toolCallId boundary.token)
      (afterKey call.toolCallId) := by
    intro op hbranch howner hcalled hkeys
    exact Or.inl (unseen_key (pendingRoundKey_ne_afterKey _).symm
      (fun callId => (stepKey_ne_afterKey callId _).symm) op hbranch howner hcalled hkeys)
  have htool : Code.Only (StartsOnly b call.toolCallId boundary.token)
      (boundary.journal.tool call.toolCallId (Code.ask (.handler call args))) :=
    tool_starts_only hb (Code.only_ask rfl (Or.inl trivial))
  refine (AttemptM.only_code htool).bind fun record => ?_
  refine (AttemptM.only_code (Code.only_mark (Or.inl trivial))).bind fun _ => ?_
  refine AttemptM.only_state.bind fun st => ?_
  exact project_only hafter (fun _ _ => Or.inl trivial) _ record

/-- A thread under its lease, in a round it has recorded. -/
structure Tending.Within (token : Int) (round : List ToolCall) (m : Tending) : Prop where
  token_eq : m.token = token
  leased : token ≠ 0
  recorded : ∀ call ∈ round, call.toolCallId ∈ m.round

theorem unseen_keeps {P : Tending → Prop} {o : Op} (ho : Tending.Unseen b o) (m : Tending)
    (hm : P m) :
    (tending b owner).allows m o ∧ ∀ r, P ((tending b owner).next m o r) := by
  refine ⟨ho.allowed m, fun r => ?_⟩
  rw [show (tending b owner).next m o r = m from ho.answered m r]
  exact hm

include hb in
/-- `_record_pending`. -/
theorem recordPending_tends (ctx : RunContext) (response : ModelResponse) {token : Int}
    (htoken : boundary.token = token) {round : List ToolCall} :
    AttemptM.Watched (tending b owner) (fun _ => Tending.Within token round)
      (boundary.recordPending ctx response)
      (fun _ _ => Tending.Within token response.toolCalls)
      fun _ _ => Tending.Within token [] := by
  refine AttemptM.Watched.ite (fun hnone => ?_) fun _ => AttemptM.Watched.code fun st => ?_
  · have hcalls : response.toolCalls = [] := List.map_eq_nil_iff.mp hnone
    refine AttemptM.Watched.pure fun _ m hm => ⟨hm.token_eq, hm.leased, fun call hcall => ?_⟩
    rw [hcalls] at hcall
    cases hcall
  · subst htoken
    refine Code.Watched.ledger (fun m hm _ => ⟨fun _ => ?_, nofun, nofun⟩) (fun m hm u => ?_) ?_
    · rw [hm.token_eq, ← hb]
      exact ⟨_, _, rfl, hm.leased⟩
    · show Tending.Within boundary.token response.toolCalls (if _ then _ else _)
      rw [if_pos ⟨hb, rfl⟩]
      refine ⟨hm.token_eq, hm.leased, fun call hcall => ?_⟩
      exact List.mem_map.mpr ⟨_, List.mem_map.mpr ⟨call, hcall, rfl⟩, rfl⟩
    · intro m hm e
      exact ⟨hm.token_eq, hm.leased, fun _ h => absurd h List.not_mem_nil⟩

include hb in
/-- **A hook** under the monitor. -/
theorem hook_tends (digest : List Message → List ToolDefinition → String) (o : NodeOp)
    {token : Int} (htoken : boundary.token = token) {round : List ToolCall}
    (hround : ∀ ctx tool call args approved, o = .tool ctx tool call args approved →
      call.toolCallId ∈ round.map ToolCall.toolCallId) :
    AttemptM.Watched (tending b owner) (fun _ => Tending.Within token round)
      (boundary.hook digest o)
      (fun r _ => Tending.Within token (o.roundAfter round (.ok r)))
      fun e _ => Tending.Within token (o.roundAfter round (.error e)) := by
  -- A hook that neither opens a round nor starts a step is unseen.
  have hquiet : ∀ {α : Type} {x : AttemptM α}, AttemptM.Only (Tending.Unseen b) x →
      AttemptM.Watched (tending b owner) (fun _ => Tending.Within token round) x
        (fun _ _ => Tending.Within token round) fun _ _ => Tending.Within token round :=
    fun hx => hx.watched fun _ ho m hm => unseen_keeps ho m hm
  have hturns := unseen_turns (b := b) boundary
  cases o with
  | modelRequest ctx request tools => exact hquiet (modelRequestNode_only hturns _ _ _ _)
  | prepareTools tools => exact hquiet (prepareTools_only hturns.controls tools)
  | toolsCalled ctx response result =>
    exact hquiet (toolsCalledNode_only hturns ctx response result)
  -- The round is recorded here, before any of its calls is started.
  | callTools ctx response =>
    have hbegun : AttemptM.Only (Tending.Unseen b) PolicyRunner.beginToolRound :=
      (hturns.controls.only_mark rfl).bind fun _ => AttemptM.only_update _
    have hfailed : ∀ m, Tending.Within token round m → Tending.Within token [] m :=
      fun m hm => ⟨hm.token_eq, hm.leased, fun _ h => absurd h List.not_mem_nil⟩
    refine AttemptM.Watched.bind (Q := fun _ _ => Tending.Within token round)
      (AttemptM.Watched.update fun _ _ hm => hm) fun _ => ?_
    refine AttemptM.Watched.bind (Q := fun _ _ => Tending.Within token round)
      ((hquiet hbegun).mono (fun _ _ hm => hm) (fun _ _ _ hm => hm) fun _ _ m hm => hfailed m hm)
      fun _ => ?_
    exact recordPending_tends hb ctx response htoken
  -- The call is of the round, so its start is in order.
  | tool ctx tool call args approved =>
    refine (hquiet (beforeToolExecute_only hturns.controls ctx tool call args approved)).bind
      fun args => ?_
    refine (wrapToolExecute_starts_only hb ctx tool call args).watched ?_
    intro o ho m hm
    rcases ho with ho | rfl
    · exact unseen_keeps ho m hm
    · refine ⟨fun _ => ⟨?_, ?_, nofun⟩, fun r => hm⟩
      · intro hmem
        exact absurd (List.mem_singleton.mp hmem) (pendingRoundKey_ne_stepKey _)
      · intro callId token' heq
        obtain ⟨_, hkey, rfl⟩ := LedgerOp.start.inj heq
        obtain rfl := stepKey_inj hkey
        obtain ⟨called, hcalled, hid⟩ :=
          List.mem_map.mp (hround ctx tool call _ approved rfl)
        have hrecorded := hm.recorded called hcalled
        rw [hid] at hrecorded
        rw [hm.token_eq]
        exact ⟨htoken, hm.leased, hrecorded⟩

include hb in
/-- **Whatever the agent does in its rounds**, it does under the monitor. -/
theorem drive_tends {α : Type} (digest : List Message → List ToolDefinition → String)
    {token : Int} (htoken : boundary.token = token) {round : List ToolCall}
    {program : AgentProg α} (hprogram : KeepsToRounds round program) :
    AttemptM.Watched (tending b owner) (fun _ => Tending.Within token round)
      (boundary.drive digest program) (fun _ _ _ => True) fun _ _ _ => True := by
  induction program generalizing round with
  | pure a => exact AttemptM.Watched.pure fun _ _ _ => trivial
  | perform o next ih =>
    refine (AttemptM.Watched.attempt (hook_tends hb digest o htoken hprogram.1)).bind fun r => ?_
    cases r with
    | ok a => exact ih _ (hprogram.2 (.ok a))
    | error e => exact ih _ (hprogram.2 (.error e))

/-- What a boundary of another branch does is passed over. -/
theorem unseen_elsewhere (hb : boundary.store.name boundary.branchId ≠ b) :
    PermitsTools boundary (Tending.Unseen b) where
  modelStep _ _ hbranch _ _ _ := Or.inl (hbranch ▸ hb)
  asked _ _ := trivial
  model _ _ := trivial
  mark _ _ := trivial
  pendingRound _ hbranch _ _ _ := Or.inl (hbranch ▸ hb)
  step _ _ hbranch _ _ _ := Or.inl (hbranch ▸ hb)
  after _ _ hbranch _ _ _ := Or.inl (hbranch ▸ hb)
  handler _ _ := trivial
  returned _ _ := trivial
  postToolUse _ _ _ := trivial

end drive

section methods

variable {b owner : String} {runtime : AgentRuntime} {execution : ExecutionContext}
  {options : Options} {α : Type} {P : Tending → Prop}

/-- `x` does what a thread does that drives the branch filed under `b`. -/
abbrev Tends (b owner : String) (P : Tending → Prop) (x : Code α) (Q : α → Tending → Prop) : Prop :=
  Code.Watched (tending b owner) P x Q fun _ _ => True

theorem unseen_tends {x : Code α} (hx : Code.Only (Tending.Unseen b) x) :
    Tends b owner P x fun _ => P :=
  (hx.watched fun _ ho m hm => unseen_keeps ho m hm).mono (fun _ h => h) (fun _ _ h => h)
    fun _ _ _ => trivial

/-- What is passed over, when nothing has to be kept. -/
theorem unseen_ends {x : Code α} (hx : Code.Only (Tending.Unseen b) x) :
    Tends b owner P x fun _ _ => True :=
  (unseen_tends hx).mono (fun _ h => h) (fun _ _ _ => trivial) fun _ _ _ => trivial

theorem unseen_keyless {op : LedgerOp Record} (howner : op.owner? = none) (hkeys : op.keys = []) :
    Tending.Unseen b (.ledger op) := by
  refine Or.inr ⟨howner, by simp [hkeys], ?_⟩
  rintro callId token rfl
  cases hkeys

theorem unseen_suspension (value : Option Record) (token : Int) (b' : String) :
    Tending.Unseen b (.ledger (.writeControl b' activeSuspension value token)) :=
  Or.inr ⟨rfl, fun hmem => pendingRoundKey_ne_activeSuspension (List.mem_singleton.mp hmem), nofun⟩

theorem unseen_park (active : Suspension) (token : Int) (b' : String) :
    Tending.Unseen b (.ledger (.commitTransition b' (AgentRuntime.parkWrites active) token)) := by
  refine Or.inr ⟨rfl, fun hmem => ?_, nofun⟩
  have hkeys : pendingRoundKey ∈ (AgentRuntime.parkWrites active).controls.items.map Prod.fst := by
    simpa [LedgerOp.keys, AgentRuntime.parkWrites] using hmem
  rcases Forking.parkWrites_keys hkeys with heq | ⟨callId, heq⟩
  · exact pendingRoundKey_ne_activeSuspension heq
  · have hlist := congrArg String.toList heq
    simp [pendingRoundKey, suspendKey, String.toList_append] at hlist

/-- The run of the agent. -/
theorem runAgent_tends {boundary : ExecutionBoundary} {agent : Agent}
    (hagent : agent.KeepsToRounds) (start : RunStart) (hleased : boundary.token ≠ 0) :
    Tends b owner (fun m => m.token = boundary.token)
      (AgentRuntime.runAgent boundary agent start) fun _ _ => True := by
  by_cases hb : boundary.store.name boundary.branchId = b
  · rw [AgentRuntime.runAgent_eq]
    have hdrive : AttemptM.Watched (tending b owner)
        (fun _ => Tending.Within boundary.token []) (boundary.drive agent.digest (agent.run start))
        (fun _ _ _ => True) fun _ _ _ => True := drive_tends hb agent.digest rfl (hagent start)
    refine Code.Watched.bind ((hdrive {}).mono (fun _ hm => ⟨hm, hleased, nofun⟩)
      (fun _ _ h => h) fun _ _ h => h.elim) ?_
    rintro ⟨e | (e | result), st⟩
    · exact Code.Watched.throw fun _ _ => trivial
    · exact Code.Watched.throw fun _ _ => trivial
    · exact Code.Watched.pure fun _ _ => trivial
  · exact unseen_ends (runAgent_only (unseen_elsewhere hb) agent start)

/-- `_attempt`. -/
theorem attempt_tends (hagent : options.agent.KeepsToRounds) {token : Int} (hleased : token ≠ 0)
    {args : AttemptArgs} :
    Tends b owner (fun m => m.token = token) (runtime.attempt execution token options args)
      fun _ _ => True := by
  refine (unseen_tends (openHistory_only (fun _ => trivial) args.messageHistory)).bind
    fun history => ?_
  have hdeliver : Code.Only (Tending.Unseen b)
      (AgentRuntime.deliverPrompt execution token args.prompt args.promptId) :=
    deliverPrompt_only (fun _ _ => unseen_keyless rfl rfl) (fun _ _ => unseen_keyless rfl rfl) _ _ _
  refine (unseen_tends hdeliver).bind fun prompt => ?_
  refine (unseen_tends (Code.only_mark trivial)).bind fun _ => ?_
  have hboundary : (runtime.boundary execution token options args).token ≠ 0 := hleased
  have hrun : ∀ start, Tends b owner (fun m => m.token = token)
      (AgentRuntime.runAgent (runtime.boundary execution token options args) options.agent start)
      fun _ _ => True := fun start => runAgent_tends hagent start hboundary
  refine (hrun _).bind fun r => unseen_ends ?_
  obtain ⟨result, st⟩ := r
  refine (replaceHistory_only (fun _ => trivial) result.messages).bind fun _ => ?_
  cases houtput : result.output with
  | deferred requests =>
    exact park_only (fun _ _ _ _ _ => trivial) fun _ _ _ => unseen_park _ _ _
  | text output =>
    refine (close_only (fun _ _ => trivial) _ _).bind fun _ => ?_
    exact (Code.only_mark trivial).bind fun _ => Code.only_pure _

/-- `_finalize`. -/
theorem finalize_tends (hagent : options.agent.KeepsToRounds) {token : Int} (hleased : token ≠ 0)
    {active : Suspension} {answers : Dict String Answer}
    {parked : List (ToolCall × SuspendRequest)} :
    Tends b owner (fun m => m.token = token)
      (runtime.finalize execution token options active answers parked) fun _ _ => True := by
  refine (unseen_tends (Code.only_mark trivial)).bind fun _ => ?_
  refine (unseen_tends (Code.only_ofExcept _)).bind fun approvals => ?_
  obtain ⟨approvals, cancelled⟩ := approvals
  refine (unseen_tends (Code.only_ledger (unseen_suspension _ _ _))).bind fun _ => ?_
  refine (unseen_tends (Code.only_ofExcept _)).bind fun _ => ?_
  refine (attempt_tends hagent hleased).bind fun outcome => unseen_ends ?_
  exact (Code.only_ledger (unseen_suspension _ _ _)).bind fun _ => Code.only_pure _

theorem active_unseen : Code.Only (Tending.Unseen b) (AgentRuntime.active execution) :=
  active_only (unseen_keyless rfl rfl)

/-- The body of `resume`. -/
theorem answerUnderLease_tends (hagent : options.agent.KeepsToRounds) {pendingId : String}
    {answer : Answer} {token : Int} (hleased : token ≠ 0) :
    Tends b owner (fun m => m.token = token)
      (runtime.answerUnderLease execution options pendingId answer token) fun _ _ => True := by
  refine (unseen_tends active_unseen).bind fun found => ?_
  cases found with
  | none => exact Code.Watched.throw fun _ _ => trivial
  | some active =>
    refine (unseen_tends (Code.only_ofExcept _)).bind fun parked => ?_
    refine (unseen_tends (Code.only_ofExcept _)).bind fun _ => ?_
    cases hcall : byPending parked pendingId with
    | none => exact Code.Watched.throw fun _ _ => trivial
    | some call =>
      refine (unseen_tends (Code.only_ledger (unseen_suspension _ _ _))).bind fun _ => ?_
      refine (unseen_tends (Code.only_ofExcept _)).bind fun pending => ?_
      refine Code.Watched.ite (fun _ => Code.Watched.throw fun _ _ => trivial) fun _ => ?_
      exact finalize_tends hagent hleased

/-- The body of `recover`. -/
theorem recoverUnderLease_tends (hagent : options.agent.KeepsToRounds) {history : List Message}
    {token : Int} (hleased : token ≠ 0) :
    Tends b owner (fun m => m.token = token)
      (runtime.recoverUnderLease execution options history token) fun _ _ => True := by
  refine (unseen_tends active_unseen).bind fun found => ?_
  cases found with
  | some active =>
    refine (unseen_tends (Code.only_ofExcept _)).bind fun pending => ?_
    refine Code.Watched.ite (fun _ => Code.Watched.throw fun _ _ => trivial) fun _ => ?_
    refine (unseen_tends (Code.only_ofExcept _)).bind fun parked => ?_
    exact finalize_tends hagent hleased
  | none =>
    have hcheck : Code.Only (Tending.Unseen b)
        (AgentRuntime.checkPendingRound execution history) :=
      checkPendingRound_only (unseen_keyless rfl rfl) history
    exact (unseen_tends hcheck).bind fun _ => attempt_tends hagent hleased

/-- A method under the lease of `owner`. -/
theorem lease_tends {method : Method} {body : Int → Code α}
    (hbody : ∀ token : Int, token ≠ 0 →
      Tends execution.filedName owner (fun m => m.token = token) (body token) fun _ _ => True) :
    Tends execution.filedName owner P (runtime.lease execution owner method body)
      fun _ _ => True := by
  refine (unseen_tends (Code.only_mark trivial)).bind fun _ => ?_
  have hacquire : Tends execution.filedName owner P
      (execution.store.acquire execution.branchId owner runtime.leaseTtl)
      fun (token : Int) m => m.token = token := by
    refine Code.Watched.ledger
      (fun m _ _ => ⟨fun hmem => absurd hmem List.not_mem_nil, nofun, nofun⟩)
      (fun m _ (token : Int) => ?_) fun _ _ _ => trivial
    exact congrArg Tending.token (if_pos ⟨rfl, rfl⟩ :
      (if execution.filedName = execution.filedName ∧ owner = owner
        then ({ token := token } : Tending) else m) = _)
  refine hacquire.bind fun (token : Int) => ?_
  refine Code.Watched.ite (fun _ => Code.Watched.throw fun _ _ => trivial) fun hne => ?_
  have hrelease : Tends execution.filedName owner (fun _ => True)
      (execution.store.release execution.branchId owner) fun _ _ => True := by
    refine Code.Watched.ledger (fun m _ _ => ⟨fun hmem => absurd hmem List.not_mem_nil, nofun, ?_⟩)
      (fun _ _ _ => trivial) fun _ _ _ => trivial
    intro w heq
    exact (LedgerOp.release.inj heq).2.symm
  exact Code.Watched.finally_ (hbody token hne) (fun _ => hrelease) fun _ => hrelease

/-- `run`. -/
theorem run_tends (hagent : options.agent.KeepsToRounds) {args : AttemptArgs} :
    Tends execution.filedName owner P (runtime.run execution owner options args)
      fun _ _ => True := by
  have hannounced : Code.Only (Tending.Unseen execution.filedName)
      (AgentRuntime.announceParked execution args.promptId args.prompt) :=
    announceParked_only (unseen_keyless rfl rfl)
      (submit_only trivial fun _ _ => unseen_keyless rfl rfl) _ _
  refine (unseen_tends hannounced).bind fun _ => ?_
  exact lease_tends fun _ hleased => attempt_tends hagent hleased

/-- `resume`. -/
theorem resume_tends (hagent : options.agent.KeepsToRounds) {pendingId : String}
    {answer : Answer} :
    Tends execution.filedName owner P (runtime.resume execution owner options pendingId answer)
      fun _ _ => True :=
  lease_tends fun _ hleased => answerUnderLease_tends hagent hleased

/-- `recover`. -/
theorem recover_tends (hagent : options.agent.KeepsToRounds) {history : List Message} :
    Tends execution.filedName owner P (runtime.recover execution owner options history)
      fun _ _ => True :=
  lease_tends fun _ hleased => recoverUnderLease_tends hagent hleased

/-- `resolve_effect`. -/
theorem resolveEffect_tends {callId : String} {resolution : EffectResolution Record}
    {workersStopped : Bool} :
    Tends execution.filedName owner P
      (runtime.resolveEffect execution owner callId resolution workersStopped) fun _ _ => True := by
  refine lease_tends fun _ _ => unseen_ends (Code.only_ledger (Or.inr ⟨rfl, ?_, nofun⟩))
  exact fun hmem => pendingRoundKey_ne_stepKey callId (List.mem_singleton.mp hmem)

/-! ## Section 4: Dispatch -/

theorem state_unseen : Code.Only (Tending.Unseen b) (runtime.state execution) :=
  state_only (unseen_keyless rfl rfl) trivial

theorem submit_unseen (item : PendingInput) :
    Code.Only (Tending.Unseen b) (AgentRuntime.submit execution item) :=
  submit_only trivial (fun _ _ => unseen_keyless rfl rfl) item

/-- **`dispatch`**. -/
theorem dispatch_tends (hagent : options.agent.KeepsToRounds) {command : Command} :
    Tends execution.filedName owner P (runtime.dispatch execution owner options command)
      fun _ _ => True := by
  have hstate : Code.Only (Tending.Unseen execution.filedName) (runtime.state execution) :=
    state_unseen
  refine dispatch_heeds (fun o ho m => Tending.Unseen.allowed ho m) hstate (unseen_tends hstate)
    submit_unseen (fun _ _ => run_tends hagent) (fun _ _ => resume_tends hagent) fun _ => ?_
  have hhistory : Code.Only (Tending.Unseen execution.filedName)
      (runtime.committedHistory execution) := committedHistory_only trivial
  exact (unseen_tends hhistory).bind fun _ => recover_tends hagent

end methods

/-! ## Section 5: Requests -/

/-- What a worker is asked leaves the branch's rounds to the agents: nothing is copied onto the
    branch, and other calls write none of its rounds and tool steps. -/
def Request.Tends {b : String} : Request b → Prop
  | .run options _ => options.agent.KeepsToRounds
  | .resume options _ _ => options.agent.KeepsToRounds
  | .recover options _ => options.agent.KeepsToRounds
  | .dispatch options _ => options.agent.KeepsToRounds
  | .fork .. => False
  | .other op _ => op.branchId ≠ b ∨ (op.owner? = none ∧ pendingRoundKey ∉ op.keys ∧
      ∀ callId, stepKey callId ∉ op.keys)
  | .submit _ => True
  | .resolveEffect .. => True
  | .renew _ => True

/-- **Whatever a worker is asked**, it does under the monitor. -/
theorem serve_tends {owners : Owners} {execution : ExecutionContext} {i : Nat}
    {worker : Worker execution.filedName} (h : worker.request.Tends) {P : Tending → Prop} :
    Tends execution.filedName (owners.name i) P (serve owners execution i worker)
      fun _ _ => True := by
  have discard : ∀ {α : Type} {x : Code α},
      Tends execution.filedName (owners.name i) P x (fun _ _ => True) →
      Tends execution.filedName (owners.name i) P (Code.discard x) fun _ _ => True :=
    fun hx => hx.bind fun _ => Code.Watched.pure fun _ _ => trivial
  obtain ⟨runtime, request⟩ := worker
  -- One case a request; a fork is excluded, for it opens no round of its own.
  cases request with
  | run options args => exact discard (run_tends h)
  | resume options pendingId answer => exact discard (resume_tends h)
  | recover options history => exact discard (recover_tends h)
  | fork options src at_ prompt history regate => exact absurd h id
  | submit item => exact discard (unseen_ends (submit_unseen item))
  | resolveEffect callId resolution workersStopped => exact discard resolveEffect_tends
  | dispatch options command => exact discard (dispatch_tends h)
  | renew j =>
    have hacquire : Tends execution.filedName (owners.name i) P
        (execution.store.acquire execution.branchId (owners.name j) runtime.leaseTtl)
        fun _ _ => True :=
      Code.Watched.ledger
        (fun m _ _ => ⟨fun hmem => absurd hmem List.not_mem_nil, nofun, nofun⟩)
        (fun _ _ _ => trivial) fun _ _ _ => trivial
    exact hacquire.bind fun _ => Code.Watched.pure fun _ _ => trivial
  | other op hop =>
    refine discard (unseen_ends (Code.only_ledger ?_))
    refine h.imp id fun ⟨howner, hround, hsteps⟩ => ⟨howner, hround, ?_⟩
    rintro callId token rfl
    exact hsteps callId List.mem_cons_self

end Semora
