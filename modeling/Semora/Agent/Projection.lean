import Semora.Agent.ToolAgent
import Semora.Agent.Runtime
import Semora.Store.Versions

/-! # Result First, and One Projection

    Attempts on one branch, one after the other, each given up anywhere. A
    tool's result is committed before its projection, as the handler returned
    it; and a projection that is stored is what every later attempt hands to
    Pydantic AI, without asking the controls again.

    * Section 1: the driver, with a mark where a tool call's outcome is handed
      over. Without the marks it is the driver.
    * Sections 2, 3: the branch's turns, and what is claimed of them.
    * Sections 4 to 6: the contract, and what each operation does to it.
    * Sections 7 to 9: the journal, the hooks, and every turn. -/

namespace Semora

open Pool MemorySteps

/-! ## Section 1: The watched driver -/

namespace ExecutionBoundary

variable (boundary : ExecutionBoundary)

/-- Pydantic AI is handed what a tool call came to. -/
def handOver : (o : NodeOp) → Except Raised o.Result → AttemptM Unit
  | .tool _ _ call _ _, r => AttemptM.mark (.handed call.toolCallId r)
  | .modelRequest .., _ => pure ()
  | .prepareTools _, _ => pure ()
  | .callTools .., _ => pure ()
  | .toolsCalled .., _ => pure ()

/-- `drive`, with a mark wherever a tool call's outcome is handed over. -/
def watch {α : Type} (digest : List Message → List ToolDefinition → String) :
    AgentProg α → AttemptM α
  | .pure a => pure a
  | .perform o next => do
    let r ← AttemptM.attempt (boundary.hook digest o)
    handOver o r
    watch digest (next r)

/-- The same boundary, asking again about these calls. -/
def regating (regate : List String) : ExecutionBoundary :=
  { boundary with policy := { boundary.policy with regate := regate } }

end ExecutionBoundary

/-- What Pydantic AI makes of a record: the tool's result, or `ToolFailed`. -/
def ToolRecord.outcome : ToolRecord → Except Raised Json
  | .ok value => .ok value
  | .failed error => .error (.toolFailed error)

/-- The record of what a handler came to, when it is a result at all. -/
def handlerRecord : Except Raised Json → Option ToolRecord
  | .ok value => some (.ok value)
  | .error e => if e.nothingHappened ∨ e.passesThrough then none else some (.failed e.text)

/-- What is answered in place of a mark that hands something over. -/
def unmarked : (o : Op) → Option o.Reply
  | .ext (.mark (.handed _ _)) => some ()
  | _ => none

theorem permitsTools_unmarked (boundary : ExecutionBoundary) :
    PermitsTools boundary fun o => unmarked o = none where
  pendingRound _ _ _ _ _ := rfl
  modelStep _ _ _ _ _ _ := rfl
  asked e he := by
    cases e with
    | mark m => cases he
    | _ => rfl
  model _ _ := rfl
  mark m h := by
    cases m with
    | handed callId result => cases h
    | _ => rfl
  step _ _ _ _ _ _ := rfl
  after _ _ _ _ _ _ := rfl
  handler _ _ := rfl
  returned _ _ := rfl
  postToolUse _ _ _ := rfl

/-- **Without its marks, the watched driver is the driver.** -/
theorem watch_skip (boundary : ExecutionBoundary) {α : Type}
    (digest : List Message → List ToolDefinition → String) (program : AgentProg α)
    (st : AttemptState) :
    ((boundary.watch digest program).runFrom st).skip unmarked
      = (boundary.drive digest program).runFrom st := by
  induction program generalizing st with
  | pure a => rfl
  | perform o next ih =>
    -- The hook itself is unmarked, so dropping the marks leaves it as it is.
    have hhook : ((AttemptM.attempt (boundary.hook digest o)).runFrom st).skip unmarked
        = (AttemptM.attempt (boundary.hook digest o)).runFrom st :=
      Prog.skip_of_all ((hook_only (permitsTools_unmarked boundary) digest o).attempt st)
    have hdrive : (boundary.drive digest (.perform o next)).runFrom st
        = (AttemptM.attempt (boundary.hook digest o) >>= fun r =>
            boundary.drive digest (next r)).runFrom st := rfl
    have hwatch : (boundary.watch digest (.perform o next)).runFrom st
        = (AttemptM.attempt (boundary.hook digest o) >>= fun r =>
            ExecutionBoundary.handOver o r >>= fun _ =>
              boundary.watch digest (next r)).runFrom st :=
      rfl
    -- Past the hook only the `handed` mark differs, and it is dropped before the next operation.
    rw [hdrive, hwatch, AttemptM.bind_runFrom, AttemptM.bind_runFrom, Prog.skip_bind, hhook]
    refine congrArg ((AttemptM.attempt (boundary.hook digest o)).runFrom st >>= ·)
      (funext fun r => ?_)
    obtain ⟨r, st'⟩ := r
    cases r with
    | error e => rfl
    | ok r =>
      -- only a tool call's outcome is marked
      show ((ExecutionBoundary.handOver o r >>= fun _ =>
        boundary.watch digest (next r)).runFrom st').skip unmarked = _
      cases o <;> exact ih r st'

/-! ## Section 2: Turns -/

namespace Projection

/-- What is not the branch's attempts leaves its tool results and projections alone, but for
    a decision that a call may run again. -/
def Bystander (b : String) (op : LedgerOp Record) : Prop :=
  op.branchId ≠ b ∨ (∀ callId, stepKey callId ∉ op.keys ∧ afterKey callId ∉ op.keys) ∨
  ∃ callId resolution workersStopped token, resolution.action = .retry ∧
    op = .resolveEffect b (stepKey callId) resolution workersStopped token

/-- What one thread does, as the branch filed as `b` sees it. -/
inductive Turn (b : String) where
  /-- An attempt: the agent's run under a boundary of the branch. -/
  | attempt (boundary : ExecutionBoundary) (agent : Agent) (start : RunStart)
      (hbranch : boundary.store.name boundary.branchId = b)
      (hregate : boundary.policy.regate = [])
  /-- A fork onto the branch: the calls are copied under the attempt's token, and the attempt
      asks again about the copied ones if it is told to. -/
  | fork (src dst : ExecutionContext) (calls : List ToolCall) (regate : Bool)
      (boundary : ExecutionBoundary) (agent : Agent) (start : RunStart)
      (hsrc : src.filedName ≠ b) (hdst : dst.filedName = b)
      (hbranch : boundary.store.name boundary.branchId = b)
  /-- Anything else that is done to the ledger meanwhile. -/
  | other (op : LedgerOp Record) (h : Bystander b op)

/-- The turn runs the agent. -/
def Turn.drives {b : String} : Turn b → Bool
  | .attempt .. => true
  | .fork .. => true
  | .other .. => false

/-- The agent's run under the boundary, watched. -/
def watchedRun (boundary : ExecutionBoundary) (agent : Agent) (start : RunStart) :
    Prog Op Op.Reply Unit :=
  (boundary.watch agent.digest (agent.run start)).runFrom {} >>= fun _ => .pure ()

/-- The code of a turn. -/
def turnBody {b : String} : Turn b → Prog Op Op.Reply Unit
  | .attempt boundary agent start _ _ => watchedRun boundary agent start
  | .fork src dst calls regate boundary agent start _ _ _ =>
    (AgentRuntime.copySteps src dst boundary.token calls).run >>= fun
      | .ok copied => watchedRun (boundary.regating (if regate then copied else [])) agent start
      | .error _ => .pure ()
  | .other op _ => .perform (.ledger op) fun _ => .pure ()

/-- The turns of one branch. -/
def turns (b : String) : System (MemorySteps Record) Env Op.Reply fun _ : Turn b => Unit :=
  Code.system fun _ turn => turnBody turn

/-- Attempts follow one another: once a later one has moved, no earlier one moves. -/
def InTurn {b : String} (log : List (Code.Event (Turn b))) : Prop :=
  ((log.filter fun e => e.call.drives).map Pool.Event.tid).Pairwise (· ≤ ·)

/-! ## Section 3: What is stored and what is shown -/

section property

variable {C : Type} (b callId : String)

/-- The projection of the call is stored. -/
def Stores (p : ToolRecord) (e : Code.Event C) : Prop :=
  ∃ token, e.did (.ledger (.writeControl b (afterKey callId) (some (.after p)) token)) (.ok ())

/-- `post_tool_use` is called for the call. -/
def Hooks (e : Code.Event C) : Prop :=
  ∃ here call record reply, call.toolCallId = callId ∧
    e.did (.ext (.postToolUse here call record)) reply

/-- Pydantic AI is handed this for the call. -/
def Hands (result : Except Raised Json) (e : Code.Event C) : Prop :=
  e.did (.ext (.mark (.handed callId result))) ()

/-- The call's handler came back with what makes this record. -/
def Gives (record : ToolRecord) (e : Code.Event C) : Prop :=
  ∃ call args reply, call.toolCallId = callId ∧ e.did (.ext (.handler call args)) reply ∧
    handlerRecord reply = some record

/-- Another branch was read to have completed the call with this value. -/
def CopiesFrom (value : Option Record) (e : Code.Event C) : Prop :=
  ∃ b' step, b' ≠ b ∧ step.status = .done ∧ step.value = value ∧
    e.did (.ledger (.read b' (stepKey callId))) (.ok step)

/-- The value is what the call's handler returned, or what a fork found under its source. -/
def AsReturned (value : Option Record) (log : List (Code.Event C)) : Prop :=
  (∃ e ∈ log, ∃ record, value = some (.tool record) ∧ Gives callId record e) ∨
  ∃ e ∈ log, CopiesFrom b callId value e

end property

/-- What the branch's steps and the log say of each other. -/
structure ProjectionInv (b : String) (h : Code.History (Turn b)) : Prop where
  /-- The result is committed before its projection. -/
  resultFirst : ∀ callId, (h.now.entry b (afterKey callId)).status = .done →
    (h.now.entry b (stepKey callId)).status = .done
  /-- The result is committed as it was returned. -/
  result : ∀ callId, (h.now.entry b (stepKey callId)).status = .done →
    AsReturned b callId (h.now.entry b (stepKey callId)).value h.log
  /-- A projection stays as it was stored. -/
  stored : ∀ callId p, ∀ e ∈ h.log, Stores b callId p e →
    (h.now.entry b (afterKey callId)).status = .done ∧
      (h.now.entry b (afterKey callId)).value = some (.after p)
  /-- Nothing else is stored as one. -/
  known : ∀ callId, (h.now.entry b (afterKey callId)).status = .done →
    ∃ e ∈ h.log, ∃ p, Stores b callId p e
  /-- Once it is stored, the controls are not asked, and other attempts hand it over. -/
  shown : Always (fun before e => ∀ callId p, ∀ d ∈ before, Stores b callId p d →
    ¬ Hooks callId e ∧
    ∀ result, d.tid ≠ e.tid → Hands callId result e → result = p.outcome) h.log

/-! ## Section 4: The contract -/

section contract

variable {b : String}

/-- A later attempt than `i` has moved. -/
def Overtaken (i : Nat) (h : Code.History (Turn b)) : Prop :=
  ∃ e ∈ h.log, e.call.drives = true ∧ i < e.tid

/-- Attempt `i` has moved. -/
def Acted (i : Nat) (h : Code.History (Turn b)) : Prop :=
  ∃ e ∈ h.log, e.call.drives = true ∧ e.tid = i

/-- It is `i`'s turn. -/
def MayMove (i : Nat) (call : Turn b) (h : Code.History (Turn b)) : Prop :=
  call.drives = true → ∀ e ∈ h.log, e.call.drives = true → e.tid ≤ i

/-- No projection was stored, and what was committed stays. -/
structure Unprojected (b : String) (h h' : Code.History (Turn b)) : Prop where
  log : ∃ more, h'.log = h.log ++ more ∧ ∀ e ∈ more, ∀ callId p, ¬ Stores b callId p e
  after : ∀ callId, h'.now.entry b (afterKey callId) = h.now.entry b (afterKey callId)
  done : ∀ callId, (h.now.entry b (stepKey callId)).status = .done →
    (h'.now.entry b (stepKey callId)).status = .done ∧
      (h'.now.entry b (stepKey callId)).value = (h.now.entry b (stepKey callId)).value

/-- What an attempt may rely on: once it has moved, the others store no projection before a
    later attempt moves. -/
structure TurnRely (b : String) (i : Nat) (h h' : Code.History (Turn b)) : Prop where
  log : h.log <+: h'.log
  quiet : Acted i h → Overtaken i h' ∨ Unprojected b h h'

/-- What each operation guarantees. -/
structure TurnGuar (b : String) (i : Nat) (call : Turn b) (h : Code.History (Turn b)) (o : Op)
    (r : o.Reply) (h' : Code.History (Turn b)) : Prop where
  log : h'.log = h.log ++ [⟨i, call, o, r, h'.now⟩]
  inv : ProjectionInv b h'
  inTurn : MayMove i call h
  bystander : call.drives = false → Unprojected b h h'

theorem Overtaken.mono {i : Nat} {h h' : Code.History (Turn b)} (hover : Overtaken i h)
    (hlog : h.log <+: h'.log) : Overtaken i h' := by
  obtain ⟨e, he, hdrives, hlt⟩ := hover
  exact ⟨e, hlog.subset he, hdrives, hlt⟩

theorem Acted.mono {i : Nat} {h h' : Code.History (Turn b)} (hacted : Acted i h)
    (hlog : h.log <+: h'.log) : Acted i h' := by
  obtain ⟨e, he, hdrives, heq⟩ := hacted
  exact ⟨e, hlog.subset he, hdrives, heq⟩

theorem Unprojected.refl (h : Code.History (Turn b)) : Unprojected b h h :=
  ⟨⟨[], (List.append_nil _).symm, by simp⟩, fun _ => rfl, fun _ hdone => ⟨hdone, rfl⟩⟩

theorem Unprojected.trans {h₁ h₂ h₃ : Code.History (Turn b)} (h : Unprojected b h₁ h₂)
    (h' : Unprojected b h₂ h₃) : Unprojected b h₁ h₃ where
  log := by
    obtain ⟨more, hlog, hmore⟩ := h.log
    obtain ⟨more', hlog', hmore'⟩ := h'.log
    refine ⟨more ++ more', by simp [hlog', hlog], ?_⟩
    intro e he
    exact (List.mem_append.mp he).elim (hmore e) (hmore' e)
  after callId := (h'.after callId).trans (h.after callId)
  done callId hdone := by
    have hmid := h.done callId hdone
    have hlast := h'.done callId hmid.1
    exact ⟨hlast.1, hlast.2.trans hmid.2⟩

theorem TurnRely.trans {i : Nat} {h₁ h₂ h₃ : Code.History (Turn b)} (h : TurnRely b i h₁ h₂)
    (h' : TurnRely b i h₂ h₃) : TurnRely b i h₁ h₃ where
  log := h.log.trans h'.log
  quiet hacted := by
    rcases h.quiet hacted with hover | hun
    · exact Or.inl (hover.mono h'.log)
    · exact (h'.quiet (hacted.mono h.log)).imp id fun hun' => hun.trans hun'

/-- What one thread guarantees, the others may rely on. -/
theorem TurnGuar.rely {i j : Nat} {call : Turn b} {h h' : Code.History (Turn b)} {o : Op}
    {r : o.Reply} (hguar : TurnGuar b i call h o r h') (hne : j ≠ i) : TurnRely b j h h' where
  log := by
    rw [hguar.log]
    exact List.prefix_append _ _
  quiet hacted := by
    cases hdrives : call.drives with
    | false => exact Or.inr (hguar.bystander hdrives)
    | true =>
      -- both run the agent: `i` is the later one
      obtain ⟨e, he, hedrives, rfl⟩ := hacted
      have hle : e.tid ≤ i := hguar.inTurn hdrives e he hedrives
      have hlt : e.tid < i := by omega
      refine Or.inl ⟨⟨i, call, o, r, h'.now⟩, ?_, hdrives, hlt⟩
      rw [hguar.log]
      simp

/-- The contract of a branch's turns. -/
def turnContract (b : String) : Contract (MemorySteps Record) Env (Turn b) Op.Reply where
  inv := ProjectionInv b
  ok i call h _ _ := MayMove i call h
  rely := TurnRely b
  guar := TurnGuar b
  rely_refl _ h := ⟨List.prefix_refl _, fun _ => Or.inr (Unprojected.refl h)⟩
  rely_trans := TurnRely.trans
  keep _ hguar := hguar.inv
  others _ hguar hne := hguar.rely hne

end contract

/-! ## Section 5: Assertions -/

section assertions

variable {b : String}

/-- `R`, as long as it is `i`'s turn. -/
def While (i : Nat) (R : Code.History (Turn b) → Prop) (h : Code.History (Turn b)) : Prop :=
  (∀ h, R h) ∨ Overtaken i h ∨ (Acted i h ∧ R h)

/-- What storing no projection cannot invalidate. -/
def Persists (b : String) (R : Code.History (Turn b) → Prop) : Prop :=
  ∀ h h', R h → Unprojected b h h' → R h'

/-- Only `i` has stored a projection of the call, if anyone has. -/
def Untouched (i : Nat) (callId : String) (h : Code.History (Turn b)) : Prop :=
  ∀ e ∈ h.log, ∀ p, Stores b callId p e → e.tid = i

/-- Only `i` has stored projections of the calls it asks again about. -/
def Own (i : Nat) (regate : List String) (h : Code.History (Turn b)) : Prop :=
  ∀ callId ∈ regate, Untouched i callId h

/-- The call's projection is stored. -/
structure Projected (callId : String) (p : ToolRecord) (h : Code.History (Turn b)) : Prop where
  committed : (h.now.entry b (stepKey callId)).status = .done
  status : (h.now.entry b (afterKey callId)).status = .done
  value : (h.now.entry b (afterKey callId)).value = some (.after p)

/-- The call's projection is not stored. -/
def Bare (callId : String) (h : Code.History (Turn b)) : Prop :=
  (h.now.entry b (afterKey callId)).status ≠ .done

/-- The call is committed with this value. -/
def Committed (callId : String) (value : Option Record) (h : Code.History (Turn b)) : Prop :=
  (h.now.entry b (stepKey callId)).status = .done ∧
    (h.now.entry b (stepKey callId)).value = value

/-- The call's handler came back with this record. -/
def Given (callId : String) (record : ToolRecord) (h : Code.History (Turn b)) : Prop :=
  ∃ e ∈ h.log, Gives callId record e

/-- What the projection of the call leads to, if it was stored before. -/
def Shows (i : Nat) (callId : String) (projected : Option Record)
    (h : Code.History (Turn b)) : Prop :=
  Untouched i callId h ∨ ∃ p, Projected callId p h ∧ projected = some (.tool p)

/-- What may be handed over for the call. -/
def Due (i : Nat) (callId : String) (result : Except Raised Json)
    (h : Code.History (Turn b)) : Prop :=
  Untouched i callId h ∨ ∃ p, Projected callId p h ∧ result = p.outcome

variable {i : Nat} {callId : String}

theorem Persists.and {R R' : Code.History (Turn b) → Prop} (hR : Persists b R)
    (hR' : Persists b R') : Persists b fun h => R h ∧ R' h :=
  fun h h' hpre hun => ⟨hR h h' hpre.1 hun, hR' h h' hpre.2 hun⟩

theorem Persists.imp {a : Prop} {R : Code.History (Turn b) → Prop} (hR : Persists b R) :
    Persists b fun h => a → R h :=
  fun h h' hpre hun ha => hR h h' (hpre ha) hun

theorem Persists.or {R R' : Code.History (Turn b) → Prop} (hR : Persists b R)
    (hR' : Persists b R') : Persists b fun h => R h ∨ R' h :=
  fun h h' hpre hun => hpre.imp (fun hpre => hR h h' hpre hun) fun hpre => hR' h h' hpre hun

theorem Persists.exists {ι : Type} {R : ι → Code.History (Turn b) → Prop}
    (hR : ∀ k, Persists b (R k)) : Persists b fun h => ∃ k, R k h := by
  intro h h' hpre hun
  obtain ⟨k, hk⟩ := hpre
  exact ⟨k, hR k h h' hk hun⟩

theorem persists_const {a : Prop} : Persists b fun _ => a := fun _ _ ha _ => ha

theorem persists_untouched : Persists b (Untouched i callId) := by
  intro h h' hpre hun
  obtain ⟨more, hlog, hmore⟩ := hun.log
  intro e he p hstores
  rw [hlog] at he
  rcases List.mem_append.mp he with he | he
  · exact hpre e he p hstores
  · exact absurd hstores (hmore e he callId p)

/-- One's own stores leave the call untouched by others. -/
theorem untouched_concat {h : Code.History (Turn b)} {e : Code.Event (Turn b)}
    {s : MemorySteps Record} (hpre : Untouched i callId h) (he : e.tid = i) :
    Untouched i callId (⟨s, h.log ++ [e]⟩ : Code.History (Turn b)) := by
  intro d hd p hst
  rcases List.mem_append.mp hd with hd | hd
  · exact hpre d hd p hst
  · obtain rfl := List.mem_singleton.mp hd
    exact he

theorem own_concat {regate : List String} {h : Code.History (Turn b)}
    {e : Code.Event (Turn b)} {s : MemorySteps Record} (hpre : Own i regate h) (he : e.tid = i) :
    Own i regate (⟨s, h.log ++ [e]⟩ : Code.History (Turn b)) :=
  fun callId hcall => untouched_concat (hpre callId hcall) he

theorem persists_own (regate : List String) : Persists b (Own i regate) :=
  fun h h' hpre hun callId hcall => persists_untouched h h' (hpre callId hcall) hun

theorem persists_projected (p : ToolRecord) : Persists b (Projected callId p) := by
  intro h h' hpre hun
  refine ⟨(hun.done callId hpre.committed).1, ?_, ?_⟩
  · rw [hun.after]
    exact hpre.status
  · rw [hun.after]
    exact hpre.value

theorem persists_bare : Persists b (Bare callId) := by
  intro h h' hpre hun
  show (h'.now.entry b (afterKey callId)).status ≠ .done
  rw [hun.after]
  exact hpre

theorem persists_committed (value : Option Record) : Persists b (Committed callId value) := by
  intro h h' hpre hun
  have hdone := hun.done callId hpre.1
  exact ⟨hdone.1, hdone.2.trans hpre.2⟩

theorem persists_given (record : ToolRecord) : Persists b (Given callId record) := by
  intro h h' hpre hun
  obtain ⟨e, he, hgives⟩ := hpre
  obtain ⟨more, hlog, _⟩ := hun.log
  refine ⟨e, ?_, hgives⟩
  rw [hlog]
  exact List.mem_append_left more he

theorem persists_shows (projected : Option Record) : Persists b (Shows i callId projected) :=
  persists_untouched.or (Persists.exists fun p => (persists_projected p).and persists_const)

theorem persists_due (result : Except Raised Json) : Persists b (Due i callId result) :=
  persists_untouched.or (Persists.exists fun p => (persists_projected p).and persists_const)

/-- Others cannot invalidate it. -/
theorem Persists.stable {R : Code.History (Turn b) → Prop} (hR : Persists b R) :
    Stable (turnContract b) i (While i R) := by
  intro h h' hpre hrely _
  rcases hpre with hall | hover | ⟨hacted, hpre⟩
  · exact Or.inl hall
  · exact Or.inr (Or.inl (hover.mono hrely.log))
  · rcases hrely.quiet hacted with hover | hun
    · exact Or.inr (Or.inl hover)
    · exact Or.inr (Or.inr ⟨hacted.mono hrely.log, hR h h' hpre hun⟩)

theorem While.mono {R R' : Code.History (Turn b) → Prop} {h : Code.History (Turn b)}
    (hpre : While i R h) (hR : ∀ h, R h → R' h) : While i R' h :=
  hpre.imp (fun hall h => hR h (hall h)) fun hrest =>
    hrest.imp id fun hpre => ⟨hpre.1, hR h hpre.2⟩

/-- It is `i`'s turn. -/
theorem While.here {R : Code.History (Turn b) → Prop} {h : Code.History (Turn b)} {call : Turn b}
    (hpre : While i R h) (hdrives : call.drives = true) (hmay : MayMove i call h) : R h := by
  rcases hpre with hall | ⟨e, he, hedrives, hlt⟩ | ⟨_, hpre⟩
  · exact hall h
  · have hle : e.tid ≤ i := hmay hdrives e he hedrives
    omega
  · exact hpre

end assertions

/-! ## Section 6: One operation -/

section events

variable {b : String} {i : Nat} {call : Turn b} {h : Code.History (Turn b)}

/-- An operation that stores no projection keeps the invariant. -/
theorem unprojected_step {o : Op} {r : o.Reply} {s : MemorySteps Record}
    (hinv : ProjectionInv b h) (hmay : MayMove i call h)
    (hstores : ∀ callId p, ¬ Stores b callId p (⟨i, call, o, r, s⟩ : Code.Event (Turn b)))
    (hafter : ∀ callId, s.entry b (afterKey callId) = h.now.entry b (afterKey callId))
    (hdone : ∀ callId, (h.now.entry b (stepKey callId)).status = .done →
      (s.entry b (stepKey callId)).status = .done ∧
        (s.entry b (stepKey callId)).value = (h.now.entry b (stepKey callId)).value)
    (hresult : ∀ callId, (h.now.entry b (stepKey callId)).status ≠ .done →
      (s.entry b (stepKey callId)).status = .done →
        AsReturned b callId (s.entry b (stepKey callId)).value (h.log ++ [⟨i, call, o, r, s⟩]))
    (hshown : ∀ callId p, ∀ d ∈ h.log, Stores b callId p d →
      ¬ Hooks callId (⟨i, call, o, r, s⟩ : Code.Event (Turn b)) ∧
      ∀ result, d.tid ≠ i → Hands callId result (⟨i, call, o, r, s⟩ : Code.Event (Turn b)) →
        result = p.outcome) :
    TurnGuar b i call h o r (Code.next h i call o r s) ∧
      Unprojected b h (Code.next h i call o r s) := by
  -- Nothing is stored by this operation, and no result is taken back.
  have hun : Unprojected b h (Code.next h i call o r s) := by
    refine ⟨⟨_, rfl, ?_⟩, hafter, hdone⟩
    intro e he
    obtain rfl := List.mem_singleton.mp he
    exact hstores
  -- So every store in the longer log is an old one.
  have hold : ∀ callId p, ∀ e ∈ h.log ++ [(⟨i, call, o, r, s⟩ : Code.Event (Turn b))],
      Stores b callId p e → e ∈ h.log := by
    intro callId p e he hst
    rcases List.mem_append.mp he with he | he
    · exact he
    · obtain rfl := List.mem_singleton.mp he
      exact absurd hst (hstores callId p)
  refine ⟨⟨rfl, ?_, hmay, fun _ => hun⟩, hun⟩
  refine {
    resultFirst := ?_
    result := ?_
    stored := ?_
    known := ?_
    shown := always_concat.mpr ⟨hinv.shown, hshown⟩ }
  · -- resultFirst: the stored projection is an old one, its result was there before.
    intro callId hstatus
    rw [hun.after] at hstatus
    exact (hdone callId (hinv.resultFirst callId hstatus)).1
  · -- result: either the result was there before, or this operation finished it.
    intro callId hstatus
    -- An old result kept its value, and what it was returned for is still in the log.
    by_cases hbefore : (h.now.entry b (stepKey callId)).status = .done
    · have hvalue := (hdone callId hbefore).2
      show AsReturned b callId (s.entry b (stepKey callId)).value _
      rw [hvalue]
      refine (hinv.result callId hbefore).imp ?_ ?_
      · rintro ⟨e, he, hgives⟩
        exact ⟨e, List.mem_append_left _ he, hgives⟩
      · rintro ⟨e, he, hcopies⟩
        exact ⟨e, List.mem_append_left _ he, hcopies⟩
    · exact hresult callId hbefore hstatus
  · -- stored: both the store and the row are old.
    intro callId p e he hst
    rw [hun.after]
    exact hinv.stored callId p e (hold callId p e he hst) hst
  · -- known: the row is as it was, so the store that made it is too.
    intro callId hstatus
    rw [hun.after] at hstatus
    obtain ⟨e, he, p, hst⟩ := hinv.known callId hstatus
    exact ⟨e, List.mem_append_left _ he, p, hst⟩

/-- A call of the ledger that writes no projection, and no result as control state. -/
theorem ledger_step {op : LedgerOp Record} {now later : ℚ} {r : Except StoreError op.Reply}
    {s : MemorySteps Record} (hinv : ProjectionInv b h) (hmay : MayMove i call h)
    (hperform : op.perform now later h.now = (r, s))
    (hafter : ∀ callId, op.branchId ≠ b ∨ afterKey callId ∉ op.keys)
    (hcontrol : ∀ callId, op.branchId ≠ b ∨ stepKey callId ∉ op.controlKeys)
    (hresult : ∀ callId, (h.now.entry b (stepKey callId)).status ≠ .done →
      (s.entry b (stepKey callId)).status = .done →
        AsReturned b callId (s.entry b (stepKey callId)).value
          (h.log ++ [⟨i, call, .ledger op, r, s⟩])) :
    TurnGuar b i call h (.ledger op) r (Code.next h i call (.ledger op) r s) ∧
      Unprojected b h (Code.next h i call (.ledger op) r s) := by
  obtain rfl : (op.perform now later h.now).2 = s := by rw [hperform]
  -- A ledger operation hands nothing over and runs no hook, and stores a projection only where it
  -- names its key.
  refine unprojected_step hinv hmay ?_ ?_ ?_ hresult ?_
  · -- A store would write `afterKey callId`, which `op` does not name.
    rintro callId p ⟨token, hdid⟩
    obtain rfl : op = _ := Op.ledger.inj (Event.op_of_did hdid)
    simpa [LedgerOp.branchId, LedgerOp.keys] using hafter callId
  · intro callId
    exact perform_entry op now later h.now (hafter callId)
  · -- Outside control keys a row only advances, so what is done stays done with its value.
    intro callId hdone
    exact (perform_move op now later h.now (hcontrol callId)).advances.done hdone
  · intro callId p d _ _
    refine ⟨?_, ?_⟩
    · rintro ⟨_, _, _, _, _, hdid⟩
      cases Event.op_of_did hdid
    · intro result _ hdid
      cases Event.op_of_did hdid

/-- A question leaves the ledger as it is. -/
theorem ask_step {e : External} {r : e.Reply} (hinv : ProjectionInv b h) (hmay : MayMove i call h)
    (hshown : ∀ callId p, ∀ d ∈ h.log, Stores b callId p d →
      ¬ Hooks callId (⟨i, call, .ext e, r, h.now⟩ : Code.Event (Turn b)) ∧
      ∀ result, d.tid ≠ i →
        Hands callId result (⟨i, call, .ext e, r, h.now⟩ : Code.Event (Turn b)) →
          result = p.outcome) :
    TurnGuar b i call h (.ext e) r (Code.next h i call (.ext e) r h.now) ∧
      Unprojected b h (Code.next h i call (.ext e) r h.now) := by
  refine unprojected_step hinv hmay ?_ (fun _ => rfl) (fun _ hdone => ⟨hdone, rfl⟩) ?_ hshown
  · rintro callId p ⟨token, hdid⟩
    cases Event.op_of_did hdid
  · intro callId hbefore hstatus
    exact absurd hstatus hbefore

/-- `finish_effect`, with a value that was returned. -/
theorem finish_step {callId : String} {value : Option Record} {token : Int} {now later : ℚ}
    {r : Except StoreError Unit} {s : MemorySteps Record} (hinv : ProjectionInv b h)
    (hmay : MayMove i call h)
    (hperform : (LedgerOp.finishEffect b (stepKey callId) value token).perform now later h.now
      = (r, s))
    (hvalue : ∀ log, h.log ⊆ log → AsReturned b callId value log) :
    TurnGuar b i call h (.ledger (.finishEffect b (stepKey callId) value token)) r
        (Code.next h i call (.ledger (.finishEffect b (stepKey callId) value token)) r s) ∧
      Unprojected b h
        (Code.next h i call (.ledger (.finishEffect b (stepKey callId) value token)) r s) := by
  -- `finish_effect` writes one step key: no projection's key and no control state.
  refine ledger_step hinv hmay hperform
    (fun callId' => Or.inr (by simpa [LedgerOp.keys] using (stepKey_ne_afterKey callId callId').symm))
    (fun _ => Or.inr (by simp [LedgerOp.controlKeys])) ?_
  intro callId' hbefore hstatus
  -- A step that was not done before can only have been finished by this very call.
  rcases finishEffect_cases h.now b (stepKey callId) value token with
    ⟨_, heq⟩ | ⟨_, _, heq⟩ | ⟨_, heq⟩
  · -- Refused: the rows are as before.
    obtain ⟨-, rfl⟩ := Prod.mk.inj (hperform.symm.trans heq)
    exact absurd hstatus hbefore
  · -- Finished before: the rows are as before.
    obtain ⟨-, rfl⟩ := Prod.mk.inj (hperform.symm.trans heq)
    exact absurd hstatus hbefore
  · obtain ⟨-, rfl⟩ := Prod.mk.inj (hperform.symm.trans heq)
    rw [entry_setEntry] at hstatus ⊢
    -- Only the row of `callId` changed.
    by_cases hkey : stepKey callId' = stepKey callId
    · rw [if_pos ⟨rfl, hkey⟩]
      obtain rfl := stepKey_inj hkey
      exact hvalue _ (List.subset_append_left _ _)
    · rw [if_neg fun hand => hkey hand.2] at hstatus
      exact absurd hstatus hbefore

/-- What stores a projection was accepted. -/
theorem Stores.accepted {callId : String} {p : ToolRecord} {op : LedgerOp Record}
    {r : Except StoreError op.Reply} {s : MemorySteps Record}
    (hst : Stores b callId p (⟨i, call, .ledger op, r, s⟩ : Code.Event (Turn b))) :
    ∃ a, r = .ok a := by
  obtain ⟨token, hdid⟩ := hst
  obtain rfl : op = _ := Op.ledger.inj (Event.op_of_did hdid)
  cases hdid
  exact ⟨_, rfl⟩

/-- A projection that is stored for the first time, after its result. -/
theorem stored_step {callId : String} {p : ToolRecord} {token : Int} {version : Nat}
    (hinv : ProjectionInv b h) (hmay : MayMove i call h) (hdrives : call.drives = true)
    (hdone : (h.now.entry b (stepKey callId)).status = .done)
    (hbare : (h.now.entry b (afterKey callId)).status ≠ .done) :
    TurnGuar b i call h (.ledger (.writeControl b (afterKey callId) (some (.after p)) token))
      (.ok () : Except StoreError Unit)
      (Code.next h i call (.ledger (.writeControl b (afterKey callId) (some (.after p)) token))
        (.ok () : Except StoreError Unit) (h.now.setEntry b (afterKey callId)
          { status := .done, value := some (.after p), version := version })) := by
  -- The store writes the row of `callId`'s projection: every result, and every other projection, is
  -- left alone.
  have hsteps : ∀ callId', (h.now.setEntry b (afterKey callId)
      { status := .done, value := some (.after p), version := version }).entry b (stepKey callId')
        = h.now.entry b (stepKey callId') := by
    intro callId'
    rw [entry_setEntry, if_neg fun hand => stepKey_ne_afterKey callId' callId hand.2]
  have hothers : ∀ callId', callId' ≠ callId → (h.now.setEntry b (afterKey callId)
      { status := .done, value := some (.after p), version := version }).entry b (afterKey callId')
        = h.now.entry b (afterKey callId') := by
    intro callId' hne
    rw [entry_setEntry, if_neg fun hand => hne (afterKey_inj hand.2)]
  -- The row was bare, so by the invariant nothing in the log has stored it.
  have hnone : ∀ p', ∀ e ∈ h.log, ¬ Stores b callId p' e :=
    fun p' e he hst => hbare (hinv.stored callId p' e he hst).1
  refine ⟨rfl, ?_, hmay, fun hnot => by rw [hdrives] at hnot; cases hnot⟩
  refine {
    resultFirst := ?_
    result := ?_
    stored := ?_
    known := ?_
    shown := always_concat.mpr ⟨hinv.shown, ?_⟩ }
  · -- resultFirst: the projected call has its result by hypothesis, the others as before.
    intro callId' hstatus
    show ((h.now.setEntry b _ _).entry b (stepKey callId')).status = .done
    rw [hsteps]
    by_cases hid : callId' = callId
    · rw [hid]
      exact hdone
    · refine hinv.resultFirst callId' ?_
      rw [← hothers callId' hid]
      exact hstatus
  · -- result: no result row changed.
    intro callId' hstatus
    have hvalue : AsReturned b callId' (h.now.entry b (stepKey callId')).value h.log := by
      refine hinv.result callId' ?_
      rw [← hsteps callId']
      exact hstatus
    show AsReturned b callId' ((h.now.setEntry b _ _).entry b (stepKey callId')).value _
    rw [hsteps]
    refine hvalue.imp ?_ ?_
    · rintro ⟨e, he, hgives⟩
      exact ⟨e, List.mem_append_left _ he, hgives⟩
    · rintro ⟨e, he, hcopies⟩
      exact ⟨e, List.mem_append_left _ he, hcopies⟩
  · -- stored: an old store is of another call, for this one had none.
    intro callId' p' e he hst
    rcases List.mem_append.mp he with hold | he
    · have hid : callId' ≠ callId := fun heq => hnone p' e hold (heq ▸ hst)
      show ((h.now.setEntry b _ _).entry b (afterKey callId')).status = .done ∧
        ((h.now.setEntry b _ _).entry b (afterKey callId')).value = _
      rw [hothers callId' hid]
      exact hinv.stored callId' p' e hold hst
    · -- The new store is of `callId`, and wrote exactly `p`.
      obtain rfl := List.mem_singleton.mp he
      obtain ⟨token', hdid⟩ := hst
      have hop := Op.ledger.inj (Event.op_of_did hdid)
      simp only [LedgerOp.writeControl.injEq, Option.some.injEq, Record.after.injEq, true_and]
        at hop
      obtain ⟨hkey, rfl, _⟩ := hop
      obtain rfl := afterKey_inj hkey
      show ((h.now.setEntry b _ _).entry b (afterKey callId)).status = .done ∧
        ((h.now.setEntry b _ _).entry b (afterKey callId)).value = _
      rw [entry_setEntry_self]
      exact ⟨rfl, rfl⟩
  · -- known: this very operation is the store of `callId`; the others are known as before.
    intro callId' hstatus
    by_cases hid : callId' = callId
    · subst hid
      refine ⟨_, List.mem_append_right _ (List.mem_singleton_self _), p, token, rfl⟩
    · have hbefore : (h.now.entry b (afterKey callId')).status = .done := by
        rw [← hothers callId' hid]
        exact hstatus
      obtain ⟨e, he, p', hst⟩ := hinv.known callId' hbefore
      exact ⟨e, List.mem_append_left _ he, p', hst⟩
  · -- shown: a store neither runs the hook nor hands a result over.
    intro callId' p' d _ _
    refine ⟨?_, ?_⟩
    · rintro ⟨_, _, _, _, _, hdid⟩
      cases Event.op_of_did hdid
    · intro result _ hdid
      cases Event.op_of_did hdid

/-- What keeps a persistent assertion, in `i`'s turn. -/
theorem While.next {R : Code.History (Turn b) → Prop} (hR : Persists b R)
    (hdrives : call.drives = true) (hpre : R h) {o : Op} {r : o.Reply} {s : MemorySteps Record}
    (hun : Unprojected b h (Code.next h i call o r s)) :
    While i R (Code.next h i call o r s) := by
  refine Or.inr (Or.inr ⟨⟨⟨i, call, o, r, s⟩, ?_, hdrives, rfl⟩, hR h _ hpre hun⟩)
  simp [Code.next]

/-- What any part of an attempt may do without looking: questions but for `post_tool_use`, and
    calls that leave results and projections alone or begin and clear an attempt at a result. -/
def Plain (b : String) : Op → Prop
  | .ledger op => op.branchId ≠ b ∨
      (∀ callId, stepKey callId ∉ op.keys ∧ afterKey callId ∉ op.keys) ∨
      ∃ callId token, op = .start b (stepKey callId) token ∨ op = .forget b (stepKey callId) token
  | .ext (.postToolUse ..) => False
  | .ext (.mark (.handed ..)) => False
  | .ext _ => True

theorem start_undone {s : MemorySteps Record} {key key' : String} {token : Int}
    (hbefore : (s.entry b key').status ≠ .done) :
    ((s.start b key token).2.entry b key').status ≠ .done := by
  rcases start_cases s b key token with ⟨_, heq⟩ | heq | ⟨_, _, heq⟩
  · rwa [heq]
  · rwa [heq]
  · rw [heq, entry_setEntry]
    split
    · simp
    · exact hbefore

theorem forget_undone {s : MemorySteps Record} {key key' : String} {token : Int}
    (hbefore : (s.entry b key').status ≠ .done) :
    ((s.forget b key token).2.entry b key').status ≠ .done := by
  rcases forget_cases s b key token with ⟨_, heq⟩ | ⟨_, heq⟩ | ⟨_, heq⟩
  · rwa [heq]
  · rw [heq, entry_setEntry]
    split
    · simp
    · exact hbefore
  · rwa [heq]

/-- A plain call stores no projection, and completes no result. -/
theorem plain_ledger_step {op : LedgerOp Record} (ho : Plain b (.ledger op)) {now later : ℚ}
    {r : Except StoreError op.Reply} {s : MemorySteps Record} (hinv : ProjectionInv b h)
    (hmay : MayMove i call h) (hperform : op.perform now later h.now = (r, s)) :
    TurnGuar b i call h (.ledger op) r (Code.next h i call (.ledger op) r s) ∧
      Unprojected b h (Code.next h i call (.ledger op) r s) := by
  -- A plain operation is of another branch, of other keys, or a `start` or `forget` of a step: none
  -- of these names a projection.
  have hafter : ∀ callId, op.branchId ≠ b ∨ afterKey callId ∉ op.keys := by
    intro callId
    rcases ho with hb | hkeys | ⟨callId', token, rfl | rfl⟩
    · exact Or.inl hb
    · exact Or.inr (hkeys callId).2
    · exact Or.inr (by simpa [LedgerOp.keys] using (stepKey_ne_afterKey callId' callId).symm)
    · exact Or.inr (by simpa [LedgerOp.keys] using (stepKey_ne_afterKey callId' callId).symm)
  have hcontrol : ∀ callId, op.branchId ≠ b ∨ stepKey callId ∉ op.controlKeys := by
    intro callId
    rcases ho with hb | hkeys | ⟨callId', token, rfl | rfl⟩
    · exact Or.inl hb
    · exact Or.inr fun hmem => (hkeys callId).1 (LedgerOp.keys_of_controlKeys hmem)
    · exact Or.inr (by simp [LedgerOp.controlKeys])
    · exact Or.inr (by simp [LedgerOp.controlKeys])
  -- And none of these finishes a step.
  refine ledger_step hinv hmay hperform hafter hcontrol ?_
  obtain rfl : (op.perform now later h.now).2 = s := by rw [hperform]
  intro callId hbefore hstatus
  exfalso
  rcases ho with hb | hkeys | ⟨callId', token, rfl | rfl⟩
  · have hsame : (op.perform now later h.now).2.entry b (stepKey callId)
        = h.now.entry b (stepKey callId) := perform_entry op now later h.now (Or.inl hb)
    exact hbefore (by rw [← hsame]; exact hstatus)
  · have hsame := perform_entry op now later h.now (b := b) (Or.inr (hkeys callId).1)
    exact hbefore (by rw [← hsame]; exact hstatus)
  · exact start_undone hbefore hstatus
  · exact forget_undone hbefore hstatus

/-- A plain operation stores no projection, and completes no result. -/
theorem plain_step {o : Op} (ho : Plain b o) (x : Env) (hinv : ProjectionInv b h)
    (hmay : MayMove i call h) :
    TurnGuar b i call h o (Semora.perform h.now x o).1
        (Code.next h i call o (Semora.perform h.now x o).1 (Semora.perform h.now x o).2) ∧
      Unprojected b h
        (Code.next h i call o (Semora.perform h.now x o).1 (Semora.perform h.now x o).2) := by
  cases o with
  | ledger op =>
    exact plain_ledger_step ho hinv hmay (Prod.ext rfl rfl : op.perform x.now x.later h.now = _)
  | ext e =>
    refine ask_step hinv hmay ?_
    intro callId p d _ _
    refine ⟨?_, ?_⟩
    · rintro ⟨here, call', record, reply, _, hdid⟩
      cases Event.op_of_did hdid
      exact ho
    · intro result _ hdid
      cases Event.op_of_did hdid
      exact False.elim ho

end events

/-! ## Section 7: The journal -/

section code

variable {b : String} {i : Nat} {call : Turn b} {α : Type}
  {P E : Code.History (Turn b) → Prop}

/-- The triples of a turn's code. -/
abbrev TTriple (i : Nat) (call : Turn b) (P : Code.History (Turn b) → Prop) (x : Code α)
    (Q : α → Code.History (Turn b) → Prop) (E : Raised → Code.History (Turn b) → Prop) : Prop :=
  Code.Triple (fun _ turn => turnBody turn) (turnContract b) i call P x Q E

/-- Plain code keeps what persists. -/
theorem plain_triple {x : Code α} (hx : Code.Only (Plain b) x) (hdrives : call.drives = true)
    (hP : Persists b P) : TTriple i call (While i P) x (fun _ => While i P) fun _ => While i P := by
  refine Code.Triple.invariant hx hP.stable ?_
  intro o ho h x hinv hpre hmay
  have hstep := plain_step ho x hinv hmay
  exact ⟨hstep.1, While.next hP hdrives (hpre.here hdrives hmay) hstep.2⟩

theorem plain_attempt {x : AttemptM α} (hx : AttemptM.Only (Plain b) x)
    (hdrives : call.drives = true) (hP : Persists b P) :
    AttemptM.Triple (fun _ turn => turnBody turn) (turnContract b) i call (fun _ => While i P) x
      (fun _ _ => While i P) fun _ _ => While i P := by
  refine AttemptM.Triple.invariant hx hP.stable ?_
  intro o ho h x hinv hpre hmay
  have hstep := plain_step ho x hinv hmay
  exact ⟨hstep.1, While.next hP hdrives (hpre.here hdrives hmay) hstep.2⟩

/-- After an operation of one's own. -/
theorem While.now {R : Code.History (Turn b) → Prop} {h : Code.History (Turn b)} {o : Op}
    {r : o.Reply} {s : MemorySteps Record} (hdrives : call.drives = true)
    (hR : R (Code.next h i call o r s)) : While i R (Code.next h i call o r s) := by
  refine Or.inr (Or.inr ⟨⟨⟨i, call, o, r, s⟩, ?_, hdrives, rfl⟩, hR⟩)
  simp [Code.next]

/-- A call of the ledger, from what it does in `i`'s turn. -/
theorem ledger_triple {op : LedgerOp Record} {R : op.Reply → Code.History (Turn b) → Prop}
    (hdrives : call.drives = true) (hP : Persists b P) (hR : ∀ a, Persists b (R a))
    (hE : Persists b E)
    (hop : ∀ h (x : Env) r s, ProjectionInv b h → MayMove i call h → P h →
      op.perform x.now x.later h.now = (r, s) →
      TurnGuar b i call h (.ledger op) r (Code.next h i call (.ledger op) r s) ∧
        match r with
        | .ok a => R a (Code.next h i call (.ledger op) r s)
        | .error _ => E (Code.next h i call (.ledger op) r s)) :
    TTriple i call (While i P) (Code.ledger op) (fun a => While i (R a)) fun _ => While i E := by
  refine Code.Triple.ledger hP.stable ?_ (fun a => (hR a).stable) fun _ => hE.stable
  intro h x r s hinv hpre hmay hperform
  obtain ⟨hguar, hpost⟩ := hop h x r s hinv hmay (hpre.here hdrives hmay) hperform
  refine ⟨hguar, ?_⟩
  cases r with
  | ok a => exact While.now hdrives hpost
  | error e => exact While.now hdrives hpost

/-- A question, from what is known of its answer in `i`'s turn. -/
theorem ask_triple {e : External} (heq : e.Reply = Except Raised α)
    {R : α → Code.History (Turn b) → Prop} (hdrives : call.drives = true) (hP : Persists b P)
    (hR : ∀ a, Persists b (R a)) (hE : Persists b E)
    (hop : ∀ h, ProjectionInv b h → MayMove i call h → P h → ∀ r : e.Reply,
      TurnGuar b i call h (.ext e) r (Code.next h i call (.ext e) r h.now) ∧
        match cast heq r with
        | .ok a => R a (Code.next h i call (.ext e) r h.now)
        | .error _ => E (Code.next h i call (.ext e) r h.now)) :
    TTriple i call (While i P) (Code.ask e heq) (fun a => While i (R a)) fun _ => While i E := by
  refine Code.Triple.ask heq hP.stable ?_ (fun a => (hR a).stable) fun _ => hE.stable
  intro h x hinv hpre hmay r
  obtain ⟨hguar, hpost⟩ := hop h hinv hmay (hpre.here hdrives hmay) r
  refine ⟨hguar, ?_⟩
  cases hr : cast heq r with
  | ok a =>
    rw [hr] at hpost
    exact While.now hdrives hpost
  | error err =>
    rw [hr] at hpost
    exact While.now hdrives hpost

end code

section journal

variable {b : String} {i : Nat} {call : Turn b} {callId : String} {regate : List String}
  {j : EffectJournal}

/-- The frame of a tool call: the projections of the calls that are asked about again. -/
abbrev Held (i : Nat) (regate : List String) (R : Code.History (Turn b) → Prop) :
    Code.History (Turn b) → Prop :=
  While i fun h => Own i regate h ∧ R h

/-- Whatever projection is stored is known, and then the result is committed. -/
theorem ProjectionInv.seen {h : Code.History (Turn b)} (hinv : ProjectionInv b h) (i : Nat)
    (callId : String) :
    (Untouched i callId h ∧ Bare callId h) ∨ ∃ p, Projected callId p h := by
  by_cases hstatus : (h.now.entry b (afterKey callId)).status = .done
  · obtain ⟨e, he, p, hst⟩ := hinv.known callId hstatus
    exact Or.inr ⟨p, hinv.resultFirst callId hstatus, hstatus, (hinv.stored callId p e he hst).2⟩
  · refine Or.inl ⟨fun e he p hst => ?_, hstatus⟩
    exact absurd (hinv.stored callId p e he hst).1 hstatus

theorem reclaim_plain (hj : j.store.name j.branchId = b) (step : Step Record) :
    Code.Only (Plain b) (j.reclaim (stepKey callId) step) := by
  refine Code.Only.ite (fun _ => ?_) fun _ => Code.only_pure _
  refine Code.Only.ite (fun _ => Code.only_throw _) fun _ => Code.only_ledger ?_
  exact Or.inr (Or.inr ⟨callId, j.token, Or.inr (by rw [hj])⟩)

theorem begin_plain (hj : j.store.name j.branchId = b) :
    Code.Only (Plain b) (j.begin_ (stepKey callId)) := by
  have hstart : Code.Only (Plain b) (j.store.start j.branchId (stepKey callId) j.token) :=
    Code.only_ledger (Or.inr (Or.inr ⟨callId, j.token, Or.inl (by rw [hj])⟩))
  have hread : Code.Only (Plain b) (j.store.read j.branchId (stepKey callId)) :=
    Code.only_ledger (Or.inr (Or.inl (by simp [LedgerOp.keys])))
  refine hstart.bind fun began => ?_
  cases began with
  | true => exact Code.only_pure _
  | false => exact hread.bind fun _ => Code.only_throw _

/-- What a read of a step finds is there. -/
theorem read_step {h : Code.History (Turn b)} {key : String} {now later : ℚ}
    {r : Except StoreError (Step Record)} {s : MemorySteps Record} (hinv : ProjectionInv b h)
    (hmay : MayMove i call h)
    (hperform : (LedgerOp.read b key).perform now later h.now = (r, s)) :
    r = .ok (h.now.entry b key) ∧ s = h.now ∧
      TurnGuar b i call h (.ledger (.read b key)) r
        (Code.next h i call (.ledger (.read b key)) r s) ∧
      Unprojected b h (Code.next h i call (.ledger (.read b key)) r s) := by
  obtain ⟨rfl, rfl⟩ := Prod.mk.inj hperform
  refine ⟨rfl, rfl, ledger_step hinv hmay
    (Prod.ext rfl rfl : (LedgerOp.read b key).perform now later h.now = _) ?_ ?_ ?_⟩
  · exact fun _ => Or.inr (by simp [LedgerOp.keys])
  · exact fun _ => Or.inr (by simp [LedgerOp.controlKeys])
  · intro callId hbefore hstatus
    exact absurd hstatus hbefore

/-- Reading the call's step in its turn. -/
theorem read_triple (regate : List String) (callId : String) (hj : j.store.name j.branchId = b)
    (hdrives : call.drives = true) :
    TTriple i call (Held i regate fun _ => True) (j.store.read j.branchId (stepKey callId))
      (fun step => Held i regate fun h =>
        (step.status = .done → Committed callId step.value h) ∧
        (step.status ≠ .done → Untouched i callId h)) fun _ => While i fun _ => False := by
  subst hj
  refine ledger_triple hdrives ((persists_own regate).and persists_const)
    (fun step => (persists_own regate).and ((persists_committed _).imp.and persists_untouched.imp))
    persists_const ?_
  intro h x r s hinv hmay hpre hperform
  obtain ⟨rfl, rfl, hguar, hun⟩ := read_step hinv hmay hperform
  have hown := persists_own regate _ _ hpre.1 hun
  refine ⟨hguar, hown, ?_, ?_⟩
  · intro hdone
    exact persists_committed _ _ _ ⟨hdone, rfl⟩ hun
  · intro hdone
    rcases hinv.seen i callId with hbare | ⟨p, hprojected⟩
    · exact persists_untouched _ _ hbare.1 hun
    · exact absurd hprojected.committed hdone

/-- What never raises may raise anything. -/
theorem raises_nothing {α : Type} {P : Code.History (Turn b) → Prop} {x : Code α}
    {Q : α → Code.History (Turn b) → Prop} (R : Code.History (Turn b) → Prop)
    (hx : TTriple i call P x Q fun _ => While i fun _ => False) :
    TTriple i call P x Q fun _ => While i R :=
  hx.mono (fun _ _ h => h) (fun _ _ _ h => h) fun _ _ _ hfalse => hfalse.mono fun _ h => h.elim

/-- The handler is asked: what it comes to is known. -/
theorem handler_triple (toolCall : ToolCall) (args : Json) (hdrives : call.drives = true) :
    TTriple i call (Held i regate (Untouched i toolCall.toolCallId))
      (Code.attempt (Code.ask (.handler toolCall args)))
      (fun outcome => Held i regate fun h => Untouched i toolCall.toolCallId h ∧
        ∀ record, handlerRecord outcome = some record → Given toolCall.toolCallId record h)
      fun _ _ => False := by
  have hP : Persists b fun h => Own i regate h ∧ Untouched i toolCall.toolCallId h :=
    (persists_own regate).and persists_untouched
  have hpost : ∀ outcome : Except Raised Json, Persists b fun h => Own i regate h ∧
      (Untouched i toolCall.toolCallId h ∧
        ∀ record, handlerRecord outcome = some record → Given toolCall.toolCallId record h) := by
    intro outcome h h' hpre hun
    refine ⟨persists_own regate h h' hpre.1 hun, persists_untouched h h' hpre.2.1 hun, ?_⟩
    intro record hrecord
    exact persists_given record h h' (hpre.2.2 record hrecord) hun
  -- Asked directly, a value and a raise are two posts; `attempt` makes one of the two.
  have hasked : TTriple i call (Held i regate (Untouched i toolCall.toolCallId))
      (Code.ask (.handler toolCall args))
      (fun value => Held i regate fun h => Untouched i toolCall.toolCallId h ∧
        ∀ record, handlerRecord (.ok value) = some record → Given toolCall.toolCallId record h)
      fun error => Held i regate fun h => Untouched i toolCall.toolCallId h ∧
        ∀ record, handlerRecord (.error error) = some record →
          Given toolCall.toolCallId record h := by
    refine Code.Triple.ask rfl hP.stable ?_ (fun value => (hpost (.ok value)).stable)
      fun error => (hpost (.error error)).stable
    -- The event itself is the witness that the record was given.
    intro h x hinv hpre hmay r
    have hhere := hpre.here hdrives hmay
    have hstep : TurnGuar b i call h (.ext (.handler toolCall args)) r
        (Code.next h i call (.ext (.handler toolCall args)) r h.now) ∧
        Unprojected b h (Code.next h i call (.ext (.handler toolCall args)) r h.now) := by
      refine ask_step hinv hmay fun callId p d _ _ => ⟨?_, ?_⟩
      · rintro ⟨_, _, _, _, _, hdid⟩
        cases Event.op_of_did hdid
      · intro result _ hdid
        cases Event.op_of_did hdid
    have hgiven : ∀ record, handlerRecord r = some record → Given toolCall.toolCallId record
        (Code.next h i call (.ext (.handler toolCall args)) r h.now) := by
      intro record hrecord
      refine ⟨⟨i, call, .ext (.handler toolCall args), r, h.now⟩, by simp [Code.next], ?_⟩
      exact ⟨toolCall, args, r, rfl, rfl, hrecord⟩
    -- What was known of the branch survives, since the handler stores no projection.
    have hkept := hP h _ hhere hstep.2
    refine ⟨hstep.1, ?_⟩
    change Except Raised Json at r
    cases r with
    | ok value => exact While.now hdrives ⟨hkept.1, hkept.2, hgiven⟩
    | error error => exact While.now hdrives ⟨hkept.1, hkept.2, hgiven⟩
  refine (Code.Triple.attempt hasked (fun value => (hpost (.ok value)).stable)
    fun error => (hpost (.error error)).stable).mono (fun _ _ h => h) ?_ fun _ _ _ h => h
  rintro (error | value) h _ hpost
  · exact hpost
  · exact hpost

/-- A result is committed as it was given. -/
theorem commit_triple (hj : j.store.name j.branchId = b) (hdrives : call.drives = true)
    (record : ToolRecord) :
    TTriple i call (Held i regate fun h => Untouched i callId h ∧ Given callId record h)
      (j.commit (stepKey callId) record)
      (fun value => Held i regate (Committed callId value))
      fun _ => Held i regate (Untouched i callId) := by
  subst hj
  have hE : Persists (j.store.name j.branchId) fun h => Own i regate h ∧ Untouched i callId h :=
    (persists_own regate).and persists_untouched
  have hQ : ∀ value, Persists (j.store.name j.branchId) fun h =>
      Own i regate h ∧ Committed callId value h :=
    fun value => (persists_own regate).and (persists_committed value)
  refine Code.Triple.bind (fun _ => hE.stable)
    (Q := fun _ => Held i regate (Committed callId (some (.tool record)))) ?_ fun _ =>
      Code.Triple.pure (hQ _).stable fun _ _ h => h
  refine ledger_triple hdrives
    ((persists_own regate).and (persists_untouched.and (persists_given record)))
    (fun _ => hQ _) hE ?_
  rintro h x r s hinv hmay ⟨hown, huntouched, e, he, hgives⟩ hperform
  -- The handler's event is in the log, so what is committed was returned.
  obtain ⟨hguar, hun⟩ := finish_step hinv hmay hperform
    fun log hlog => Or.inl ⟨e, hlog he, record, rfl, hgives⟩
  have hown' := persists_own regate _ _ hown hun
  refine ⟨hguar, ?_⟩
  -- Refused: nothing is written. Done already with this value: committed. Open: committed now.
  rcases finishEffect_cases h.now (j.store.name j.branchId) (stepKey callId)
    (some (.tool record)) j.token with ⟨_, heq⟩ | ⟨hdone, hvalue, heq⟩ | ⟨_, heq⟩
  · obtain ⟨rfl, rfl⟩ := Prod.mk.inj (hperform.symm.trans heq)
    exact ⟨hown', persists_untouched _ _ huntouched hun⟩
  · obtain ⟨rfl, rfl⟩ := Prod.mk.inj (hperform.symm.trans heq)
    exact ⟨hown', hdone, eq_of_beq hvalue⟩
  · obtain ⟨rfl, rfl⟩ := Prod.mk.inj (hperform.symm.trans heq)
    exact ⟨hown', by simp [Code.next], by simp [Code.next]⟩

/-- `_execute`: it returns what is committed, and raises only when nothing is. -/
theorem execute_triple (hj : j.store.name j.branchId = b) (hdrives : call.drives = true)
    (toolCall : ToolCall) (args : Json) :
    TTriple i call (Held i regate (Untouched i toolCall.toolCallId))
      (j.execute (stepKey toolCall.toolCallId) (Code.ask (.handler toolCall args)))
      (fun value => Held i regate (Committed toolCall.toolCallId value))
      fun _ => Held i regate (Untouched i toolCall.toolCallId) := by
  have hU : Persists b fun h => Own i regate h ∧ Untouched i toolCall.toolCallId h :=
    (persists_own regate).and persists_untouched
  have hE : ∀ _ : Raised, Stable (turnContract b) i
      (Held i regate (Untouched i toolCall.toolCallId)) := fun _ => hU.stable
  have hforget : Code.Only (Plain b)
      (j.store.forget j.branchId (stepKey toolCall.toolCallId) j.token) :=
    Code.only_ledger (Or.inr (Or.inr ⟨toolCall.toolCallId, j.token, Or.inr (by rw [hj])⟩))
  refine Code.Triple.bind hE ((handler_triple toolCall args hdrives).mono (fun _ _ h => h)
    (fun _ _ _ h => h) fun _ _ _ h => h.elim) fun outcome => ?_
  -- a result is committed; a signal that nothing happened, or of the runtime, is passed on
  have hcommit : ∀ record, handlerRecord outcome = some record →
      TTriple i call (Held i regate fun h => Untouched i toolCall.toolCallId h ∧
          ∀ record, handlerRecord outcome = some record → Given toolCall.toolCallId record h)
        (j.commit (stepKey toolCall.toolCallId) record)
        (fun value => Held i regate (Committed toolCall.toolCallId value))
        fun _ => Held i regate (Untouched i toolCall.toolCallId) := by
    intro record hrecord
    refine (commit_triple hj hdrives record).pre fun h _ hpre => ?_
    exact hpre.mono fun _ hpre => ⟨hpre.1, hpre.2.1, hpre.2.2 record hrecord⟩
  have hpass : ∀ error, TTriple i call (Held i regate (Untouched i toolCall.toolCallId))
      (throw error : Code (Option Record))
      (fun value => Held i regate (Committed toolCall.toolCallId value))
      fun _ => Held i regate (Untouched i toolCall.toolCallId) :=
    fun error => Code.Triple.throw hU.stable fun _ _ h => h
  cases outcome with
  | ok value => exact hcommit (.ok value) rfl
  -- A raise is dropped, passed on or committed as a failed record, in the order of the source.
  | error error =>
    have hdrop : ∀ h : Code.History (Turn b), Held i regate
      (fun h => Untouched i toolCall.toolCallId h ∧
        ∀ record, handlerRecord (.error error) = some record →
          Given toolCall.toolCallId record h) h →
        Held i regate (Untouched i toolCall.toolCallId) h :=
      fun h hpre => hpre.mono fun _ hpre => ⟨hpre.1, hpre.2.1⟩
    dsimp only
    by_cases hnothing : error.nothingHappened = true
    · rw [if_pos hnothing]
      -- The handler says nothing happened: the start is forgotten and the error passed on.
      refine Code.Triple.pre ?_ fun h _ hpre => hdrop h hpre
      exact Code.Triple.bind hE (plain_triple hforget hdrives hU) fun _ => hpass error
    · rw [if_neg hnothing]
      by_cases hpasses : error.passesThrough = true
      · -- A signal of the runtime is no outcome of the tool.
        rw [if_pos hpasses]
        exact (hpass error).pre fun h _ hpre => hdrop h hpre
      · rw [if_neg hpasses]
        -- Any other raise is the tool's own failure, and is its record.
        refine hcommit (.failed error.text) ?_
        simp [handlerRecord, hnothing, hpasses]

/-- `EffectJournal.tool`: it returns what is committed, and raises only when nothing is. -/
theorem tool_triple (regate : List String) (hj : j.store.name j.branchId = b)
    (hdrives : call.drives = true)
    (toolCall : ToolCall) (args : Json) :
    TTriple i call (Held i regate fun _ => True)
      (j.tool toolCall.toolCallId (Code.ask (.handler toolCall args)))
      (fun value => Held i regate (Committed toolCall.toolCallId value))
      fun _ => Held i regate (Untouched i toolCall.toolCallId) := by
  have hU : Persists b fun h => Own i regate h ∧ Untouched i toolCall.toolCallId h :=
    (persists_own regate).and persists_untouched
  have hE : ∀ _ : Raised, Stable (turnContract b) i
      (Held i regate (Untouched i toolCall.toolCallId)) := fun _ => hU.stable
  have hQ : ∀ value, Stable (turnContract b) i
      (Held i regate (Committed toolCall.toolCallId value)) :=
    fun value => ((persists_own regate).and (persists_committed value)).stable
  refine Code.Triple.bind hE (raises_nothing _ (read_triple regate toolCall.toolCallId hj hdrives))
    fun step => ?_
  -- Replay or run: a step that is done gives its value back, any other goes through the handler.
  by_cases hdone : step.status = .done
  · rw [if_pos hdone]
    refine Code.Triple.pre (P := Held i regate (Committed toolCall.toolCallId step.value)) ?_
      fun h _ hpre => hpre.mono fun _ hpre => ⟨hpre.1, hpre.2.1 hdone⟩
    exact Code.Triple.pure (hQ step.value) fun _ _ h => h
  · rw [if_neg hdone]
    refine Code.Triple.pre (P := Held i regate (Untouched i toolCall.toolCallId)) ?_ fun h _ hpre =>
      hpre.mono fun _ hpre => ⟨hpre.1, hpre.2.2 hdone⟩
    -- Reclaiming and beginning store no projection, so the call stays untouched up to the handler.
    refine Code.Triple.bind hE (plain_triple (reclaim_plain hj step) hdrives hU) fun _ => ?_
    refine Code.Triple.bind hE (plain_triple (begin_plain hj) hdrives hU) fun _ => ?_
    exact execute_triple hj hdrives toolCall args

/-- The controls see a committed result once, while its projection is not stored. -/
theorem afterTool_triple (p : PolicyRunner) (here : Ctx) (toolCall : ToolCall)
    (record : ToolRecord) (hdrives : call.drives = true) :
    TTriple i call (Held i regate fun h => Untouched i toolCall.toolCallId h ∧
        Bare toolCall.toolCallId h ∧ Committed toolCall.toolCallId (some (.tool record)) h)
      (p.afterTool here toolCall record)
      (fun _ => Held i regate fun h => Untouched i toolCall.toolCallId h ∧
        Bare toolCall.toolCallId h ∧ Committed toolCall.toolCallId (some (.tool record)) h)
      fun _ => Held i regate (Untouched i toolCall.toolCallId) := by
  have hP : Persists b fun h => Own i regate h ∧ (Untouched i toolCall.toolCallId h ∧
      Bare toolCall.toolCallId h ∧ Committed toolCall.toolCallId (some (.tool record)) h) :=
    (persists_own regate).and (persists_untouched.and (persists_bare.and (persists_committed _)))
  have hU : Persists b fun h => Own i regate h ∧ Untouched i toolCall.toolCallId h :=
    (persists_own regate).and persists_untouched
  unfold PolicyRunner.afterTool
  split
  · exact Code.Triple.pure hP.stable fun _ _ h => h
  · -- The hook runs on a bare row, so the invariant has no store for it to run after.
    refine Code.Triple.bind (fun _ => hU.stable) (Q := fun _ => Held i regate fun h =>
      Untouched i toolCall.toolCallId h ∧ Bare toolCall.toolCallId h ∧
        Committed toolCall.toolCallId (some (.tool record)) h) ?_ fun result => ?_
    · refine ask_triple rfl hdrives hP (fun _ => hP) hU ?_
      intro h hinv hmay hpre r
      have hstep : TurnGuar b i call h (.ext (.postToolUse here toolCall record)) r
          (Code.next h i call (.ext (.postToolUse here toolCall record)) r h.now) ∧
          Unprojected b h
            (Code.next h i call (.ext (.postToolUse here toolCall record)) r h.now) := by
        -- A store in the log would have made the row done, against `Bare`.
        refine ask_step hinv hmay fun callId p d hd hst => ⟨?_, ?_⟩
        · rintro ⟨_, _, _, _, rfl, hdid⟩
          cases Event.op_of_did hdid
          exact hpre.2.2.1 (hinv.stored _ p d hd hst).1
        · intro result _ hdid
          cases Event.op_of_did hdid
      have hkept := hP h _ hpre hstep.2
      refine ⟨hstep.1, ?_⟩
      change Except Raised Json at r
      cases r with
      | ok result => exact hkept
      | error e => exact ⟨hkept.1, hkept.2.1⟩
    · cases record with
      | ok value => exact Code.Triple.pure hP.stable fun _ _ h => h
      | failed error => exact Code.Triple.pure hP.stable fun _ _ h => h

/-- The projection is stored once, after the result. -/
theorem store_triple (hj : j.store.name j.branchId = b) (hdrives : call.drives = true)
    (value : Option Record) (p : ToolRecord) :
    TTriple i call (Held i regate fun h => Untouched i callId h ∧ Bare callId h ∧
        Committed callId value h)
      (j.store.writeControl j.branchId (afterKey callId) (some (.after p)) j.token)
      (fun _ => Held i regate (Untouched i callId))
      fun _ => Held i regate (Untouched i callId) := by
  subst hj
  have hU : Persists (j.store.name j.branchId) fun h => Own i regate h ∧ Untouched i callId h :=
    (persists_own regate).and persists_untouched
  refine ledger_triple hdrives ((persists_own regate).and (persists_untouched.and
    (persists_bare.and (persists_committed _)))) (fun _ => hU) hU ?_
  rintro h x r s hinv hmay ⟨hown, huntouched, hbare, hdone, -⟩ hperform
  rcases writeControl_cases h.now (j.store.name j.branchId) (afterKey callId) (some (.after p))
    j.token with ⟨_, _, heq⟩ | ⟨_, heq⟩
  · -- refused to a stale token
    -- Nothing was written, so this step is as any other that stores nothing.
    obtain ⟨rfl, rfl⟩ := Prod.mk.inj (hperform.symm.trans heq)
    obtain ⟨hguar, hun⟩ := unprojected_step
      (o := .ledger (.writeControl (j.store.name j.branchId) (afterKey callId) (some (.after p))
        j.token)) (r := (.error _ : Except StoreError Unit)) hinv hmay (by
          intro callId' p' hst
          obtain ⟨_, hok⟩ := hst.accepted
          cases hok) (fun _ => rfl) (fun _ hdone => ⟨hdone, rfl⟩)
      (fun callId' hbefore hstatus => absurd hstatus hbefore) (by
        refine fun callId' p' d _ _ => ⟨?_, ?_⟩
        · rintro ⟨_, _, _, _, _, hdid⟩
          cases Event.op_of_did hdid
        · intro result _ hdid
          cases Event.op_of_did hdid)
    exact ⟨hguar, hU h _ ⟨hown, huntouched⟩ hun⟩
  · -- Written: this worker has made the one store of `callId`.
    obtain ⟨rfl, rfl⟩ := Prod.mk.inj (hperform.symm.trans heq)
    refine ⟨stored_step hinv hmay hdrives hdone hbare, ?_, ?_⟩
    · exact own_concat hown rfl
    · exact untouched_concat huntouched rfl

/-- Reading the call's projection in its turn. -/
theorem readAfter_triple (regate : List String) (callId : String)
    (hj : j.store.name j.branchId = b) (hdrives : call.drives = true) (value : Option Record) :
    TTriple i call (Held i regate (Committed callId value))
      (j.store.read j.branchId (afterKey callId))
      (fun journal => Held i regate fun h =>
        (journal.status = .done → ∃ p, Projected callId p h ∧ journal.value = some (.after p)) ∧
        (journal.status ≠ .done → Untouched i callId h ∧ Bare callId h ∧ Committed callId value h))
      fun _ => While i fun _ => False := by
  subst hj
  refine ledger_triple hdrives ((persists_own regate).and (persists_committed value))
    (fun journal => (persists_own regate).and (Persists.and ?_ ?_)) persists_const ?_
  · exact (Persists.exists fun p => (persists_projected p).and persists_const).imp
  · exact (persists_untouched.and (persists_bare.and (persists_committed value))).imp
  intro h x r s hinv hmay hpre hperform
  obtain ⟨rfl, rfl, hguar, hun⟩ := read_step hinv hmay hperform
  have hown := persists_own regate _ _ hpre.1 hun
  refine ⟨hguar, hown, ?_, ?_⟩
  · -- A projection is there: the worker's view of it is the stored one.
    intro hdone
    rcases hinv.seen i callId with hbare | ⟨p, hprojected⟩
    · exact absurd hdone hbare.2
    · exact ⟨p, persists_projected p _ _ hprojected hun, hprojected.value⟩
  · -- None is there, so no other attempt has stored one.
    intro hdone
    rcases hinv.seen i callId with hbare | ⟨p, hprojected⟩
    · exact ⟨persists_untouched _ _ hbare.1 hun, persists_bare _ _ hbare.2 hun,
        persists_committed value _ _ hpre.2 hun⟩
    · exact absurd hprojected.status hdone

/-- `project_once`: it returns the projection that was stored, if one was. -/
theorem projectOnce_triple (regate : List String) (hj : j.store.name j.branchId = b)
    (hdrives : call.drives = true) (p : PolicyRunner) (here : Ctx) (toolCall : ToolCall)
    (value : Option Record) :
    TTriple i call (Held i regate (Committed toolCall.toolCallId value))
      (j.projectOnce toolCall.toolCallId value
        (if p.controls then some (p.afterTool here toolCall) else none))
      (fun projected => Held i regate (Shows i toolCall.toolCallId projected))
      fun _ => Held i regate (Untouched i toolCall.toolCallId) := by
  have hU : Persists b fun h => Own i regate h ∧ Untouched i toolCall.toolCallId h :=
    (persists_own regate).and persists_untouched
  have hQ : ∀ projected, Persists b fun h => Own i regate h ∧
      Shows i toolCall.toolCallId projected h :=
    fun projected => (persists_own regate).and (persists_shows projected)
  have hE : ∀ _ : Raised, Stable (turnContract b) i
      (Held i regate (Untouched i toolCall.toolCallId)) := fun _ => hU.stable
  refine Code.Triple.bind hE (raises_nothing _ (readAfter_triple regate toolCall.toolCallId hj
    hdrives value)) fun journal => ?_
  by_cases hdone : journal.status = .done
  · rw [if_pos hdone]
    -- what is stored is a projection, and is returned
    refine Code.Triple.pre (P := Held i regate fun h => ∃ p, Projected toolCall.toolCallId p h ∧
      journal.value = some (.after p)) ?_ fun h _ hpre => hpre.mono fun _ hpre =>
        ⟨hpre.1, hpre.2.1 hdone⟩
    have hP : Persists b fun h => Own i regate h ∧ ∃ p, Projected toolCall.toolCallId p h ∧
        journal.value = some (.after p) :=
      (persists_own regate).and (Persists.exists fun p => (persists_projected p).and persists_const)
    split
    · next projection hvalue =>
      refine Code.Triple.pure hP.stable fun h _ hpre => hpre.mono fun _ hpre => ⟨hpre.1, ?_⟩
      obtain ⟨p', hprojected, heq⟩ := hpre.2
      have hsame : projection = p' := Record.after.inj (Option.some.inj (hvalue.symm.trans heq))
      exact Or.inr ⟨p', hprojected, by rw [hsame]⟩
    · next hvalue =>
      refine Code.Triple.throw hP.stable fun h _ hpre => hpre.mono fun _ hpre => ?_
      obtain ⟨p', _, heq⟩ := hpre.2
      exact absurd heq (hvalue p')
  · -- Nothing is stored: the hook is asked, its answer stored, and only then returned.
    rw [if_neg hdone]
    refine Code.Triple.pre (P := Held i regate fun h => Untouched i toolCall.toolCallId h ∧
      Bare toolCall.toolCallId h ∧ Committed toolCall.toolCallId value h) ?_ fun h _ hpre =>
        hpre.mono fun _ hpre => ⟨hpre.1, hpre.2.2 hdone⟩
    have hP : Persists b fun h => Own i regate h ∧ (Untouched i toolCall.toolCallId h ∧
        Bare toolCall.toolCallId h ∧ Committed toolCall.toolCallId value h) :=
      (persists_own regate).and (persists_untouched.and (persists_bare.and (persists_committed _)))
    -- Without controls the record is returned as committed, and nothing is stored.
    cases hcontrols : p.controls with
    | false =>
      exact Code.Triple.pure hP.stable fun h _ hpre => hpre.mono fun _ hpre =>
        ⟨hpre.1, Or.inl hpre.2.1⟩
    | true =>
      cases value with
      | none =>
        exact Code.Triple.throw hP.stable fun h _ hpre => hpre.mono fun _ hpre =>
          ⟨hpre.1, hpre.2.1⟩
      | some stored =>
        cases stored with
        | tool record =>
          show TTriple i call _ (p.afterTool here toolCall record >>= fun projected =>
            j.store.writeControl j.branchId (afterKey toolCall.toolCallId)
              (some (.after projected)) j.token >>= fun _ =>
                (pure (some (Record.tool projected)) : Code (Option Record))) _ _
          refine Code.Triple.bind hE (afterTool_triple p here toolCall record hdrives)
            fun projected => ?_
          refine Code.Triple.bind hE (store_triple hj hdrives _ projected) fun _ => ?_
          exact Code.Triple.pure hU.stable fun h _ hpre => hpre.mono fun _ hpre =>
            ⟨hpre.1, Or.inl hpre.2⟩
        | _ =>
          exact Code.Triple.throw hP.stable fun h _ hpre => hpre.mono fun _ hpre =>
            ⟨hpre.1, hpre.2.1⟩

end journal

/-! ## Section 8: The hooks -/

theorem permits_plain {b : String} (boundary : ExecutionBoundary) :
    Permits boundary (Plain b) where
  pendingRound op _ _ _ hkeys := by
    refine Or.inr (Or.inl fun callId => ⟨fun hmem => ?_, fun hmem => ?_⟩)
    · exact pendingRoundKey_ne_stepKey callId (hkeys _ hmem).symm
    · exact pendingRoundKey_ne_afterKey callId (hkeys _ hmem).symm
  modelStep digest op _ _ _ hkeys := by
    refine Or.inr (Or.inl fun callId => ⟨fun hmem => ?_, fun hmem => ?_⟩)
    · exact modelStepKey_ne_stepKey digest callId (hkeys _ hmem).symm
    · exact modelStepKey_ne_afterKey digest callId (hkeys _ hmem).symm
  asked e he := by
    cases e with
    | postToolUse here call record => cases he
    | mark m => cases he
    | _ => trivial
  model _ _ := trivial
  mark m hm := by
    cases m with
    | handed callId result => cases hm
    | _ => trivial

section hooks

variable {b : String} {i : Nat} {call : Turn b} {boundary : ExecutionBoundary}

/-- The triples of an attempt's code. -/
abbrev HTriple {α : Type} (i : Nat) (call : Turn b) (P : Code.History (Turn b) → Prop)
    (x : AttemptM α) (Q : α → Code.History (Turn b) → Prop)
    (E : Raised → Code.History (Turn b) → Prop) : Prop :=
  AttemptM.Triple (fun _ turn => turnBody turn) (turnContract b) i call (fun _ => P) x
    (fun a _ => Q a) fun e _ => E e

/-- A mark does not raise. -/
theorem mark_triple {m : Mark} (hm : m.atBoundary = true) (hdrives : call.drives = true)
    {P : Code.History (Turn b) → Prop} (hP : Persists b P)
    {E : Raised → Code.History (Turn b) → Prop}
    (hE : ∀ e, AttemptState → Stable (turnContract b) i (E e)) :
    HTriple i call (While i P) (AttemptM.mark m) (fun _ => While i P) E := by
  have hplain : Plain b (.ext (.mark m)) := by
    cases m with
    | handed callId result => cases hm
    | _ => trivial
  refine AttemptM.Triple.code (fun _ => Code.Triple.mark hP.stable ?_ hP.stable)
    (fun _ _ => hP.stable) fun e st => hE e st
  intro h x hinv hpre hmay
  have hstep := plain_step hplain x hinv hmay
  exact ⟨hstep.1, While.next hP hdrives (hpre.here hdrives hmay) hstep.2⟩

/-- Whether the call is recorded: if it is asked about, no other has stored its projection. -/
theorem recorded_triple (hb : boundary.store.name boundary.branchId = b)
    (hdrives : call.drives = true) (toolCall : ToolCall) :
    HTriple i call (Held i boundary.policy.regate fun _ => True)
      (AttemptM.code (boundary.journal.recorded toolCall.toolCallId))
      (fun recorded => Held i boundary.policy.regate fun h =>
        boundary.policy.bypasses toolCall recorded = false → Untouched i toolCall.toolCallId h)
      fun _ => Held i boundary.policy.regate (Untouched i toolCall.toolCallId) := by
  have hU : Persists b fun h => Own i boundary.policy.regate h ∧
      Untouched i toolCall.toolCallId h := (persists_own _).and persists_untouched
  have hQ : ∀ recorded, Persists b fun h => Own i boundary.policy.regate h ∧
      (boundary.policy.bypasses toolCall recorded = false →
        Untouched i toolCall.toolCallId h) :=
    fun _ => (persists_own _).and persists_untouched.imp
  have hR : ∀ step : Step Record, Persists b fun h => Own i boundary.policy.regate h ∧
      ((step.status = .done → Committed toolCall.toolCallId step.value h) ∧
        (step.status ≠ .done → Untouched i toolCall.toolCallId h)) :=
    fun step => (persists_own _).and ((persists_committed _).imp.and persists_untouched.imp)
  have hj : boundary.journal.store.name boundary.journal.branchId = b := hb
  refine AttemptM.Triple.code (fun _ => Code.Triple.bind (fun _ => hU.stable)
    (raises_nothing _ (read_triple boundary.policy.regate toolCall.toolCallId hj hdrives))
    fun step => ?_)
    (fun recorded _ => (hQ recorded).stable) fun _ _ => hU.stable
  refine Code.Triple.pure (hR step).stable fun h _ hpre => hpre.mono fun h hpre =>
    ⟨hpre.1, fun hasked => ?_⟩
  -- `bypasses` is false for a call to be regated, which is this worker's own, or for one whose step
  -- was not done.
  by_cases hregate : toolCall.toolCallId ∈ boundary.policy.regate
  · exact hpre.1 _ hregate
  · refine hpre.2.2 ?_
    simpa [PolicyRunner.bypasses, hregate] using hasked

/-- `before_tool_execute`: a call whose projection is stored is let through. -/
theorem before_triple (hb : boundary.store.name boundary.branchId = b)
    (hdrives : call.drives = true) (ctx : RunContext) (tool : ToolDefinition)
    (toolCall : ToolCall) (args : Json) (approved : Bool) :
    HTriple i call (Held i boundary.policy.regate fun _ => True)
      (boundary.beforeToolExecute ctx tool toolCall args approved)
      (fun _ => Held i boundary.policy.regate fun _ => True)
      fun _ => Held i boundary.policy.regate (Untouched i toolCall.toolCallId) := by
  have hT : Persists b fun h => Own i boundary.policy.regate h ∧ True :=
    (persists_own _).and persists_const
  have hU : Persists b fun h => Own i boundary.policy.regate h ∧
      Untouched i toolCall.toolCallId h := (persists_own _).and persists_untouched
  have hE : ∀ (_ : Raised) (_ : AttemptState), Stable (turnContract b) i
      (Held i boundary.policy.regate (Untouched i toolCall.toolCallId)) := fun _ _ => hU.stable
  refine AttemptM.Triple.bind hE (mark_triple rfl hdrives hT fun e => hE e) fun _ => ?_
  refine AttemptM.Triple.bind hE (Q := fun _ _ => Held i boundary.policy.regate fun _ => True)
    ((AttemptM.Triple.state fun _ => hT.stable).mono (fun _ _ _ h => h) (fun _ _ _ _ h => h.2)
      fun _ _ _ _ h => h) fun st => ?_
  refine AttemptM.Triple.bind hE (recorded_triple hb hdrives toolCall) fun recorded => ?_
  cases hby : boundary.policy.bypasses toolCall recorded with
  | true =>
    -- the call is recorded: nothing is asked, and nothing raises
    have hdecide : ∀ here, boundary.policy.decideTool here toolCall args approved recorded
        = (PolicyRunner.noteTool toolCall false >>= fun _ =>
            AttemptM.mark (.decided toolCall.toolCallId .continue) >>= fun _ =>
              pure .continue) := by
      intro here
      unfold PolicyRunner.decideTool PolicyRunner.choose
      rw [if_pos hby, if_neg (by simp [hby])]
      rfl
    have hC : ∀ decision : ToolDecision, Persists b fun h =>
        Own i boundary.policy.regate h ∧ decision = .continue :=
      fun _ => (persists_own _).and persists_const
    have hnote : HTriple i call (Held i boundary.policy.regate fun _ => True)
        (PolicyRunner.noteTool toolCall false)
          (fun _ => Held i boundary.policy.regate fun _ => True)
        fun _ => Held i boundary.policy.regate (Untouched i toolCall.toolCallId) :=
      AttemptM.Triple.update (fun _ => hT.stable) fun _ _ _ h => h
    have hlet : HTriple i call (Held i boundary.policy.regate fun _ => True)
        (boundary.policy.decideTool (boundary.policy.context st ctx [] (some tool)) toolCall args
          approved recorded)
        (fun decision => Held i boundary.policy.regate fun _ => decision = .continue)
        fun _ => Held i boundary.policy.regate (Untouched i toolCall.toolCallId) := by
      rw [hdecide]
      refine AttemptM.Triple.bind hE hnote fun _ => ?_
      refine AttemptM.Triple.bind hE (mark_triple rfl hdrives hT fun e => hE e) fun _ => ?_
      exact AttemptM.Triple.pure (fun _ => hT.stable) fun _ h _ hpre => hpre.mono fun _ hpre =>
        ⟨hpre.1, rfl⟩
    -- The decision is `continue`, so the two raising branches are never taken.
    refine AttemptM.Triple.mono (P := fun _ => Held i boundary.policy.regate fun _ => True) ?_
      (fun _ h _ hpre => hpre.mono fun _ hpre => ⟨hpre.1, trivial⟩) (fun _ _ _ _ h => h)
      fun _ _ _ _ h => h
    refine AttemptM.Triple.bind hE hlet fun decision => ?_
    cases decision with
    | «continue» =>
      exact AttemptM.Triple.pure (fun _ => (hC _).stable) fun _ h _ hpre => hpre.mono fun _ hpre =>
        ⟨hpre.1, trivial⟩
    | deny result =>
      exact AttemptM.Triple.throw (fun _ => (hC _).stable) fun _ h _ hpre => hpre.mono
        fun _ hpre => nomatch hpre.2
    | suspend request =>
      exact AttemptM.Triple.throw (fun _ => (hC _).stable) fun _ h _ hpre => hpre.mono
        fun _ hpre => nomatch hpre.2
  | false =>
    refine AttemptM.Triple.mono (P := fun _ => Held i boundary.policy.regate
      (Untouched i toolCall.toolCallId)) ?_ (fun _ h _ hpre => hpre.mono fun _ hpre =>
        ⟨hpre.1, hpre.2 hby⟩) (fun _ _ _ _ h => h) fun _ _ _ _ h => h
    have hdecide : AttemptM.Only (Plain b) (boundary.policy.decideTool
        (boundary.policy.context st ctx [] (some tool)) toolCall args approved recorded) :=
      decideTool_only (permits_plain boundary).controls _ toolCall args approved recorded
    refine AttemptM.Triple.bind hE (plain_attempt hdecide hdrives hU) fun decision => ?_
    cases decision with
    | «continue» =>
      exact AttemptM.Triple.pure (fun _ => hU.stable) fun _ h _ hpre => hpre.mono fun _ hpre =>
        ⟨hpre.1, trivial⟩
    | deny result => exact AttemptM.Triple.throw (fun _ => hU.stable) fun _ _ _ h => h
    | suspend request => exact AttemptM.Triple.throw (fun _ => hU.stable) fun _ _ _ h => h

/-- A record is handed over as what it leads to. -/
theorem shown_triple {regate : List String} {callId : String} (projected : Option Record) :
    TTriple i call (Held i regate (Shows i callId projected)) (asToolRecord projected)
      (fun record => Held i regate (Due i callId record.outcome))
      fun _ => Held i regate (Untouched i callId) := by
  have hS : Persists b fun h => Own i regate h ∧ Shows i callId projected h :=
    (persists_own _).and (persists_shows projected)
  unfold asToolRecord
  split
  · next record =>
    refine Code.Triple.pure hS.stable fun h _ hpre => hpre.mono fun h hpre => ⟨hpre.1, ?_⟩
    refine hpre.2.imp id ?_
    rintro ⟨p, hprojected, heq⟩
    cases heq
    exact ⟨record, hprojected, rfl⟩
  · next hother =>
    refine Code.Triple.throw hS.stable fun h _ hpre => hpre.mono fun h hpre => ⟨hpre.1, ?_⟩
    rcases hpre.2 with huntouched | ⟨p, _, heq⟩
    · exact huntouched
    · exact absurd heq (hother p)

/-- `wrap_tool_execute`: what it comes to is due. -/
theorem wrap_triple (hb : boundary.store.name boundary.branchId = b)
    (hdrives : call.drives = true) (ctx : RunContext) (tool : ToolDefinition)
    (toolCall : ToolCall) (args : Json) :
    HTriple i call (Held i boundary.policy.regate fun _ => True)
      (boundary.wrapToolExecute ctx tool toolCall args)
      (fun value => Held i boundary.policy.regate (Due i toolCall.toolCallId (.ok value)))
      fun e => Held i boundary.policy.regate (Due i toolCall.toolCallId (.error e)) := by
  have hT : Persists b fun h => Own i boundary.policy.regate h ∧ True :=
    (persists_own _).and persists_const
  have hC : ∀ value, Persists b fun h => Own i boundary.policy.regate h ∧
      Committed toolCall.toolCallId value h :=
    fun value => (persists_own _).and (persists_committed value)
  have hS : ∀ projected, Persists b fun h => Own i boundary.policy.regate h ∧
      Shows i toolCall.toolCallId projected h :=
    fun projected => (persists_own _).and (persists_shows projected)
  have hD : ∀ result, Persists b fun h => Own i boundary.policy.regate h ∧
      Due i toolCall.toolCallId result h :=
    fun result => (persists_own _).and (persists_due result)
  have hE : ∀ (e : Raised) (_ : AttemptState), Stable (turnContract b) i
      (Held i boundary.policy.regate (Due i toolCall.toolCallId (.error e))) :=
    fun e _ => (hD (.error e)).stable
  have hraised : ∀ (e : Raised) (h : Code.History (Turn b)),
      Held i boundary.policy.regate (Untouched i toolCall.toolCallId) h →
      Held i boundary.policy.regate (Due i toolCall.toolCallId (.error e)) h :=
    fun e h hpre => hpre.mono fun _ hpre => ⟨hpre.1, Or.inl hpre.2⟩
  have hj : boundary.journal.store.name boundary.journal.branchId = b := hb
  have htool := tool_triple (i := i) boundary.policy.regate hj hdrives toolCall args
  have hproject := fun (st : AttemptState) value =>
    projectOnce_triple (i := i) boundary.policy.regate hj hdrives boundary.policy
      (boundary.policy.context st ctx [] (some tool)) toolCall value
  -- The parts of the hook in turn: the result is committed, marked, projected, and shown as an
  -- outcome.
  refine AttemptM.Triple.bind hE (AttemptM.Triple.code (fun _ => htool.mono (fun _ _ h => h)
    (fun _ _ _ h => h) fun e h _ => hraised e h) (fun value _ => (hC value).stable) hE)
    fun value => ?_
  refine AttemptM.Triple.bind hE (mark_triple rfl hdrives (hC value) hE) fun _ => ?_
  refine AttemptM.Triple.bind hE
    (Q := fun _ _ => Held i boundary.policy.regate (Committed toolCall.toolCallId value))
    ((AttemptM.Triple.state fun _ => (hC value).stable).mono (fun _ _ _ h => h)
      (fun _ _ _ _ h => h.2) fun _ _ _ _ h => h) fun st => ?_
  refine AttemptM.Triple.bind hE (AttemptM.Triple.code (fun _ => (hproject st value).mono
    (fun _ _ h => h) (fun _ _ _ h => h) fun e h _ => hraised e h)
    (fun projected _ => (hS projected).stable) hE) fun projected => ?_
  refine AttemptM.Triple.bind hE (AttemptM.Triple.code (fun _ => (shown_triple projected).mono
    (fun _ _ h => h) (fun _ _ _ h => h) fun e h _ => hraised e h)
    (fun record _ => (hD record.outcome).stable) hE) fun record => ?_
  cases record with
  | ok value => exact AttemptM.Triple.pure (fun _ => (hD _).stable) fun _ _ _ h => h
  | failed error => exact AttemptM.Triple.throw (fun _ => (hD _).stable) fun _ _ _ h => h

/-- The tool's hooks: what they come to is due. -/
theorem tool_hook_triple (hb : boundary.store.name boundary.branchId = b)
    (hdrives : call.drives = true) (digest : List Message → List ToolDefinition → String)
    (ctx : RunContext) (tool : ToolDefinition) (toolCall : ToolCall) (args : Json)
    (approved : Bool) :
    HTriple i call (Held i boundary.policy.regate fun _ => True)
      (boundary.hook digest (.tool ctx tool toolCall args approved))
      (fun value => Held i boundary.policy.regate (Due i toolCall.toolCallId (.ok value)))
      fun e => Held i boundary.policy.regate (Due i toolCall.toolCallId (.error e)) := by
  have hD : ∀ result, Persists b fun h => Own i boundary.policy.regate h ∧
      Due i toolCall.toolCallId result h :=
    fun result => (persists_own _).and (persists_due result)
  refine AttemptM.Triple.bind (fun e _ => (hD (.error e)).stable)
    ((before_triple hb hdrives ctx tool toolCall args approved).mono (fun _ _ _ h => h)
      (fun _ _ _ _ h => h) fun e st h _ hpre => ?_) fun args =>
        wrap_triple hb hdrives ctx tool toolCall args
  exact hpre.mono fun _ hpre => ⟨hpre.1, Or.inl hpre.2⟩

/-- What is due is handed over. -/
theorem handed_triple (hdrives : call.drives = true) {regate : List String} {callId : String}
    (result : Except Raised Json) (E : Raised → AttemptState → Code.History (Turn b) → Prop)
    (hE : ∀ e st, Stable (turnContract b) i (E e st)) :
    AttemptM.Triple (fun _ turn => turnBody turn) (turnContract b) i call
      (fun _ => Held i regate (Due i callId result)) (AttemptM.mark (.handed callId result))
      (fun _ _ => Held i regate fun _ => True) E := by
  have hD : Persists b fun h => Own i regate h ∧ Due i callId result h :=
    (persists_own _).and (persists_due result)
  have hT : Persists b fun h => Own i regate h ∧ True := (persists_own _).and persists_const
  refine AttemptM.Triple.code (fun _ => Code.Triple.mark hD.stable ?_ hT.stable)
    (fun _ _ => hT.stable) fun e st => hE e st
  intro h x hinv hpre hmay
  have hhere := hpre.here hdrives hmay
  have hstep : TurnGuar b i call h (.ext (.mark (.handed callId result))) ()
      (Code.next h i call (.ext (.mark (.handed callId result))) () h.now) ∧
      Unprojected b h (Code.next h i call (.ext (.mark (.handed callId result))) () h.now) := by
    -- The mark runs no hook; what it hands over must be the projection in the log, if there is one.
    refine ask_step hinv hmay fun callId' p d hd hst => ⟨?_, ?_⟩
    · rintro ⟨_, _, _, _, _, hdid⟩
      cases Event.op_of_did hdid
    · intro result' hne hdid
      cases Event.op_of_did hdid
      rcases hhere.2 with huntouched | ⟨p', hprojected, rfl⟩
      · exact absurd (huntouched d hd p hst) hne
      · -- what is stored is the one projection there is
        have hvalue := (hinv.stored _ p d hd hst).2
        have hsame : p' = p :=
          Record.after.inj (Option.some.inj (hprojected.value.symm.trans hvalue))
        rw [hsame]
  exact ⟨hstep.1, While.next hT hdrives ⟨hhere.1, trivial⟩ hstep.2⟩

/-- Whatever the agent does: induction over its program. -/
theorem watch_triple (hb : boundary.store.name boundary.branchId = b)
    (hdrives : call.drives = true) {α : Type}
    (digest : List Message → List ToolDefinition → String) (program : AgentProg α) :
    HTriple i call (Held i boundary.policy.regate fun _ => True) (boundary.watch digest program)
      (fun _ => Held i boundary.policy.regate fun _ => True)
      fun _ => Held i boundary.policy.regate fun _ => True := by
  have hT : Persists b fun h => Own i boundary.policy.regate h ∧ True :=
    (persists_own _).and persists_const
  have hE : ∀ (_ : Raised) (_ : AttemptState), Stable (turnContract b) i
      (Held (b := b) i boundary.policy.regate fun _ => True) := fun _ _ => hT.stable
  induction program with
  | pure a => exact AttemptM.Triple.pure (fun _ => hT.stable) fun _ _ _ h => h
  | perform o next ih =>
    have hpermits : Permits boundary (Plain b) := permits_plain boundary
    have hplain : ∀ x : AttemptM o.Result, AttemptM.Only (Plain b) x →
        HTriple i call (Held i boundary.policy.regate fun _ => True) (AttemptM.attempt x)
          (fun _ => Held i boundary.policy.regate fun _ => True)
          fun _ => Held i boundary.policy.regate fun _ => True :=
      fun x hx => plain_attempt hx.attempt hdrives hT
    -- Only a tool call concerns a projection: the other hooks are plain, and the invariant passes
    -- them by.
    cases o with
    | modelRequest ctx request tools =>
      exact AttemptM.Triple.bind hE
        (hplain _ (modelRequestNode_only hpermits.toPermitsTurns digest ctx request
        tools)) ih
    | prepareTools tools =>
      exact AttemptM.Triple.bind hE (hplain _ (prepareTools_only hpermits.controls tools)) ih
    | callTools ctx response =>
      exact AttemptM.Triple.bind hE
        (hplain _ (callToolsNode_only hpermits.controls hpermits.pendingRound ctx response)) ih
    | toolsCalled ctx response result =>
      exact AttemptM.Triple.bind hE
        (hplain _ (toolsCalledNode_only hpermits.toPermitsTurns ctx response result)) ih
    | tool ctx tool toolCall args approved =>
      have hD : ∀ result, Persists b fun h => Own i boundary.policy.regate h ∧
          Due i toolCall.toolCallId result h :=
        fun result => (persists_own _).and (persists_due result)
      -- Whatever the tool hook ends with, value or error, is what is handed over.
      have hhook := AttemptM.Triple.attempt
        (E := fun _ _ => Held i boundary.policy.regate fun _ => True)
        (tool_hook_triple (i := i) hb hdrives digest ctx tool toolCall args approved)
        (fun value _ => (hD (.ok value)).stable) fun e _ => (hD (.error e)).stable
      refine AttemptM.Triple.bind hE (Q := fun r _ => Held i boundary.policy.regate
        (Due i toolCall.toolCallId r)) (hhook.mono (fun _ _ _ h => h) ?_ fun _ _ _ _ h => h)
        fun r => AttemptM.Triple.bind hE (handed_triple hdrives r _ hE) fun _ => ih r
      rintro (e | value) st h _ hpost
      · exact hpost
      · exact hpost

end hooks

/-! ## Section 9: Every turn -/

section copies

variable {b : String} {i : Nat} {call : Turn b} {src dst : ExecutionContext}

/-- The source was found to have completed the call with this value. -/
def Copied (callId : String) (value : Option Record) (h : Code.History (Turn b)) : Prop :=
  ∃ e ∈ h.log, CopiesFrom b callId value e

theorem persists_copied (callId : String) (value : Option Record) :
    Persists b (Copied callId value) := by
  intro h h' hpre hun
  obtain ⟨e, he, hcopies⟩ := hpre
  obtain ⟨more, hlog, _⟩ := hun.log
  refine ⟨e, ?_, hcopies⟩
  rw [hlog]
  exact List.mem_append_left more he

/-- The source is read. -/
theorem source_triple (hsrc : src.filedName ≠ b) (hdrives : call.drives = true)
    (callId : String) {R : Code.History (Turn b) → Prop} (hR : Persists b R) :
    TTriple i call (While i R) (src.store.read src.branchId (stepKey callId))
      (fun record => While i fun h =>
        R h ∧ (record.status = .done → Copied callId record.value h))
      fun _ => While i fun _ => True := by
  refine ledger_triple hdrives hR (fun record => hR.and (persists_copied _ _).imp)
    persists_const ?_
  intro h x r s hinv hmay hpre hperform
  obtain ⟨rfl, rfl⟩ := Prod.mk.inj hperform
  obtain ⟨hguar, hun⟩ := ledger_step hinv hmay (Prod.ext rfl rfl :
    (LedgerOp.read (src.store.name src.branchId) (stepKey callId)).perform x.now x.later h.now = _)
    (fun _ => Or.inl hsrc) (fun _ => Or.inl hsrc) fun _ hbefore hstatus => absurd hstatus hbefore
  refine ⟨hguar, hR h _ hpre hun, fun hdone => ?_⟩
  refine ⟨_, List.mem_append_right _ (List.mem_singleton_self _), src.filedName, _, hsrc, hdone,
    rfl, rfl⟩

/-- What begins to be copied was not completed, so no projection of it is stored. -/
theorem target_triple (hdst : dst.filedName = b) (token : Int) (hdrives : call.drives = true)
    (callId : String) {R : Code.History (Turn b) → Prop} (hR : Persists b R) :
    TTriple i call (While i R) (dst.store.start dst.branchId (stepKey callId) token)
      (fun started => While i fun h => R h ∧ (started = true → Untouched i callId h))
      fun _ => While i fun _ => True := by
  subst hdst
  refine ledger_triple hdrives hR (fun started => hR.and persists_untouched.imp) persists_const ?_
  intro h x r s hinv hmay hpre hperform
  have hplain : Plain dst.filedName (.ledger (.start dst.filedName (stepKey callId) token)) :=
    Or.inr (Or.inr ⟨callId, token, Or.inl rfl⟩)
  obtain ⟨hguar, hun⟩ := plain_ledger_step hplain hinv hmay hperform
  refine ⟨hguar, ?_⟩
  cases r with
  | error e => trivial
  | ok started =>
    refine ⟨hR h _ hpre hun, ?_⟩
    rintro rfl
    -- `start` succeeds only on a step that is not done, so no projection of it is there.
    have hopen : (h.now.entry dst.filedName (stepKey callId)).status ≠ .done := by
      rcases start_cases h.now dst.filedName (stepKey callId) token with
        ⟨e, heq⟩ | heq | ⟨_, hnot, _⟩
      · cases hperform.symm.trans heq
      · cases hperform.symm.trans heq
      · exact hnot
    -- A projection would have its result committed first.
    rcases hinv.seen i callId with hbare | ⟨p, hprojected⟩
    · exact persists_untouched _ _ hbare.1 hun
    · exact absurd hprojected.committed hopen

/-- A copy is committed. -/
theorem copied_triple (hdst : dst.filedName = b) (token : Int) (hdrives : call.drives = true)
    (callId : String) (value : Option Record) {R : Code.History (Turn b) → Prop}
    (hR : Persists b R) :
    TTriple i call (While i fun h => R h ∧ Copied callId value h)
      (dst.store.finishEffect dst.branchId (stepKey callId) value token)
      (fun _ => While i R) fun _ => While i fun _ => True := by
  subst hdst
  refine ledger_triple hdrives (hR.and (persists_copied _ _)) (fun _ => hR) persists_const ?_
  rintro h x r s hinv hmay ⟨hpre, e, he, hcopies⟩ hperform
  obtain ⟨hguar, hun⟩ := finish_step hinv hmay hperform
    fun log hlog => Or.inr ⟨e, hlog he, hcopies⟩
  refine ⟨hguar, ?_⟩
  cases r with
  | ok _ => exact hR h _ hpre hun
  | error _ => trivial

/-- The copy of a fork leaves what persists, and only this turn has stored projections of the
    calls it has copied. -/
theorem copySteps_triple (hsrc : src.filedName ≠ b) (hdst : dst.filedName = b) (token : Int)
    (hdrives : call.drives = true) (calls : List ToolCall) {R : Code.History (Turn b) → Prop}
    (hR : Persists b R) :
    TTriple i call (While i R) (AgentRuntime.copySteps src dst token calls)
      (fun copied => While i fun h => R h ∧ Own i copied h) fun _ => While i fun _ => True := by
  induction calls generalizing R with
  | nil =>
    refine Code.Triple.pure hR.stable fun h _ hpre => hpre.mono fun h hpre => ⟨hpre, ?_⟩
    intro callId hmem
    cases hmem
  | cons toolCall calls ih =>
    have hE : ∀ _ : Raised, Stable (turnContract b) i (While (b := b) i fun _ => True) :=
      fun _ => persists_const.stable
    -- the other calls, from anything that is still known
    have hrest : ∀ {R' : Code.History (Turn b) → Prop}, Persists b R' → (∀ h, R' h → R h) →
        TTriple i call (While i R') (AgentRuntime.copySteps src dst token calls)
          (fun copied => While i fun h => R h ∧ Own i copied h) fun _ => While i fun _ => True := by
      intro R' hR' hle
      refine (ih hR').mono (fun _ _ h => h) (fun copied h _ hpost => ?_) fun _ _ _ h => h
      exact hpost.mono fun h hpost => ⟨hle h hpost.1, hpost.2⟩
    refine Code.Triple.bind hE (source_triple hsrc hdrives toolCall.toolCallId hR)
      fun record => ?_
    have hread : Persists b fun h => R h ∧
        (record.status = .done → Copied toolCall.toolCallId record.value h) :=
      hR.and (persists_copied _ _).imp
    -- Three ways past a call: nothing to copy, the target has begun it, or it is copied; only the
    -- last adds to `copied`.
    by_cases habsent : record.status = .absent
    · rw [if_pos habsent]
      exact hrest hread fun _ h => h.1
    · rw [if_neg habsent]
      refine Code.Triple.bind hE (target_triple hdst token hdrives toolCall.toolCallId hread)
        fun started => ?_
      cases started with
      | false => exact hrest (hread.and persists_untouched.imp) fun _ h => h.1.1
      | true =>
        rw [if_neg (by simp)]
        by_cases hdone : record.status = .done
        · rw [if_pos hdone]
          -- Copied: only this worker has stored a projection of the call, and the rest of the loop
          -- keeps it so.
          have hmine : Persists b fun h => R h ∧ Untouched i toolCall.toolCallId h :=
            hR.and persists_untouched
          refine Code.Triple.bind hE ((copied_triple hdst token hdrives toolCall.toolCallId
            record.value hmine).pre fun h _ hpre => hpre.mono fun h hpre =>
              ⟨⟨hpre.1.1, hpre.2 rfl⟩, hpre.1.2 hdone⟩) fun _ => ?_
          refine Code.Triple.bind hE (ih hmine) fun copied => ?_
          refine Code.Triple.pure (hmine.and (persists_own copied)).stable fun h _ hpre =>
            hpre.mono fun h hpre => ⟨hpre.1.1, fun callId hmem => ?_⟩
          rcases List.mem_cons.mp hmem with rfl | hmem
          · exact hpre.1.2
          · exact hpre.2 callId hmem
        · rw [if_neg hdone]
          exact hrest (hread.and persists_untouched.imp) fun _ h => h.1.1

end copies

theorem watchedRun_safe {b : String} {i : Nat} {call : Turn b} {boundary : ExecutionBoundary}
    (hb : boundary.store.name boundary.branchId = b) (hdrives : call.drives = true) (agent : Agent)
    (start : RunStart) {h : Code.History (Turn b)} (hinv : ProjectionInv b h)
    (hpre : Held i boundary.policy.regate (fun _ => True) h) :
    Safe (turns b) (turnContract b) i call (fun _ _ => True)
      (watchedRun boundary agent start) h := by
  unfold watchedRun
  rw [AttemptM.runFrom_discard]
  exact Safe.bind hinv (watch_triple hb hdrives agent.digest (agent.run start) {} h hinv hpre)
    fun _ _ _ _ _ _ _ => trivial

/-- What a bystander does is no one's projection, and completes no result. -/
theorem bystander_step {b : String} {i : Nat} {call : Turn b} {h : Code.History (Turn b)}
    {op : LedgerOp Record} (hop : Bystander b op) {now later : ℚ}
    {r : Except StoreError op.Reply} {s : MemorySteps Record} (hinv : ProjectionInv b h)
    (hmay : MayMove i call h) (hperform : op.perform now later h.now = (r, s)) :
    TurnGuar b i call h (.ledger op) r (Code.next h i call (.ledger op) r s) := by
  rcases hop with hb | hkeys | ⟨callId, resolution, workersStopped, token, hretry, rfl⟩
  · exact (plain_ledger_step (Or.inl hb) hinv hmay hperform).1
  · exact (plain_ledger_step (Or.inr (Or.inl hkeys)) hinv hmay hperform).1
  · refine (ledger_step hinv hmay hperform (fun callId' => Or.inr (by
      simpa [LedgerOp.keys] using (stepKey_ne_afterKey callId callId').symm))
      (fun _ => Or.inr (by simp [LedgerOp.controlKeys])) ?_).1
    -- A resolution never makes a step done unless it records a result, and this one retries.
    intro callId' hbefore hstatus
    exfalso
    rcases resolveEffect_cases h.now b (stepKey callId) resolution workersStopped token with
      ⟨_, heq⟩ | ⟨_, _, _, _, _, heq⟩ | ⟨_, _, _, _, _, heq⟩
    · obtain ⟨-, rfl⟩ := Prod.mk.inj (hperform.symm.trans heq)
      exact hbefore hstatus
    · obtain ⟨-, rfl⟩ := Prod.mk.inj (hperform.symm.trans heq)
      exact hbefore hstatus
    · obtain ⟨-, rfl⟩ := Prod.mk.inj (hperform.symm.trans heq)
      change ((h.now.setEntry b (stepKey callId) _).entry b (stepKey callId')).status = .done
        at hstatus
      rw [entry_setEntry] at hstatus
      split at hstatus
      · -- the call may run again
        simp [resolved, hretry] at hstatus
      · exact hbefore hstatus

theorem turns_safe (b : String) : SafeBodies (turns b) (turnContract b) := by
  intro i call h hinv _
  cases call with
  -- An attempt starts with no call to regate, so it owns none.
  | attempt boundary agent start hbranch hregate =>
    have hdrives : Turn.drives (.attempt boundary agent start hbranch hregate) = true := rfl
    refine watchedRun_safe hbranch hdrives agent start hinv (Or.inl fun h => ⟨?_, trivial⟩)
    rw [hregate]
    intro callId hmem
    cases hmem
  -- A fork copies first, and what it copied is its own to regate.
  | fork src dst calls regate boundary agent start hsrc hdst hbranch =>
    have hdrives : Turn.drives
        (.fork src dst calls regate boundary agent start hsrc hdst hbranch) = true := rfl
    have hcopy := copySteps_triple (i := i) (R := fun _ => True) hsrc hdst boundary.token hdrives
      calls persists_const
    refine Safe.bind hinv (hcopy h hinv (Or.inl fun _ => trivial)) fun copied h hinv hpost => ?_
    cases copied with
    | error e => exact fun _ _ _ => trivial
    | ok copied =>
      have hregated : (boundary.regating (if regate then copied else [])).store.name
          (boundary.regating (if regate then copied else [])).branchId = b := hbranch
      refine watchedRun_safe hregated hdrives agent start hinv
        (hpost.mono fun h hpost => ⟨?_, trivial⟩)
      cases regate with
      | true => exact hpost.2
      | false =>
        intro callId hmem
        cases hmem
  -- Any other operation of the branch or of the queue.
  | other op hop =>
    refine Pool.Triple.perform (S := turns b) (K := turnContract b) (P := fun _ => True)
      (M := fun _ _ => True) stable_const ?_
      (fun _ => Pool.Triple.pure stable_const fun _ _ _ => trivial) h hinv trivial
    intro h x hinv _ hmay
    exact ⟨bystander_step hop hinv hmay (Prod.ext rfl rfl : op.perform x.now x.later h.now = _),
      trivial⟩

/-- Whoever moves in turn was allowed to. -/
theorem mayMove_of_inTurn {b : String} {i : Nat} {call : Turn b} {h : Code.History (Turn b)}
    {o : Op} {r : o.Reply} {s : MemorySteps Record} {log : List (Code.Event (Turn b))}
    (hturns : InTurn log) (hlog : h.log ++ [⟨i, call, o, r, s⟩] <+: log) : MayMove i call h := by
  intro hdrives e he hedrives
  obtain ⟨rest, rfl⟩ := hlog
  have hpair : (((h.log ++ [(⟨i, call, o, r, s⟩ : Code.Event (Turn b))]).filter
      fun e => e.call.drives).map Pool.Event.tid).Pairwise (· ≤ ·) := by
    refine List.Pairwise.sublist ?_ hturns
    exact (((List.prefix_append _ rest).sublist).filter _).map _
  rw [List.filter_append, List.map_append, List.pairwise_append] at hpair
  refine hpair.2.2 e.tid ?_ i ?_
  · exact List.mem_map_of_mem (List.mem_filter.mpr ⟨he, hedrives⟩)
  · simp [hdrives]

/-- **Result first, and one projection**: in every sequence of attempts on a branch, each given
    up anywhere, a stored projection has its result committed, as the handler returned it; and
    every later attempt hands over what was stored, and does not ask the controls again. Attempts
    may begin and crash at any time; the one hypothesis is that they follow one another, as those
    do that hold the branch's lease: once a later one has moved, no earlier one moves. What others
    do to the ledger meanwhile neither stores a projection of the branch nor completes a result. -/
theorem projection_stable (b : String) (schedule : List (Action (Turn b) Env))
    (hturns : InTurn ((turns b).after { hist := ⟨MemorySteps.init, []⟩ } schedule).hist.log) :
    ProjectionInv b ((turns b).after { hist := ⟨MemorySteps.init, []⟩ } schedule).hist := by
  have hinit : ProjectionInv b (⟨MemorySteps.init, []⟩ : Code.History (Turn b)) := by
    refine ⟨?_, ?_, ?_, ?_, always_nil⟩
    · intro callId hstatus
      cases hstatus
    · intro callId hstatus
      cases hstatus
    · intro callId p e he
      cases he
    · intro callId hstatus
      cases hstatus
  refine (contract_after (turns_safe b) (poolInv_init hinit) schedule
    (admissible_of_log rfl fun i call h o x _ hlog => ?_)).inv
  exact mayMove_of_inTurn hturns hlog

/-! An attempt with controls is given up once the projection is stored; one without them
    follows. -/

section redacted

/-- An agent that calls one tool, and stops. -/
def readingAgent : Agent where
  digest _ _ := ""
  run _ := .perform (.tool ⟨0, []⟩ { name := "read" } ⟨"read", "", "c1"⟩ "" false) fun _ =>
    .pure (.error .cancelled)

/-- An attempt of the branch, with controls or without. -/
def readingTurn (controls : Bool) : Turn "main" :=
  .attempt ⟨.whole, "main", 0, false, ⟨controls, "", "", Dict.empty, []⟩, false, false⟩
    readingAgent {} rfl rfl

/-- The tool returns a number, and the controls redact it. -/
def redacting : Env where
  reply
    | .handler _ _ => .ok "123-45-6789"
    | .postToolUse _ _ _ => .ok "***"
    | e => (outside 0 ⟨[]⟩ .continue).reply e

def redactedTwice : List (Action (Turn "main") Env) :=
  .begin (readingTurn true) :: List.replicate 12 (.run 0 redacting) ++
    .crash 0 :: .begin (readingTurn false) :: List.replicate 8 (.run 1 redacting)

/-- What was handed over, and in which attempt. -/
def handedOver (log : List (Code.Event (Turn "main"))) : List (Nat × Except Raised Json) :=
  log.filterMap fun e =>
    match e.op with
    | .ext (.mark (.handed _ result)) => some (e.tid, result)
    | _ => none

theorem projection_stable_redacted :
    ProjectionInv "main" ((turns "main").after { hist := ⟨MemorySteps.init, []⟩ }
      redactedTwice).hist ∧
    (((turns "main").after { hist := ⟨MemorySteps.init, []⟩ } redactedTwice).hist.now.entry "main"
      (stepKey "c1")).value = some (.tool (.ok "123-45-6789")) ∧
    handedOver ((turns "main").after { hist := ⟨MemorySteps.init, []⟩ } redactedTwice).hist.log
      = [(1, .ok "***")] := by
  refine ⟨projection_stable "main" redactedTwice ?_, ?_, ?_⟩
  · show List.Pairwise (· ≤ ·) _
    decide +kernel
  · decide +kernel
  · decide +kernel

end redacted

end Projection

end Semora
