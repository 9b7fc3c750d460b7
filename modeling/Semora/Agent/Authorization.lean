import Semora.Agent.Boundary
import Semora.Store.Effects

/-! # What Authorizes a Handler

    Attempts of any agent under the execution boundary, over any ledger,
    while anyone calls the ledger in between. A handler is invoked only when
    this attempt's controls let its call through; a call the gate is not asked
    about is answered from its record.

    Only two facts about the ledger carry this: a completed step stays
    completed, and the journal reads the step again before it begins it. -/

namespace Semora

open Pool MemorySteps

/-! ## Section 1: Attempts -/

/-- An attempt, or a call of the ledger by anyone. -/
inductive AttemptCall where
  | attempt (boundary : ExecutionBoundary) (agent : Agent) (start : RunStart)
  | other (op : LedgerOp Record)

/-- The code of one attempt's agent. -/
def attemptBody : AttemptCall → Prog Op Op.Reply Unit
  | .attempt boundary agent start =>
    (boundary.drive agent.digest (agent.run start)).runFrom {} >>= fun _ => .pure ()
  | .other op => .perform (.ledger op) fun _ => .pure ()

/-- Attempts and other calls over one ledger. -/
def attempts : System (MemorySteps Record) Env Op.Reply fun _ : AttemptCall => Unit :=
  Code.system fun _ call => attemptBody call

/-! ## Section 2: Authorization -/

section property

variable {C : Type} (i : Nat)

/-- Thread `i` enters `before_tool_execute`. -/
def Enters (e : Code.Event C) : Prop :=
  e.tid = i ∧ ∃ call approved, e.did (.ext (.mark (.toolEntered call approved))) ()

/-- Thread `i` is handed a tool of this name that is declared `requires_approval`. -/
def Declares (name : String) (e : Code.Event C) : Prop :=
  e.tid = i ∧ ∃ defs, e.did (.ext (.mark (.toolsPrepared defs))) () ∧
    ∃ d ∈ defs, d.name = name ∧ d.unapproved = true

/-- Thread `i` begins a tool round. -/
def BeginsRound (e : Code.Event C) : Prop :=
  e.tid = i ∧ e.did (.ext (.mark .roundBegan)) ()

/-- Thread `i` decides to suspend a call. -/
def Suspends (e : Code.Event C) : Prop :=
  e.tid = i ∧ ∃ callId request, e.did (.ext (.mark (.decided callId (.suspend request)))) ()

/-- No call decided in this round of thread `i` was suspended. -/
def Unsuspended (log : List (Code.Event C)) : Prop :=
  ¬ Since (Suspends i) (fun d => ¬ BeginsRound i d) log

/-- `pre_tool_use` returns `Continue` for the call. -/
def GatePassed (call : ToolCall) (e : Code.Event C) : Prop :=
  e.tid = i ∧ ∃ here, e.did (.ext (.preToolUse here call)) (.ok .continue)

/-- `on_resume` returns `Continue` for the call, with the arguments it will run with. -/
def ResumePassed (call : ToolCall) (e : Code.Event C) : Prop :=
  e.tid = i ∧ ∃ here args resume,
    e.did (.ext (.onResume here (PolicyRunner.effectiveCall call args) resume)) (.ok .continue)

/-- The first thing thread `i` did is to find the call's step recorded. -/
def FoundRecorded (b callId : String) (mid : List (Code.Event C)) : Prop :=
  ∃ before e rest step, mid = before ++ e :: rest ∧ (∀ d ∈ before, d.tid ≠ i) ∧ e.tid = i ∧
    e.did (.ledger (.read b (stepKey callId))) (.ok step) ∧ step.status = .done

variable (boundary : ExecutionBoundary)

/-- The gate is not asked: the call is recorded, and not by another run. -/
def Bypassed (call : ToolCall) (mid : List (Code.Event C)) : Prop :=
  call.toolCallId ∉ boundary.policy.regate ∧
    FoundRecorded i (boundary.store.name boundary.branchId) call.toolCallId mid

/-- A call that was not approved passed the gate: by its controls, when there are some, with
    no declared approval and no suspension in its round. -/
def Gated (call : ToolCall) (before mid : List (Code.Event C)) : Prop :=
  (boundary.policy.controls = true → ∃ d ∈ mid, GatePassed i call d) ∧
  (∀ d ∈ before, ¬ Declares i call.toolName d) ∧ Unsuspended i before

/-- A call that came back approved passed `on_resume`, unless there is nothing to ask. -/
def Revalidated (call : ToolCall) (mid : List (Code.Event C)) : Prop :=
  boundary.policy.controls = false ∨ boundary.policy.resumed.get? call.toolCallId = none ∨
    ∃ d ∈ mid, ResumePassed i call d

/-- After `before`, thread `i` may invoke the call's handler: since the call came to the
    boundary, this attempt has let it through, and did not just find it recorded. -/
def Authorized (call : ToolCall) (before : List (Code.Event C)) : Prop :=
  ∃ pre m mid approved, LastOf (Enters i) before pre m mid ∧
    m.did (.ext (.mark (.toolEntered call approved))) () ∧ ¬ Bypassed i boundary call mid ∧
    ((approved = false ∧ Gated i boundary call before mid) ∨
      (approved = true ∧ Revalidated i boundary call mid))

/-- `result` is what the step's record held when thread `i` looked. -/
def FromRecord (b callId : String) (mid : List (Code.Event C))
    (result : Except Raised (Option Record)) : Prop :=
  ∃ d ∈ mid, d.tid = i ∧ ∃ step, d.did (.ledger (.read b (stepKey callId))) (.ok step) ∧
    step.status = .done ∧ result = .ok step.value

end property

/-- The tool boundary lets nothing through unauthorized. -/
structure BoundarySound (log : List (Code.Event AttemptCall)) : Prop where
  /-- A handler is invoked only for an authorized call. -/
  authorized : Always (fun before e => ∀ boundary agent start,
    e.call = .attempt boundary agent start → ∀ call args reply,
      e.did (.ext (.handler call args)) reply → Authorized e.tid boundary call before) log
  /-- A call that bypasses the gate is answered from its record. -/
  replayed : Always (fun before e => ∀ boundary agent start,
    e.call = .attempt boundary agent start → ∀ callId result,
      e.did (.ext (.mark (.toolReturned callId result))) () →
        ∀ pre m mid call approved, LastOf (Enters e.tid) before pre m mid →
          m.did (.ext (.mark (.toolEntered call approved))) () →
            Bypassed e.tid boundary call mid →
              FromRecord e.tid (boundary.store.name boundary.branchId) callId mid result) log
  /-- Every suspension that is decided carries a routable `pending_id`. -/
  routable : Always (fun _ e => ∀ callId request,
    e.did (.ext (.mark (.decided callId (.suspend request)))) () → request.routable = true) log

/-! ## Section 3: The contract -/

/-- A control point, or a call of the ledger: nothing the properties speak about. -/
def Neutral (o : Op) : Prop :=
  (∀ call args, o ≠ .ext (.handler call args)) ∧ ∀ m, o ≠ .ext (.mark m)

/-- Nothing that enters a call, declares a tool or suspends. -/
def Harmless (o : Op) : Prop :=
  (∀ call approved, o ≠ .ext (.mark (.toolEntered call approved))) ∧
  (∀ defs, o ≠ .ext (.mark (.toolsPrepared defs))) ∧
  ∀ callId request, o ≠ .ext (.mark (.decided callId (.suspend request)))

theorem Neutral.harmless {o : Op} (ho : Neutral o) : Harmless o :=
  ⟨fun _ _ => ho.2 _, fun _ => ho.2 _, fun _ _ => ho.2 _⟩

section contract

variable {C : Type}

/-- Thread `i` did harmless things, and the others anything. -/
structure Passing (i : Nat) (h h' : Code.History C) : Prop where
  log : ∃ more, h'.log = h.log ++ more ∧ ∀ e ∈ more, e.tid ≠ i ∨ Harmless e.op
  done : ∀ b key, (h.now.entry b key).status = .done → (h'.now.entry b key).status = .done

/-- The others did anything. -/
structure AuthRely (i : Nat) (h h' : Code.History C) : Prop where
  log : ∃ more, h'.log = h.log ++ more ∧ ∀ e ∈ more, e.tid ≠ i
  done : ∀ b key, (h.now.entry b key).status = .done → (h'.now.entry b key).status = .done

theorem AuthRely.passing {i : Nat} {h h' : Code.History C} (hrely : AuthRely i h h') :
    Passing i h h' := by
  obtain ⟨more, hlog, hmore⟩ := hrely.log
  exact ⟨⟨more, hlog, fun e he => Or.inl (hmore e he)⟩, hrely.done⟩

theorem AuthRely.trans {i : Nat} {h₁ h₂ h₃ : Code.History C} (h : AuthRely i h₁ h₂)
    (h' : AuthRely i h₂ h₃) : AuthRely i h₁ h₃ := by
  obtain ⟨more, hlog, hmore⟩ := h.log
  obtain ⟨more', hlog', hmore'⟩ := h'.log
  refine ⟨⟨more ++ more', by simp [hlog', hlog], fun e he => ?_⟩, fun b key hdone =>
    h'.done b key (h.done b key hdone)⟩
  exact (List.mem_append.mp he).elim (hmore e) (hmore' e)

/-- What each operation guarantees: it is logged, the log stays sound, and completed steps
    stay completed. -/
structure AuthGuar (i : Nat) (call : AttemptCall) (h : Code.History AttemptCall) (o : Op)
    (r : o.Reply) (h' : Code.History AttemptCall) : Prop where
  log : h'.log = h.log ++ [⟨i, call, o, r, h'.now⟩]
  sound : BoundarySound h'.log
  done : ∀ b key, (h.now.entry b key).status = .done → (h'.now.entry b key).status = .done

/-- The contract of attempts. -/
def authContract : Contract (MemorySteps Record) Env AttemptCall Op.Reply where
  inv h := BoundarySound h.log
  ok _ _ _ _ _ := True
  rely := AuthRely
  guar := AuthGuar
  rely_refl _ _ := ⟨⟨[], (List.append_nil _).symm, by simp⟩, fun _ _ h => h⟩
  rely_trans := AuthRely.trans
  keep _ hguar := hguar.sound
  others {i j _ _ _ _ _} _ hguar hne := by
    refine ⟨⟨_, hguar.log, fun e he => ?_⟩, hguar.done⟩
    obtain rfl := List.mem_singleton.mp he
    exact Ne.symm hne

end contract

/-! ## Section 4: Assertions -/

section assertions

variable {C : Type} (i : Nat) (boundary : ExecutionBoundary)

/-- What harmless steps of one's own and anything others do cannot invalidate. -/
def Persistent (P : Code.History C → Prop) : Prop := ∀ h h', P h → Passing i h h' → P h'

/-- The log agrees with `_approval_tools` and `_suspended_this_round`. -/
structure Tracks (approvalTools : List String) (suspended : Bool) (h : Code.History C) :
    Prop where
  declared : ∀ d ∈ h.log, ∀ name, Declares i name d → name ∈ approvalTools
  unsuspended : suspended = false → Unsuspended i h.log

/-- The call is at the boundary, and `R` of what happened since it came there. -/
def AtBoundary (call : ToolCall) (approved : Bool) (R : List (Code.Event C) → Prop)
    (h : Code.History C) : Prop :=
  ∃ pre m mid, LastOf (Enters i) h.log pre m mid ∧
    m.did (.ext (.mark (.toolEntered call approved))) () ∧ R mid

/-- The call's step is completed. -/
def StepDone (call : ToolCall) (h : Code.History C) : Prop :=
  (h.now.entry (boundary.store.name boundary.branchId) (stepKey call.toolCallId)).status = .done

/-- The boundary has looked whether the call is recorded. -/
def LookedUp (call : ToolCall) (recorded : Bool) (mid : List (Code.Event C)) : Prop :=
  (∃ d ∈ mid, d.tid = i) ∧ (recorded = false →
    ¬ FoundRecorded i (boundary.store.name boundary.branchId) call.toolCallId mid)

/-- The call is authorized, and the boundary has looked it up before. -/
def Cleared (call : ToolCall) (h : Code.History C) : Prop :=
  ∃ approved, AtBoundary i call approved (fun mid => (∃ d ∈ mid, d.tid = i) ∧
      ¬ Bypassed i boundary call mid ∧
      (approved = false → boundary.policy.controls = true → ∃ d ∈ mid, GatePassed i call d) ∧
      (approved = true → Revalidated i boundary call mid)) h ∧
    (approved = false → (∀ d ∈ h.log, ¬ Declares i call.toolName d) ∧ Unsuspended i h.log)

/-- The call may go on: it is authorized, or will be answered from its record. -/
def MayGoOn (call : ToolCall) (h : Code.History C) : Prop :=
  Cleared i boundary call h ∨
    (∃ approved, AtBoundary i call approved (fun _ => True) h) ∧ StepDone boundary call h

/-- `result` may be returned: it is the record, or the call was authorized. -/
def Answerable (call : ToolCall) (result : Except Raised (Option Record))
    (h : Code.History C) : Prop :=
  Cleared i boundary call h ∨ ∃ approved, AtBoundary i call approved
    (fun mid => FromRecord i (boundary.store.name boundary.branchId) call.toolCallId mid result) h

variable {i boundary} {h h' : Code.History C}

theorem Persistent.and {P Q : Code.History C → Prop} (hP : Persistent i P)
    (hQ : Persistent i Q) : Persistent i fun h => P h ∧ Q h :=
  fun h h' hPQ hpass => ⟨hP h h' hPQ.1 hpass, hQ h h' hPQ.2 hpass⟩

theorem Persistent.imp {a : Prop} {P : Code.History C → Prop} (hP : Persistent i P) :
    Persistent i fun h => a → P h :=
  fun h h' hpre hpass ha => hP h h' (hpre ha) hpass

theorem Persistent.stable {P : Code.History AttemptCall → Prop} (hP : Persistent i P) :
    Stable authContract i P :=
  fun h h' hpre hrely _ => hP h h' hpre (AuthRely.passing hrely)

theorem not_enters_of_harmless {e : Code.Event C} (he : e.tid ≠ i ∨ Harmless e.op) :
    ¬ Enters i e := fun ⟨htid, _, _, hdid⟩ =>
  he.elim (fun hne => hne htid) fun h => h.1 _ _ (congrArg Sigma.fst hdid)

theorem not_declares_of_harmless {e : Code.Event C} (he : e.tid ≠ i ∨ Harmless e.op)
    (name : String) : ¬ Declares i name e := fun ⟨htid, _, hdid, _⟩ =>
  he.elim (fun hne => hne htid) fun h => h.2.1 _ (congrArg Sigma.fst hdid)

theorem not_suspends_of_harmless {e : Code.Event C} (he : e.tid ≠ i ∨ Harmless e.op) :
    ¬ Suspends i e := fun ⟨htid, _, _, hdid⟩ =>
  he.elim (fun hne => hne htid) fun h => h.2.2 _ _ (congrArg Sigma.fst hdid)

theorem persistent_tracks (approvalTools : List String) (suspended : Bool) :
    Persistent i (Tracks (C := C) i approvalTools suspended) := by
  intro h h' htracks hpass
  obtain ⟨more, hlog, hmore⟩ := hpass.log
  refine ⟨fun d hd name hdeclares => ?_, fun hst hsince => ?_⟩
  · rw [hlog] at hd
    rcases List.mem_append.mp hd with hd | hd
    · exact htracks.declared d hd name hdeclares
    · exact absurd hdeclares (not_declares_of_harmless (hmore d hd) name)
  · rw [hlog] at hsince
    exact htracks.unsuspended hst
      (hsince.of_append fun d hd => not_suspends_of_harmless (hmore d hd))

theorem persistent_stepDone (call : ToolCall) :
    Persistent i (StepDone (C := C) boundary call) :=
  fun _ _ hdone hpass => hpass.done _ _ hdone

theorem persistent_atBoundary {call : ToolCall} {approved : Bool}
    {R : List (Code.Event C) → Prop} (hR : ∀ mid more, R mid → R (mid ++ more)) :
    Persistent i (AtBoundary i call approved R) := by
  rintro h h' ⟨pre, m, mid, hlast, hm, hmid⟩ hpass
  obtain ⟨more, hlog, hmore⟩ := hpass.log
  refine ⟨pre, m, mid ++ more, ?_, hm, hR mid more hmid⟩
  rw [hlog]
  exact hlast.append fun d hd => not_enters_of_harmless (hmore d hd)

/-- Once one's first step is known, what follows it does not matter. -/
theorem FoundRecorded.of_append {b callId : String} {mid more : List (Code.Event C)}
    (hown : ∃ d ∈ mid, d.tid = i) (h : FoundRecorded i b callId (mid ++ more)) :
    FoundRecorded i b callId mid := by
  obtain ⟨d, hd, htid⟩ := hown
  obtain ⟨before, e, rest, step, hsplit, hbefore, hread⟩ := h
  rcases List.append_eq_append_iff.mp hsplit with ⟨more', rfl, _⟩ | ⟨more', hmid, hrest⟩
  · exact absurd htid (hbefore d (List.mem_append_left _ hd))
  · cases more' with
    | nil =>
      rw [List.append_nil] at hmid
      exact absurd htid (hbefore d (hmid ▸ hd))
    | cons e' more' =>
      obtain ⟨rfl, rfl⟩ : e = e' ∧ rest = more' ++ more := by simpa using hrest
      exact ⟨before, e, more', step, hmid, hbefore, hread⟩

theorem LookedUp.append {call : ToolCall} {recorded : Bool} {mid : List (Code.Event C)}
    (hlooked : LookedUp i boundary call recorded mid) (more : List (Code.Event C)) :
    LookedUp i boundary call recorded (mid ++ more) := by
  obtain ⟨hown, hnot⟩ := hlooked
  refine ⟨?_, fun hrecorded hfound => hnot hrecorded (hfound.of_append hown)⟩
  obtain ⟨d, hd, htid⟩ := hown
  exact ⟨d, List.mem_append_left _ hd, htid⟩

theorem persistent_cleared (call : ToolCall) :
    Persistent i (Cleared (C := C) i boundary call) := by
  rintro h h' ⟨approved, hat, hgate⟩ hpass
  have hlater : ∀ (P : Code.Event C → Prop) (mid more : List (Code.Event C)),
      (∃ d ∈ mid, P d) → ∃ d ∈ mid ++ more, P d := by
    rintro P mid more ⟨d, hd, hP⟩
    exact ⟨d, List.mem_append_left _ hd, hP⟩
  refine ⟨approved, persistent_atBoundary ?_ h h' hat hpass, fun happroved => ?_⟩
  · rintro mid more ⟨hown, hbypassed, hgated, hresumed⟩
    refine ⟨hlater _ mid more hown, fun ⟨hregate, hfound⟩ =>
      hbypassed ⟨hregate, hfound.of_append hown⟩, fun ha hc => hlater _ mid more (hgated ha hc),
      fun ha => ?_⟩
    exact (hresumed ha).imp id (Or.imp id (hlater _ mid more))
  · obtain ⟨hdeclared, hunsuspended⟩ := hgate happroved
    obtain ⟨more, hlog, hmore⟩ := hpass.log
    rw [hlog]
    refine ⟨fun d hd => ?_, fun hsince => hunsuspended
      (hsince.of_append fun d hd => not_suspends_of_harmless (hmore d hd))⟩
    rcases List.mem_append.mp hd with hd | hd
    · exact hdeclared d hd
    · exact not_declares_of_harmless (hmore d hd) _

theorem persistent_mayGoOn (call : ToolCall) : Persistent i (MayGoOn (C := C) i boundary call) :=
  fun h h' hmay hpass => hmay.imp (fun hc => persistent_cleared call h h' hc hpass)
    fun ⟨⟨approved, hat⟩, hdone⟩ => ⟨⟨approved, persistent_atBoundary (fun _ _ _ => trivial) h h'
      hat hpass⟩, persistent_stepDone call h h' hdone hpass⟩

theorem persistent_answerable (call : ToolCall) (result : Except Raised (Option Record)) :
    Persistent i (Answerable (C := C) i boundary call result) :=
  fun h h' hmay hpass => hmay.imp (fun hc => persistent_cleared call h h' hc hpass)
    fun ⟨approved, hat⟩ => ⟨approved, persistent_atBoundary
      (fun _ _ ⟨d, hd, hread⟩ => ⟨d, List.mem_append_left _ hd, hread⟩) h h' hat hpass⟩

/-- What may be returned is the record, when the call has bypassed the gate. -/
theorem Answerable.fromRecord {call call' : ToolCall} {result : Except Raised (Option Record)}
    (hanswer : Answerable i boundary call result h) {pre mid : List (Code.Event C)}
    {m : Code.Event C} {approved : Bool} (hlast : LastOf (Enters i) h.log pre m mid)
    (hm : m.did (.ext (.mark (.toolEntered call' approved))) ())
    (hbypassed : Bypassed i boundary call' mid) :
    FromRecord i (boundary.store.name boundary.branchId) call.toolCallId mid result := by
  rcases hanswer with ⟨approved', ⟨pre', m', mid', hlast', hm', _, hnot, _⟩, _⟩ |
    ⟨_, pre', m', mid', hlast', _, hrecord⟩
  · obtain ⟨_, rfl, rfl⟩ := hlast.unique hlast'
    cases hm.symm.trans hm'
    exact absurd hbypassed hnot
  · obtain ⟨_, _, rfl⟩ := hlast.unique hlast'
    exact hrecord

theorem Cleared.authorized {call : ToolCall} (hcleared : Cleared i boundary call h) :
    Authorized i boundary call h.log := by
  obtain ⟨approved, ⟨pre, m, mid, hlast, hm, _, hbypassed, hgated, hresumed⟩, hgate⟩ := hcleared
  refine ⟨pre, m, mid, approved, hlast, hm, hbypassed, ?_⟩
  cases approved with
  | false => exact Or.inl ⟨rfl, hgated rfl, hgate rfl⟩
  | true => exact Or.inr ⟨rfl, hresumed rfl⟩

end assertions

/-! ## Section 5: What one event does -/

section events

variable {i : Nat} {call : AttemptCall} {h h' : Code.History AttemptCall}

theorem BoundarySound.concat {log : List (Code.Event AttemptCall)}
    {e : Code.Event AttemptCall} (hsound : BoundarySound log)
    (hauthorized : ∀ boundary agent start, e.call = .attempt boundary agent start →
      ∀ call args reply, e.did (.ext (.handler call args)) reply →
        Authorized e.tid boundary call log)
    (hreplayed : ∀ boundary agent start, e.call = .attempt boundary agent start →
      ∀ callId result, e.did (.ext (.mark (.toolReturned callId result))) () →
        ∀ pre m mid call approved, LastOf (Enters e.tid) log pre m mid →
          m.did (.ext (.mark (.toolEntered call approved))) () →
            Bypassed e.tid boundary call mid →
              FromRecord e.tid (boundary.store.name boundary.branchId) callId mid result)
    (hroutable : ∀ callId request, e.did (.ext (.mark (.decided callId (.suspend request)))) () →
      request.routable = true) : BoundarySound (log ++ [e]) where
  authorized := always_concat.mpr ⟨hsound.authorized, hauthorized⟩
  replayed := always_concat.mpr ⟨hsound.replayed, hreplayed⟩
  routable := always_concat.mpr ⟨hsound.routable, hroutable⟩

/-- The ledger keeps completed steps, and the outside does not touch it. -/
theorem perform_keeps_done (s : MemorySteps Record) (x : Env) (o : Op) {b key : String}
    (hdone : (s.entry b key).status = .done) :
    ((Semora.perform s x o).2.entry b key).status = .done := by
  cases o with
  | ledger op => exact perform_done op x.now x.later hdone
  | ext e => exact hdone

/-- A neutral operation is guaranteed, and anything persistent survives it. -/
theorem neutral_event {P : Code.History AttemptCall → Prop} (hP : Persistent i P)
    (hsound : BoundarySound h.log) (hpre : P h) {o : Op} (ho : Neutral o) {r : o.Reply}
    {s : MemorySteps Record}
    (hdone : ∀ b key, (h.now.entry b key).status = .done → (s.entry b key).status = .done) :
    AuthGuar i call h o r (Code.next h i call o r s) ∧ P (Code.next h i call o r s) := by
  refine ⟨⟨rfl, hsound.concat ?_ ?_ ?_, hdone⟩, hP h _ hpre ⟨⟨_, rfl, ?_⟩, hdone⟩⟩
  · exact fun _ _ _ _ call args _ hdid => absurd (Event.op_of_did hdid) (ho.1 call args)
  · exact fun _ _ _ _ _ _ hdid => absurd (Event.op_of_did hdid) (ho.2 _)
  · exact fun _ _ hdid => absurd (Event.op_of_did hdid) (ho.2 _)
  · intro e he
    obtain rfl := List.mem_singleton.mp he
    exact Or.inr ho.harmless

theorem neutral_ledger (call : AttemptCall) {P : Code.History AttemptCall → Prop}
    (hP : Persistent i P) (hsound : BoundarySound h.log) (hpre : P h)
    {op : LedgerOp Record} {x : Env}
    {r : Except StoreError op.Reply} {s : MemorySteps Record}
    (hperform : op.perform x.now x.later h.now = (r, s)) :
    AuthGuar i call h (.ledger op) r (Code.next h i call (.ledger op) r s) ∧
      P (Code.next h i call (.ledger op) r s) := by
  obtain rfl : (op.perform x.now x.later h.now).2 = s := by rw [hperform]
  exact neutral_event hP hsound hpre (by simp [Neutral]) fun b key => perform_done op x.now x.later

theorem neutral_ask (call : AttemptCall) {P : Code.History AttemptCall → Prop}
    (hP : Persistent i P) (hsound : BoundarySound h.log) (hpre : P h) {e : External}
    (he : Neutral (.ext e))
    (r : e.Reply) :
    AuthGuar i call h (.ext e) r (Code.next h i call (.ext e) r h.now) ∧
      P (Code.next h i call (.ext e) r h.now) :=
  neutral_event hP hsound hpre he fun _ _ hdone => hdone

/-- The triples of attempts. -/
abbrev ATriple {α : Type} (i : Nat) (call : AttemptCall)
    (P : Code.History AttemptCall → Prop) (x : Code α)
    (Q : α → Code.History AttemptCall → Prop) (E : Raised → Code.History AttemptCall → Prop) :
    Prop :=
  Code.Triple (fun _ call => attemptBody call) authContract i call P x Q E

/-- Neutral code leaves what is persistent. -/
theorem neutral_triple {α : Type} {x : Code α} {P : Code.History AttemptCall → Prop}
    (hx : Code.Only Neutral x) (hP : Persistent i P) :
    ATriple i call P x (fun _ => P) (fun _ => P) :=
  Code.Triple.invariant hx hP.stable fun o ho h x hinv hpre _ =>
    neutral_event hP hinv hpre ho fun _ _ => perform_keeps_done h.now x o

/-- A mark is guaranteed when what it says is sound. -/
theorem mark_step {m : Mark} (hsound : BoundarySound h.log)
    (hreplayed : ∀ boundary agent start, call = .attempt boundary agent start →
      ∀ callId result, m = .toolReturned callId result →
        ∀ pre m mid call approved, LastOf (Enters i) h.log pre m mid →
          m.did (.ext (.mark (.toolEntered call approved))) () →
            Bypassed i boundary call mid →
              FromRecord i (boundary.store.name boundary.branchId) callId mid result)
    (hroutable : ∀ callId request, m = .decided callId (.suspend request) →
      request.routable = true) :
    AuthGuar i call h (.ext (.mark m)) () (Code.next h i call (.ext (.mark m)) () h.now) := by
  refine ⟨rfl, hsound.concat ?_ ?_ ?_, fun _ _ h => h⟩
  · intro _ _ _ _ _ _ _ hdid
    cases Event.op_of_did hdid
  · intro boundary agent start hcall callId result hdid
    have hm : m = .toolReturned callId result := by
      cases Event.op_of_did hdid
      rfl
    exact hreplayed boundary agent start hcall callId result hm
  · intro callId request hdid
    have hm : m = .decided callId (.suspend request) := by
      cases Event.op_of_did hdid
      rfl
    exact hroutable callId request hm

/-- A mark that ends no tool call and decides nothing. -/
theorem plain_mark_step {m : Mark} (hsound : BoundarySound h.log)
    (hreturned : ∀ callId result, m ≠ .toolReturned callId result)
    (hdecided : ∀ callId decision, m ≠ .decided callId decision) :
    AuthGuar i call h (.ext (.mark m)) () (Code.next h i call (.ext (.mark m)) () h.now) :=
  mark_step hsound (fun _ _ _ _ callId result hm => absurd hm (hreturned callId result))
    fun callId _ hm => absurd hm (hdecided callId _)

/-- An event of one's own that is not the entry of a call. -/
theorem AtBoundary.step {call' : ToolCall} {approved : Bool}
    {R R' : List (Code.Event AttemptCall) → Prop} (hat : AtBoundary i call' approved R h)
    {o : Op} {r : o.Reply} {s : MemorySteps Record}
    (ho : ∀ call approved, o ≠ .ext (.mark (.toolEntered call approved)))
    (hR : ∀ mid, R mid → R' (mid ++ [⟨i, call, o, r, s⟩])) :
    AtBoundary i call' approved R' (Code.next h i call o r s) := by
  obtain ⟨pre, m, mid, hlast, hm, hmid⟩ := hat
  refine ⟨pre, m, _, hlast.append fun d hd henters => ?_, hm, hR mid hmid⟩
  obtain rfl := List.mem_singleton.mp hd
  obtain ⟨_, _, _, hdid⟩ := henters
  exact ho _ _ (Event.op_of_did hdid)

/-- An event of one's own that declares no tool and suspends no call. -/
theorem Tracks.step {approvalTools : List String} {suspended : Bool}
    (htracks : Tracks i approvalTools suspended h) {o : Op} {r : o.Reply}
    {s : MemorySteps Record} (hprepared : ∀ defs, o ≠ .ext (.mark (.toolsPrepared defs)))
    (hsuspends : suspended = false →
      ∀ callId request, o ≠ .ext (.mark (.decided callId (.suspend request)))) :
    Tracks i approvalTools suspended (Code.next h i call o r s) := by
  refine ⟨fun d hd name hdeclares => ?_, fun hfalse hsince =>
    htracks.unsuspended hfalse (hsince.of_append fun d hd hsuspend => ?_)⟩
  · rcases List.mem_append.mp hd with hd | hd
    · exact htracks.declared d hd name hdeclares
    · obtain rfl := List.mem_singleton.mp hd
      obtain ⟨_, defs, hdid, _⟩ := hdeclares
      exact absurd (Event.op_of_did hdid) (hprepared defs)
  · obtain rfl := List.mem_singleton.mp hd
    obtain ⟨_, _, _, hdid⟩ := hsuspend
    exact hsuspends hfalse _ _ (Event.op_of_did hdid)

end events

/-! ## Section 6: The policy -/

section policy

variable {i : Nat} {call : AttemptCall} {α β : Type}

/-- The policy's fields keep track of the log. -/
abbrev Tracked (i : Nat) (st : AttemptState) : Code.History AttemptCall → Prop :=
  Tracks i st.approvalTools st.suspendedThisRound

/-- The triples of an attempt's code. -/
abbrev BTriple (i : Nat) (call : AttemptCall)
    (P : AttemptState → Code.History AttemptCall → Prop) (x : AttemptM α)
    (Q : α → AttemptState → Code.History AttemptCall → Prop) : Prop :=
  AttemptM.Triple (fun _ call => attemptBody call) authContract i call P x Q
    fun _ => Tracked i

/-- Code that keeps the policy's fields on track. -/
def Keeps (i : Nat) (call : AttemptCall) (x : AttemptM α) : Prop :=
  BTriple i call (Tracked i) x fun _ => Tracked i

theorem stable_tracked (st : AttemptState) : Stable authContract i (Tracked i st) :=
  (persistent_tracks _ _).stable

theorem Keeps.bind {x : AttemptM α} {f : α → AttemptM β} (hx : Keeps i call x)
    (hf : ∀ a, Keeps i call (f a)) : Keeps i call (x >>= f) :=
  AttemptM.Triple.bind (fun _ => stable_tracked) hx hf

theorem keeps_pure (a : α) : Keeps i call (pure a : AttemptM α) :=
  AttemptM.Triple.pure stable_tracked fun _ _ _ h => h

theorem keeps_throw (e : Raised) : Keeps i call (throw e : AttemptM α) :=
  AttemptM.Triple.throw stable_tracked fun _ _ _ h => h

theorem keeps_code {x : Code α} (hx : Code.Only Neutral x) : Keeps i call (AttemptM.code x) :=
  AttemptM.Triple.code (fun _ => neutral_triple hx (persistent_tracks _ _))
    (fun _ => stable_tracked) fun _ => stable_tracked

theorem keeps_state : Keeps i call AttemptM.state :=
  (AttemptM.Triple.state stable_tracked).mono (fun _ _ _ h => h) (fun _ _ _ _ h => h.2)
    fun _ _ _ _ h => h

/-- A write of other fields. -/
theorem keeps_update {f : AttemptState → AttemptState}
    (htools : ∀ st, (f st).approvalTools = st.approvalTools := by exact fun _ => rfl)
    (hsuspended : ∀ st, (f st).suspendedThisRound = st.suspendedThisRound := by
      exact fun _ => rfl) :
    Keeps i call (AttemptM.update f) :=
  AttemptM.Triple.update stable_tracked fun st h _ htracked => by
    rw [Tracked, htools, hsuspended]
    exact htracked

theorem keeps_ite {p : Prop} [Decidable p] {x y : AttemptM α} (hx : p → Keeps i call x)
    (hy : ¬ p → Keeps i call y) : Keeps i call (if p then x else y) := by
  by_cases hp : p
  · rw [if_pos hp]
    exact hx hp
  · rw [if_neg hp]
    exact hy hp

/-- A question that is not the handler's. -/
theorem keeps_ask {e : External} (heq : e.Reply = Except Raised α) (he : Neutral (.ext e)) :
    Keeps i call (AttemptM.ask e heq) := keeps_code (Code.only_ask heq he)

theorem keeps_prepareTools (defs : List ToolDefinition) :
    Keeps i call (PolicyRunner.prepareTools defs) := by
  refine AttemptM.Triple.bind (fun _ => stable_tracked)
    (Q := fun _ st => Tracks i
      (st.approvalTools ++ (defs.filter ToolDefinition.unapproved).map ToolDefinition.name)
      st.suspendedThisRound) ?_ fun _ => ?_
  · refine AttemptM.Triple.code (fun st => Code.Triple.mark (stable_tracked st) ?_
      (persistent_tracks _ _).stable) (fun _ _ => (persistent_tracks _ _).stable)
      fun _ => stable_tracked
    intro h x hinv htracked _
    refine ⟨plain_mark_step hinv nofun nofun, fun d hd name hdeclares => ?_, fun hst hsince => ?_⟩
    · -- The tools are declared by this mark, which names them as the state does.
      rcases List.mem_append.mp hd with hd | hd
      · exact List.mem_append_left _ (htracked.declared d hd name hdeclares)
      · obtain rfl := List.mem_singleton.mp hd
        obtain ⟨_, defs', hdid, tool, htool, rfl, hunapproved⟩ := hdeclares
        cases Event.op_of_did hdid
        exact List.mem_append_right _ (List.mem_map_of_mem (List.mem_filter.mpr
          ⟨htool, hunapproved⟩))
    · refine htracked.unsuspended hst (hsince.of_append fun d hd hsuspends => ?_)
      obtain rfl := List.mem_singleton.mp hd
      obtain ⟨_, _, _, hdid⟩ := hsuspends
      cases Event.op_of_did hdid
  · exact AttemptM.Triple.bind (fun _ => stable_tracked)
      (AttemptM.Triple.update (Q := fun _ => Tracked i) (fun _ => (persistent_tracks _ _).stable)
        fun _ _ _ h => h) fun _ => keeps_pure _

theorem keeps_beginToolRound : Keeps i call PolicyRunner.beginToolRound := by
  refine AttemptM.Triple.bind (fun _ => stable_tracked)
    (Q := fun _ st => Tracks i st.approvalTools false) ?_ fun _ =>
      AttemptM.Triple.update (fun _ => (persistent_tracks _ _).stable) fun _ _ _ h => h
  refine AttemptM.Triple.code (fun st => Code.Triple.mark (stable_tracked st) ?_
    (persistent_tracks _ _).stable) (fun _ _ => (persistent_tracks _ _).stable)
    fun _ => stable_tracked
  intro h x hinv htracked _
  refine ⟨plain_mark_step hinv nofun nofun, (htracked.step (by simp) (by simp)).declared,
    fun _ hsince => ?_⟩
  rcases since_concat.mp hsince with hsuspends | ⟨_, hround⟩
  · obtain ⟨_, _, _, hdid⟩ := hsuspends
    cases Event.op_of_did hdid
  · exact hround ⟨rfl, rfl⟩

end policy

/-! ## Section 7: The tool boundary -/

section tool

variable {i : Nat} {boundary : ExecutionBoundary} {agent : Agent} {start : RunStart}
  {toolCall : ToolCall} {approved recorded : Bool}

/-- The call has been looked up. -/
def Known (i : Nat) (boundary : ExecutionBoundary) (toolCall : ToolCall)
    (approved recorded : Bool) (h : Code.History AttemptCall) : Prop :=
  AtBoundary i toolCall approved (LookedUp i boundary toolCall recorded) h ∧
    (recorded = true → StepDone boundary toolCall h)

theorem persistent_known :
    Persistent i (Known i boundary toolCall approved recorded) :=
  (persistent_atBoundary fun _ more hlooked => hlooked.append more).and
    (persistent_stepDone toolCall).imp

/-- The call has come to the boundary, and nothing was done for it. -/
abbrev Arrived (i : Nat) (toolCall : ToolCall) (approved : Bool) :
    Code.History AttemptCall → Prop :=
  AtBoundary i toolCall approved fun mid => ∀ d ∈ mid, d.tid ≠ i

theorem stable_arrived : Stable authContract i (Arrived i toolCall approved) := by
  rintro h h' ⟨pre, m, mid, hlast, hm, hmid⟩ hrely _
  obtain ⟨more, hlog, hmore⟩ := hrely.log
  refine ⟨pre, m, mid ++ more, ?_, hm, fun d hd => ?_⟩
  · rw [hlog]
    exact hlast.append fun d hd henters => hmore d hd henters.1
  · exact (List.mem_append.mp hd).elim (hmid d) (hmore d)

theorem entered_triple :
    BTriple i (.attempt boundary agent start) (Tracked i)
      (AttemptM.mark (.toolEntered toolCall approved))
      (fun _ st h => Tracked i st h ∧ Arrived i toolCall approved h) := by
  refine AttemptM.Triple.code (fun st => Code.Triple.mark (stable_tracked st) ?_
    ((stable_tracked st).and stable_arrived)) (fun _ st => (stable_tracked st).and stable_arrived)
    fun _ => stable_tracked
  intro h x hinv htracked _
  refine ⟨plain_mark_step hinv nofun nofun, htracked.step (by simp) (by simp), h.log, _, [],
    LastOf.concat h.log ⟨rfl, toolCall, approved, rfl⟩, rfl, by simp⟩

/-- The first thing done for a call is to look whether it is recorded. -/
theorem recorded_triple :
    BTriple i (.attempt boundary agent start)
      (fun st h => Tracked i st h ∧ Arrived i toolCall approved h)
      (AttemptM.code (boundary.journal.recorded toolCall.toolCallId))
      (fun recorded st h => Tracked i st h ∧ Known i boundary toolCall approved recorded h) := by
  refine AttemptM.Triple.code (fun st => Code.Triple.bind (fun _ => stable_tracked st)
    (Q := fun step h => Tracked i st h ∧
      Known i boundary toolCall approved (decide (step.status = .done)) h)
    (Code.Triple.ledger ((stable_tracked st).and stable_arrived) ?_
      (fun _ => (stable_tracked st).and persistent_known.stable) fun _ => stable_tracked st)
    fun step => Code.Triple.pure ((stable_tracked st).and persistent_known.stable)
      fun _ _ h => h) (fun _ st => (stable_tracked st).and persistent_known.stable)
    fun _ => stable_tracked
  rintro h x r s hinv ⟨htracked, harrived⟩ _ hperform
  obtain ⟨hguar, htracked'⟩ := neutral_ledger (.attempt boundary agent start)
    (persistent_tracks _ _) hinv htracked hperform
  obtain ⟨rfl, rfl⟩ := Prod.mk.inj hperform
  refine ⟨hguar, htracked', harrived.step (by simp) fun mid hmid => ⟨?_, ?_⟩, ?_⟩
  · exact ⟨_, List.mem_append_right _ List.mem_cons_self, rfl⟩
  · -- A read that finds the call done would be this very one, and it did not.
    rintro hrecorded ⟨before, e, rest, step, hsplit, hbefore, htid, hdid, hdone⟩
    have hmem : e ∈ before ++ e :: rest := List.mem_append_right _ List.mem_cons_self
    rw [← hsplit] at hmem
    rcases List.mem_append.mp hmem with hmem | hmem
    · exact hmid e hmem htid
    · obtain rfl := List.mem_singleton.mp hmem
      cases hdid
      exact of_decide_eq_false hrecorded hdone
  · intro hrecorded
    rw [decide_eq_true_eq] at hrecorded
    exact hrecorded

/-- A decision that lets the call through clears it. -/
abbrev Decides (i : Nat) (boundary : ExecutionBoundary) (toolCall : ToolCall)
    (decision : ToolDecision) (h : Code.History AttemptCall) : Prop :=
  decision = .continue → MayGoOn i boundary toolCall h

theorem stable_decides (decision : ToolDecision) :
    Stable authContract i (Decides i boundary toolCall decision) :=
  (persistent_mayGoOn toolCall).imp.stable

/-- Not having bypassed the gate, the call was not just found recorded. -/
theorem not_bypassed {mid : List (Code.Event AttemptCall)}
    (hbypasses : boundary.policy.bypasses toolCall recorded = false)
    (hlooked : LookedUp i boundary toolCall recorded mid) : ¬ Bypassed i boundary toolCall mid := by
  rintro ⟨hregate, hfound⟩
  have hrecorded : recorded = false := by
    simpa [PolicyRunner.bypasses, hregate] using hbypasses
  exact hlooked.2 hrecorded hfound

theorem resume_triple {here : Ctx} {args : Json}
    (hbypasses : boundary.policy.bypasses toolCall recorded = false) :
    BTriple i (.attempt boundary agent start)
      (fun st h => Tracked i st h ∧ Known i boundary toolCall true recorded h)
      (boundary.policy.resumeDecision here (PolicyRunner.effectiveCall toolCall args))
      (fun decision st h => Tracked i st h ∧ Decides i boundary toolCall decision h) := by
  have hid : (PolicyRunner.effectiveCall toolCall args).toolCallId = toolCall.toolCallId := by
    unfold PolicyRunner.effectiveCall
    split <;> rfl
  have hcleared : ∀ h : Code.History AttemptCall,
      AtBoundary i toolCall true (fun mid => LookedUp i boundary toolCall recorded mid ∧
        Revalidated i boundary toolCall mid) h → MayGoOn i boundary toolCall h := by
    rintro h ⟨pre, m, mid, hlast, hm, hlooked, hrevalidated⟩
    exact Or.inl ⟨true, ⟨pre, m, mid, hlast, hm, hlooked.1, not_bypassed hbypasses hlooked, nofun,
      fun _ => hrevalidated⟩, nofun⟩
  have hstable (st : AttemptState) : Stable authContract i fun h =>
      Tracked i st h ∧ Known i boundary toolCall true recorded h :=
    (stable_tracked st).and persistent_known.stable
  -- Without controls, or without a decision to resume, the call is let pass as it came.
  have hpass : (boundary.policy.controls = false ∨
      boundary.policy.resumed.get? toolCall.toolCallId = none) →
      BTriple i (.attempt boundary agent start)
        (fun st h => Tracked i st h ∧ Known i boundary toolCall true recorded h)
        (pure .continue)
        (fun decision st h => Tracked i st h ∧ Decides i boundary toolCall decision h) := by
    refine fun hnothing => AttemptM.Triple.pure hstable ?_
    rintro st h _ ⟨htracked, ⟨pre, m, mid, hlast, hm, hlooked⟩, _⟩
    exact ⟨htracked, fun _ => hcleared h ⟨pre, m, mid, hlast, hm, hlooked,
      hnothing.imp id Or.inl⟩⟩
  unfold PolicyRunner.resumeDecision
  rw [hid]
  split
  · refine AttemptM.Triple.code (fun st => Code.Triple.ask rfl (hstable st) ?_
      (fun _ => (stable_tracked st).and (stable_decides _)) fun _ => stable_tracked st)
      (fun _ st => (stable_tracked st).and (stable_decides _)) fun _ => stable_tracked
    rintro h x hinv ⟨htracked, hat, _⟩ _ r
    obtain ⟨hguar, htracked'⟩ := neutral_ask (.attempt boundary agent start)
      (persistent_tracks _ _) hinv htracked (by simp [Neutral]) r
    refine ⟨hguar, ?_⟩
    cases r with
    | error error => exact htracked'
    | ok decision =>
      refine ⟨htracked', ?_⟩
      rintro rfl
      exact hcleared _ (hat.step (by simp) fun mid hlooked => ⟨hlooked.append _, Or.inr (Or.inr
        ⟨_, List.mem_append_right _ List.mem_cons_self, rfl, here, args, _, rfl⟩)⟩)
  · -- No resumed decision is asked about: one of the two reasons to pass holds.
    next hnone =>
    refine hpass ?_
    cases hcontrols : boundary.policy.controls with
    | false => exact Or.inl rfl
    | true =>
      cases hresumed : boundary.policy.resumed.get? toolCall.toolCallId with
      | none => exact Or.inr rfl
      | some resumed => exact absurd hcontrols (hnone resumed hresumed)

/-- What the controls said of a call that was not approved, before the round and the
    declarations are looked at. -/
def Asked (i : Nat) (boundary : ExecutionBoundary) (toolCall : ToolCall) (recorded : Bool)
    (asked : ToolDecision) : Code.History AttemptCall → Prop :=
  AtBoundary i toolCall false fun mid => LookedUp i boundary toolCall recorded mid ∧
    (asked = .continue → boundary.policy.controls = true → ∃ d ∈ mid, GatePassed i toolCall d)

theorem persistent_asked (asked : ToolDecision) :
    Persistent i (Asked i boundary toolCall recorded asked) := by
  refine persistent_atBoundary fun mid more ⟨hlooked, hpassed⟩ =>
    ⟨hlooked.append more, fun ha hc => ?_⟩
  obtain ⟨d, hd, hgate⟩ := hpassed ha hc
  exact ⟨d, List.mem_append_left _ hd, hgate⟩

theorem asked_triple {here : Ctx} :
    BTriple i (.attempt boundary agent start)
      (fun st h => Tracked i st h ∧ Known i boundary toolCall false recorded h)
      (boundary.policy.preToolUse here toolCall)
      (fun asked st h => Tracked i st h ∧ Asked i boundary toolCall recorded asked h) := by
  have hstable (asked : ToolDecision) (st : AttemptState) : Stable authContract i fun h =>
      Tracked i st h ∧ Asked i boundary toolCall recorded asked h :=
    (stable_tracked st).and (persistent_asked asked).stable
  unfold PolicyRunner.preToolUse
  split
  · refine AttemptM.Triple.code (fun st => Code.Triple.ask rfl
      ((stable_tracked st).and persistent_known.stable) ?_ (fun asked => hstable asked st)
      fun _ => stable_tracked st) (fun asked st => hstable asked st) fun _ => stable_tracked
    rintro h x hinv ⟨htracked, hat, _⟩ _ r
    obtain ⟨hguar, htracked'⟩ := neutral_ask (.attempt boundary agent start)
      (persistent_tracks _ _) hinv htracked (by simp [Neutral]) r
    refine ⟨hguar, ?_⟩
    cases r with
    | error error => exact htracked'
    | ok asked =>
      refine ⟨htracked', hat.step (by simp) fun mid hlooked => ⟨hlooked.append _, ?_⟩⟩
      rintro rfl _
      exact ⟨_, List.mem_append_right _ List.mem_cons_self, rfl, here, rfl⟩
  · -- Without controls nobody is asked, and the call continues.
    next hcontrols =>
    refine AttemptM.Triple.pure (fun st => (stable_tracked st).and persistent_known.stable) ?_
    rintro st h _ ⟨htracked, ⟨pre, m, mid, hlast, hm, hlooked⟩, _⟩
    exact ⟨htracked, pre, m, mid, hlast, hm, hlooked, fun _ hc => absurd hc hcontrols⟩

/-- What the gate makes of what the controls said. -/
theorem decided_triple {asked decision : ToolDecision} {a : AttemptState}
    (hbypasses : boundary.policy.bypasses toolCall recorded = false)
    (hcontinue : decision = .continue → asked = .continue ∧
      toolCall.toolName ∉ a.approvalTools ∧ a.suspendedThisRound = false) :
    BTriple i (.attempt boundary agent start)
      (fun st h => a = st ∧ Tracked i st h ∧ Asked i boundary toolCall recorded asked h)
      (pure decision)
      (fun decision st h => Tracked i st h ∧ Decides i boundary toolCall decision h) := by
  refine AttemptM.Triple.pure (fun st => stable_const.and ((stable_tracked st).and
    (persistent_asked asked).stable)) ?_
  rintro st h _ ⟨rfl, htracked, pre, m, mid, hlast, hm, hlooked, hpassed⟩
  refine ⟨htracked, fun hdecision => Or.inl ?_⟩
  obtain ⟨hasked, htools, hround⟩ := hcontinue hdecision
  refine ⟨false, ⟨pre, m, mid, hlast, hm, hlooked.1, not_bypassed hbypasses hlooked,
    fun _ => hpassed hasked, nofun⟩, fun _ => ⟨fun d hd hdeclares => ?_, ?_⟩⟩
  · exact htools (htracked.declared d hd _ hdeclares)
  · exact htracked.unsuspended hround

theorem gate_triple {here : Ctx}
    (hbypasses : boundary.policy.bypasses toolCall recorded = false) :
    BTriple i (.attempt boundary agent start)
      (fun st h => Tracked i st h ∧ Known i boundary toolCall false recorded h)
      (boundary.policy.gate here toolCall)
      (fun decision st h => Tracked i st h ∧ Decides i boundary toolCall decision h) := by
  refine AttemptM.Triple.bind (fun _ => stable_tracked) asked_triple fun asked =>
    AttemptM.Triple.bind (fun _ => stable_tracked)
      (AttemptM.Triple.state fun st => (stable_tracked st).and (persistent_asked asked).stable)
      fun a => ?_
  dsimp only
  split
  · -- the tool is declared: what the controls let through is suspended
    split <;> exact decided_triple hbypasses nofun
  · next hdeclared =>
    split
    · exact decided_triple hbypasses nofun
    · next hround =>
      refine decided_triple hbypasses fun hasked => ⟨hasked, fun htools =>
        hdeclared ⟨hasked, htools⟩, ?_⟩
      subst hasked
      simpa [ToolDecision.isSuspend] using hround

theorem choose_triple {here : Ctx} {args : Json} :
    BTriple i (.attempt boundary agent start)
      (fun st h => Tracked i st h ∧ Known i boundary toolCall approved recorded h)
      (boundary.policy.choose here toolCall args approved recorded)
      (fun decision st h => Tracked i st h ∧ Decides i boundary toolCall decision h) := by
  unfold PolicyRunner.choose
  split
  · next hbypasses =>
    refine AttemptM.Triple.pure (fun st => (stable_tracked st).and persistent_known.stable) ?_
    rintro st h _ ⟨htracked, ⟨pre, m, mid, hlast, hm, _⟩, hdone⟩
    have hrecorded : recorded = true := (Bool.and_eq_true_iff.mp hbypasses).2
    exact ⟨htracked, fun _ => Or.inr ⟨⟨approved, pre, m, mid, hlast, hm, trivial⟩,
      hdone hrecorded⟩⟩
  · next hbypasses =>
    have hbypasses' : boundary.policy.bypasses toolCall recorded = false := by
      simpa using hbypasses
    split
    · next happroved =>
      subst happroved
      exact resume_triple hbypasses'
    · next happroved =>
      obtain rfl : approved = false := by simpa using happroved
      exact gate_triple hbypasses'

/-- A decision that is kept track of: a suspension is routable, and suspends the round. -/
abbrev Noted (i : Nat) (boundary : ExecutionBoundary) (toolCall : ToolCall)
    (decision : ToolDecision) (st : AttemptState) (h : Code.History AttemptCall) : Prop :=
  (Tracked i st h ∧ Decides i boundary toolCall decision h) ∧
    ∀ request, decision = .suspend request →
      request.routable = true ∧ st.suspendedThisRound = true

theorem stable_noted (decision : ToolDecision) (st : AttemptState) :
    Stable authContract i (Noted i boundary toolCall decision st) :=
  ((stable_tracked st).and (stable_decides decision)).and stable_const

theorem enterSuspension_triple (decision : ToolDecision) :
    BTriple i (.attempt boundary agent start)
      (fun st h => Tracked i st h ∧ Decides i boundary toolCall decision h)
      (PolicyRunner.enterSuspension toolCall decision)
      (fun _ => Noted i boundary toolCall decision) := by
  have hstable (st : AttemptState) : Stable authContract i fun h =>
      Tracked i st h ∧ Decides i boundary toolCall decision h :=
    (stable_tracked st).and (stable_decides decision)
  cases decision with
  | «continue» => exact AttemptM.Triple.pure hstable fun _ _ _ h => ⟨h, nofun⟩
  | deny result => exact AttemptM.Triple.pure hstable fun _ _ _ h => ⟨h, nofun⟩
  | suspend request =>
    unfold PolicyRunner.enterSuspension
    dsimp only
    split
    · next hroutable =>
      refine AttemptM.Triple.update hstable ?_
      rintro st h _ ⟨htracked, hdecides⟩
      refine ⟨⟨⟨htracked.declared, nofun⟩, hdecides⟩, ?_⟩
      intro _ heq
      cases heq
      exact ⟨hroutable, rfl⟩
    · exact AttemptM.Triple.throw hstable fun _ _ _ h => h.1

/-- A harmless step of one's own leaves what is persistent. -/
theorem Persistent.next {P : Code.History AttemptCall → Prop} (hP : Persistent i P)
    {h : Code.History AttemptCall} (hpre : P h) {call : AttemptCall} {o : Op} {r : o.Reply}
    (ho : Harmless o) : P (Code.next h i call o r h.now) := by
  refine hP h _ hpre ⟨⟨_, rfl, fun e he => ?_⟩, fun _ _ hdone => hdone⟩
  obtain rfl := List.mem_singleton.mp he
  exact Or.inr ho

theorem mark_decided_triple (decision : ToolDecision) :
    BTriple i (.attempt boundary agent start) (Noted i boundary toolCall decision)
      (AttemptM.mark (.decided toolCall.toolCallId decision))
      (fun _ st h => Tracked i st h ∧ Decides i boundary toolCall decision h) := by
  refine AttemptM.Triple.code (fun st => Code.Triple.mark (stable_noted decision st) ?_
    ((stable_tracked st).and (stable_decides decision)))
    (fun _ st => (stable_tracked st).and (stable_decides decision)) fun _ => stable_tracked
  rintro h x hinv ⟨⟨htracked, hdecides⟩, hnoted⟩ _
  refine ⟨mark_step hinv (by simp) fun callId request hm => ?_, htracked.step (by simp) ?_, ?_⟩
  · cases hm
    exact (hnoted request rfl).1
  · intro hfalse callId request hm
    cases hm
    simp [(hnoted request rfl).2] at hfalse
  · rintro rfl
    exact (persistent_mayGoOn toolCall).next (hdecides rfl) (by simp [Harmless])

theorem decide_triple {here : Ctx} {args : Json} :
    BTriple i (.attempt boundary agent start)
      (fun st h => Tracked i st h ∧ Known i boundary toolCall approved recorded h)
      (boundary.policy.decideTool here toolCall args approved recorded)
      (fun decision st h => Tracked i st h ∧ Decides i boundary toolCall decision h) := by
  refine AttemptM.Triple.bind (fun _ => stable_tracked) choose_triple fun decision =>
    AttemptM.Triple.bind (fun _ => stable_tracked) (enterSuspension_triple decision) fun _ =>
      AttemptM.Triple.bind (fun _ => stable_tracked)
        (Q := fun _ => Noted i boundary toolCall decision)
        (AttemptM.Triple.update (stable_noted decision) fun _ _ _ h => h) fun _ =>
          AttemptM.Triple.bind (fun _ => stable_tracked) (mark_decided_triple decision) fun _ =>
            AttemptM.Triple.pure
              (fun st => (stable_tracked st).and (stable_decides decision)) fun _ _ _ h => h

/-- **The gate**: a call that comes through it is authorized, or will be answered from its
    record. -/
theorem before_triple {ctx : RunContext} {tool : ToolDefinition} {args : Json} :
    BTriple i (.attempt boundary agent start) (Tracked i)
      (boundary.beforeToolExecute ctx tool toolCall args approved)
      (fun _ st h => Tracked i st h ∧ MayGoOn i boundary toolCall h) := by
  have harrived (st : AttemptState) : Stable authContract i fun h =>
      Tracked i st h ∧ Arrived i toolCall approved h :=
    (stable_tracked st).and stable_arrived
  refine AttemptM.Triple.bind (fun _ => stable_tracked) entered_triple fun _ =>
    AttemptM.Triple.bind (fun _ => stable_tracked) (AttemptM.Triple.state harrived) fun _ =>
      AttemptM.Triple.bind (fun _ => stable_tracked)
        (recorded_triple.pre fun _ _ _ h => h.2) fun _ =>
          AttemptM.Triple.bind (fun _ => stable_tracked) decide_triple fun decision => ?_
  have hstable (st : AttemptState) : Stable authContract i fun h =>
      Tracked i st h ∧ Decides i boundary toolCall decision h :=
    (stable_tracked st).and (stable_decides decision)
  cases decision with
  | «continue» => exact AttemptM.Triple.pure hstable fun _ _ _ h => ⟨h.1, h.2 rfl⟩
  | deny result => exact AttemptM.Triple.throw hstable fun _ _ _ h => h.1
  | suspend request => exact AttemptM.Triple.throw hstable fun _ _ _ h => h.1

/-- Reading the step again settles which of the two it is. -/
theorem reread_triple (st : AttemptState) :
    ATriple i (.attempt boundary agent start)
      (fun h => Tracked i st h ∧ MayGoOn i boundary toolCall h)
      (boundary.store.read boundary.branchId (stepKey toolCall.toolCallId))
      (fun step h => Tracked i st h ∧ (step.status = .done →
        Answerable i boundary toolCall (.ok step.value) h) ∧
        (step.status ≠ .done → Cleared i boundary toolCall h))
      (fun _ => Tracked i st) := by
  refine Code.Triple.ledger ((stable_tracked st).and (persistent_mayGoOn toolCall).stable) ?_
    (fun step => (stable_tracked st).and
      ((persistent_answerable toolCall _).imp.and (persistent_cleared toolCall).imp).stable)
    fun _ => stable_tracked st
  rintro h x r s hinv ⟨htracked, hmay⟩ _ hperform
  obtain ⟨hguar, htracked', hmay'⟩ := neutral_ledger (.attempt boundary agent start)
    ((persistent_tracks _ _).and (persistent_mayGoOn toolCall)) hinv ⟨htracked, hmay⟩ hperform
  obtain ⟨rfl, rfl⟩ := Prod.mk.inj hperform
  refine ⟨hguar, htracked', fun hdone => ?_, fun hnot => ?_⟩
  · rcases hmay with hcleared | ⟨⟨approved, hat⟩, _⟩
    · exact Or.inl ((persistent_cleared toolCall).next hcleared (by simp [Harmless]))
    · exact Or.inr ⟨approved, hat.step (by simp) fun mid _ =>
        ⟨_, List.mem_append_right _ List.mem_cons_self, rfl, _, rfl, hdone, rfl⟩⟩
  · exact hmay'.resolve_right fun hdone => hnot hdone.2

/-- The handler of a cleared call. -/
theorem handler_cleared_triple (st : AttemptState) {args : Json} :
    ATriple i (.attempt boundary agent start)
      (fun h => Tracked i st h ∧ Cleared i boundary toolCall h)
      (Code.ask (.handler toolCall args))
      (fun _ h => Tracked i st h ∧ Cleared i boundary toolCall h)
      (fun _ h => Tracked i st h ∧ Cleared i boundary toolCall h) := by
  have hstable : Stable authContract i fun h =>
      Tracked i st h ∧ Cleared i boundary toolCall h :=
    (stable_tracked st).and (persistent_cleared toolCall).stable
  refine Code.Triple.ask rfl hstable ?_ (fun _ => hstable) fun _ => hstable
  rintro h x hinv ⟨htracked, hcleared⟩ _ r
  have hpost : ∀ r : (External.handler toolCall args).Reply,
      Tracked i st (Code.next h i (.attempt boundary agent start)
        (.ext (.handler toolCall args)) r h.now) ∧ Cleared i boundary toolCall
          (Code.next h i (.attempt boundary agent start) (.ext (.handler toolCall args)) r h.now) :=
    fun r => ⟨htracked.step (by simp) (by simp),
      (persistent_cleared toolCall).next hcleared (by simp [Harmless])⟩
  -- The handler is run for a call that was cleared, which is what the invariant asks of it.
  refine ⟨⟨rfl, hinv.concat ?_ ?_ ?_, fun _ _ h => h⟩, ?_⟩
  · intro boundary' agent' start' hcall call' args' reply hdid
    cases hcall
    cases Event.op_of_did hdid
    exact hcleared.authorized
  · exact fun _ _ _ _ _ _ hdid => nomatch Event.op_of_did hdid
  · exact fun _ _ hdid => nomatch Event.op_of_did hdid
  · cases r
    · exact hpost _
    · exact hpost _

/-- Committing and clearing are neutral. -/
theorem commit_neutral (j : EffectJournal) (key : String) (record : ToolRecord) :
    Code.Only Neutral (j.commit key record) :=
  (Code.only_ledger (by simp [Neutral])).bind fun _ => Code.only_pure _

theorem begin_neutral (j : EffectJournal) (key : String) : Code.Only Neutral (j.begin_ key) := by
  refine (Code.only_ledger (by simp [Neutral])).bind ?_
  rintro (_ | _)
  · exact (Code.only_ledger (by simp [Neutral])).bind fun _ => Code.only_throw _
  · exact Code.only_pure _

theorem reclaim_neutral (j : EffectJournal) (key : String) (step : Step Record) :
    Code.Only Neutral (j.reclaim key step) :=
  Code.Only.ite (fun _ => Code.Only.ite (fun _ => Code.only_throw _)
    fun _ => Code.only_ledger (by simp [Neutral])) fun _ => Code.only_pure _

/-- Neutral code of the journal, for a call that was cleared. -/
theorem cleared_neutral_triple {α : Type} (st : AttemptState) {x : Code α}
    (hx : Code.Only Neutral x) :
    ATriple i (.attempt boundary agent start)
      (fun h => Tracked i st h ∧ Cleared i boundary toolCall h) x
      (fun _ h => Tracked i st h ∧ Cleared i boundary toolCall h) (fun _ => Tracked i st) :=
  (neutral_triple hx ((persistent_tracks _ _).and (persistent_cleared toolCall))).mono
    (fun _ _ h => h) (fun _ _ _ h => h) fun _ _ _ h => h.1

theorem execute_cleared_triple (st : AttemptState) {key : String} {args : Json} :
    ATriple i (.attempt boundary agent start)
      (fun h => Tracked i st h ∧ Cleared i boundary toolCall h)
      (boundary.journal.execute key (Code.ask (.handler toolCall args)))
      (fun _ h => Tracked i st h ∧ Cleared i boundary toolCall h) (fun _ => Tracked i st) := by
  have hstable : Stable authContract i fun h =>
      Tracked i st h ∧ Cleared i boundary toolCall h :=
    (stable_tracked st).and (persistent_cleared toolCall).stable
  refine Code.Triple.bind (fun _ => stable_tracked st)
    (Code.Triple.attempt (handler_cleared_triple st) (fun _ => hstable) fun _ => hstable) ?_
  rintro (error | value)
  · dsimp only
    split
    · exact cleared_neutral_triple st
        ((Code.only_ledger (by simp [Neutral])).bind fun _ => Code.only_throw _)
    · split
      · exact cleared_neutral_triple st (Code.only_throw _)
      · exact cleared_neutral_triple st (commit_neutral _ _ _)
  · exact cleared_neutral_triple st (commit_neutral _ _ _)

/-- **The journal**: the handler runs for cleared calls only, and what is returned is the
    record or was authorized. -/
theorem journal_tool_triple (st : AttemptState) {args : Json} :
    ATriple i (.attempt boundary agent start)
      (fun h => Tracked i st h ∧ MayGoOn i boundary toolCall h)
      (boundary.journal.tool toolCall.toolCallId (Code.ask (.handler toolCall args)))
      (fun record h => Tracked i st h ∧ Answerable i boundary toolCall (.ok record) h)
      (fun _ => Tracked i st) := by
  refine Code.Triple.bind (fun _ => stable_tracked st) (reread_triple st) fun step => ?_
  split
  · -- Done: the recorded result is handed back, and no handler runs.
    next hdone =>
    refine Code.Triple.pre (P := fun h => Tracked i st h ∧
      Answerable i boundary toolCall (.ok step.value) h) ?_ fun _ _ h => ⟨h.1, h.2.1 hdone⟩
    exact Code.Triple.pure ((stable_tracked st).and (persistent_answerable toolCall _).stable)
      fun _ _ h => h
  · next hdone =>
    have hrun : ATriple i (.attempt boundary agent start)
        (fun h => Tracked i st h ∧ Cleared i boundary toolCall h)
        (do
          boundary.journal.reclaim (stepKey toolCall.toolCallId) step
          boundary.journal.begin_ (stepKey toolCall.toolCallId)
          boundary.journal.execute (stepKey toolCall.toolCallId)
            (Code.ask (.handler toolCall args)))
        (fun _ h => Tracked i st h ∧ Cleared i boundary toolCall h) (fun _ => Tracked i st) :=
      Code.Triple.bind (fun _ => stable_tracked st)
        (cleared_neutral_triple st (reclaim_neutral _ _ _)) fun _ =>
          Code.Triple.bind (fun _ => stable_tracked st)
            (cleared_neutral_triple st (begin_neutral _ _)) fun _ => execute_cleared_triple st
    refine Code.Triple.mono hrun ?_ ?_ fun _ _ _ h => h
    · exact fun _ _ h => ⟨h.1, h.2.2 hdone⟩
    · exact fun _ _ _ h => ⟨h.1, Or.inl h.2⟩

theorem asToolRecord_neutral (record : Option Record) :
    Code.Only Neutral (asToolRecord record) := by
  unfold asToolRecord
  split
  · exact Code.only_pure _
  · exact Code.only_throw _

theorem afterTool_neutral (p : PolicyRunner) (here : Ctx) (record : ToolRecord) :
    Code.Only Neutral (p.afterTool here toolCall record) := by
  refine Code.Only.ite (fun _ => Code.only_pure _) fun _ =>
    (Code.only_ask rfl (by simp [Neutral])).bind fun _ => ?_
  cases record <;> exact Code.only_pure _

theorem projectOnce_neutral (j : EffectJournal) (callId : String) (record : Option Record)
    {project : Option (ToolRecord → Code ToolRecord)}
    (hproject : ∀ f ∈ project, ∀ committed, Code.Only Neutral (f committed)) :
    Code.Only Neutral (j.projectOnce callId record project) := by
  refine (Code.only_ledger (by simp [Neutral])).bind fun journal => Code.Only.ite (fun _ => ?_)
    fun _ => ?_
  · split
    · exact Code.only_pure _
    · exact Code.only_throw _
  · cases project with
    | none => exact Code.only_pure _
    | some f =>
      exact (asToolRecord_neutral record).bind fun committed => (hproject f rfl committed).bind
        fun _ => (Code.only_ledger (by simp [Neutral])).bind fun _ => Code.only_pure _

theorem returned_triple (st : AttemptState) (record : Option Record) :
    ATriple i (.attempt boundary agent start)
      (fun h => Tracked i st h ∧ Answerable i boundary toolCall (.ok record) h)
      (Code.mark (.toolReturned toolCall.toolCallId (.ok record))) (fun _ => Tracked i st)
      (fun _ => Tracked i st) := by
  refine Code.Triple.mark ((stable_tracked st).and (persistent_answerable toolCall _).stable) ?_
    (stable_tracked st)
  rintro h x hinv ⟨htracked, hanswer⟩ _
  refine ⟨mark_step hinv ?_ nofun, htracked.step (by simp) (by simp)⟩
  intro boundary' agent' start' hcall callId result hm pre m mid call' approved' hlast hdid
  cases hcall
  cases hm
  exact hanswer.fromRecord hlast hdid

/-- **The tool**: a call that may go on is run or answered from its record. -/
theorem wrap_triple {ctx : RunContext} {tool : ToolDefinition} {args : Json} :
    BTriple i (.attempt boundary agent start)
      (fun st h => Tracked i st h ∧ MayGoOn i boundary toolCall h)
      (boundary.wrapToolExecute ctx tool toolCall args) (fun _ => Tracked i) := by
  refine AttemptM.Triple.bind (fun _ => stable_tracked)
    (Q := fun record st h => Tracked i st h ∧ Answerable i boundary toolCall (.ok record) h)
    (AttemptM.Triple.code (fun st => journal_tool_triple st)
      (fun _ st => (stable_tracked st).and (persistent_answerable toolCall _).stable)
      fun _ => stable_tracked) fun record =>
    AttemptM.Triple.bind (fun _ => stable_tracked)
      (AttemptM.Triple.code (fun st => returned_triple st record) (fun _ => stable_tracked)
        fun _ => stable_tracked) fun _ =>
      keeps_state.bind fun st => (keeps_code (projectOnce_neutral _ _ _ ?_)).bind fun projected =>
        (keeps_code (asToolRecord_neutral projected)).bind ?_
  · intro f hf committed
    split at hf
    · obtain rfl := Option.some.inj hf
      exact afterTool_neutral _ _ committed
    · cases hf
  · rintro (value | error)
    · exact keeps_pure value
    · exact keeps_throw _

end tool

/-! ## Section 8: The other hooks -/

section hooks

variable {i : Nat} {call : AttemptCall} (boundary : ExecutionBoundary)

theorem keeps_ledger {op : LedgerOp Record} :
    Keeps i call (AttemptM.code (Code.ledger op)) :=
  keeps_code (Code.only_ledger (by simp [Neutral]))

theorem keeps_claimRecords (session : InputSession) (represented : List String)
    (records : List (InputRecord Record)) :
    Keeps i call (session.claimRecords represented records) := by
  induction records with
  | nil => exact keeps_pure []
  | cons record rest ih =>
    refine keeps_state.bind fun st => keeps_ite (fun _ => ih) fun _ => keeps_ledger.bind fun _ =>
      (keeps_update).bind fun _ => (keeps_code ?_).bind fun _ =>
        ih.bind fun _ => keeps_pure _
    unfold decodeInput
    split
    · exact Code.only_pure _
    · exact Code.only_throw _

theorem keeps_claim (session : InputSession) (represented : List String) :
    Keeps i call (session.claim represented) :=
  keeps_ledger.bind fun records => keeps_claimRecords session represented records

theorem keeps_record (messages : List Message) : Keeps i call (boundary.record messages) :=
  keeps_ite (fun _ => keeps_ask rfl (by simp [Neutral])) fun _ => keeps_pure _

theorem keeps_halt (ctx : RunContext) (reason : StopReason) (joined : Bool) :
    Keeps i call (ExecutionBoundary.halt ctx reason joined) :=
  (keeps_update).bind fun _ => keeps_pure _

theorem keeps_screen (here : Ctx) (pending inputs : List PendingInput) :
    Keeps i call (boundary.screen here pending inputs) := by
  refine keeps_ite (fun _ => keeps_pure _) fun _ => (keeps_ask rfl (by simp [Neutral])).bind ?_
  rintro (screened | reason)
  · exact (keeps_ite (fun _ => keeps_pure _) fun _ => keeps_ledger).bind fun _ => keeps_pure _
  · exact keeps_pure _

theorem keeps_steer (ctx : RunContext) (request : ModelRequest)
    (pending inputs : List PendingInput) :
    Keeps i call (boundary.steer ctx request pending inputs) := by
  refine keeps_ite (fun _ => keeps_pure _) fun _ => keeps_state.bind fun st =>
    (keeps_screen boundary _ pending inputs).bind ?_
  rintro (inputs | reason)
  · refine (keeps_ask rfl (by simp [Neutral])).bind ?_
    rintro (steers | reason) <;> exact keeps_pure _
  · exact keeps_pure _

theorem keeps_admit_ (ctx : RunContext) (request : ModelRequest) :
    Keeps i call (boundary.admit_ ctx request) := by
  refine keeps_state.bind fun st => (keeps_update).bind fun _ =>
    (keeps_claim _ _).bind fun claimed => (keeps_steer boundary ctx request _ _).bind ?_
  rintro (⟨inputs, steers⟩ | reason)
  · exact (keeps_record boundary _).bind fun _ =>
      (keeps_ite (fun _ => keeps_pure _) fun _ => keeps_ledger).bind fun _ => keeps_pure _
  · exact keeps_pure _

theorem model_neutral (j : EffectJournal) (key : String) (messages : List Message) :
    Code.Only Neutral (j.model key (Code.ask (.model messages))) := by
  refine (Code.only_ledger (by simp [Neutral])).bind fun step => Code.Only.ite (fun _ => ?_)
    fun _ => (reclaim_neutral j key step).bind fun _ => (begin_neutral j key).bind fun _ =>
      (Code.Only.catch_ (Code.only_ask rfl (by simp [Neutral])) fun e =>
        Code.Only.ite (fun _ => Code.only_throw _) fun _ =>
          (Code.only_ledger (by simp [Neutral])).bind fun _ => Code.only_throw _).bind fun _ =>
        (Code.only_ledger (by simp [Neutral])).bind fun _ => Code.only_pure _
  unfold asResponse
  split
  · exact Code.only_pure _
  · exact Code.only_throw _

theorem keeps_modelRequestNode (digest : List Message → List ToolDefinition → String)
    (ctx : RunContext) (request : ModelRequest) (tools : List ToolDefinition) :
    Keeps i call (boundary.modelRequestNode digest ctx request tools) := by
  refine (keeps_update).bind fun _ => keeps_ite
    (fun _ => keeps_halt ctx _ _) fun _ => (keeps_admit_ boundary ctx request).bind ?_
  rintro (request | reason)
  · exact (keeps_prepareTools tools).bind fun prepared =>
      (keeps_code (model_neutral _ _ _)).bind fun _ => keeps_pure _
  · exact keeps_halt ctx _ _

theorem keeps_callToolsNode (ctx : RunContext) (response : ModelResponse) :
    Keeps i call (boundary.callToolsNode ctx response) :=
  (keeps_update).bind fun _ => keeps_beginToolRound.bind fun _ =>
    keeps_ite (fun _ => keeps_pure _) fun _ => keeps_ledger

theorem keeps_decideFinish (ctx : RunContext) (output : Json) :
    Keeps i call (boundary.decideFinish ctx output) := by
  refine (keeps_claim _ _).bind fun late => keeps_ite
    (fun _ => (keeps_update).bind fun _ => keeps_pure _)
    fun _ => keeps_ite
      (fun _ => (keeps_update).bind fun _ => keeps_pure _)
      fun _ => keeps_state.bind fun st => (keeps_ask rfl (by simp [Neutral])).bind ?_
  rintro (steers | reason)
  · exact keeps_pure _
  · exact (keeps_update).bind fun _ => keeps_pure _

theorem keeps_toolsCalledNode (ctx : RunContext) (response : ModelResponse)
    (result : NodeResult) : Keeps i call (boundary.toolsCalledNode ctx response result) := by
  cases result with
  | deferred requests => exact keeps_pure _
  | next request => exact (keeps_record boundary _).bind fun _ => keeps_pure _
  | finished output =>
    exact (keeps_record boundary _).bind fun _ => keeps_decideFinish boundary ctx output

end hooks

/-! ## Section 9: Every attempt -/

section attempt

variable {i : Nat} {boundary : ExecutionBoundary} {agent : Agent} {start : RunStart}

theorem keeps_hook (digest : List Message → List ToolDefinition → String) (o : NodeOp) :
    Keeps i (.attempt boundary agent start) (boundary.hook digest o) := by
  cases o with
  | modelRequest ctx request tools => exact keeps_modelRequestNode boundary digest ctx request tools
  | prepareTools tools => exact keeps_prepareTools tools
  | callTools ctx response => exact keeps_callToolsNode boundary ctx response
  | tool ctx tool call args approved =>
    exact AttemptM.Triple.bind (fun _ => stable_tracked) before_triple fun _ => wrap_triple
  | toolsCalled ctx response result => exact keeps_toolsCalledNode boundary ctx response result

/-- Whatever the agent does: induction over its program. -/
theorem keeps_drive {α : Type} (digest : List Message → List ToolDefinition → String)
    (program : AgentProg α) :
    Keeps i (.attempt boundary agent start) (boundary.drive digest program) := by
  induction program with
  | pure a => exact keeps_pure a
  | perform o next ih =>
    refine AttemptM.Triple.bind (fun _ => stable_tracked)
      (AttemptM.Triple.mono (AttemptM.Triple.attempt (keeps_hook digest o)
        (fun _ => stable_tracked) fun _ => stable_tracked) (fun _ _ _ h => h) ?_
        fun _ _ _ _ h => h) ih
    rintro (e | a) st h _ htracked
    · exact htracked
    · exact htracked

end attempt

theorem attempts_safe : SafeBodies attempts authContract := by
  intro i call h hinv hfresh
  cases call with
  | attempt boundary agent start =>
    have htracked : Tracked i {} h := by
      refine ⟨fun d hd _ hdeclares => absurd hdeclares.1 (hfresh d hd), fun _ hsince => ?_⟩
      obtain ⟨d, hd, hsuspends⟩ := hsince.exists_mem
      exact hfresh d hd hsuspends.1
    show Safe _ _ _ _ _ ((boundary.drive agent.digest (agent.run start)).runFrom {} >>= _) h
    rw [AttemptM.runFrom_discard]
    exact Safe.bind hinv (keeps_drive agent.digest (agent.run start) {} h hinv htracked)
      fun _ _ _ _ _ _ _ => trivial
  | other op =>
    refine Pool.Triple.perform (S := attempts) (P := fun _ => True) (M := fun _ _ => True)
      stable_const ?_ (fun _ => Pool.Triple.pure stable_const fun _ _ _ => trivial) h hinv trivial
    intro h x hinv _ _
    exact neutral_event (P := fun _ => True) (fun _ _ _ _ => trivial) hinv trivial
      (by simp [Neutral]) fun b key => perform_done op x.now x.later

/-- **No handler without authorization**: in every schedule of attempts and ledger calls, over
    any ledger, a handler is invoked only for a call its own attempt let through; a call that
    bypasses the gate is answered from its record; and every suspension is routable. -/
theorem boundary_sound (s : MemorySteps Record) (schedule : List (Action AttemptCall Env)) :
    BoundarySound (attempts.after { hist := ⟨s, []⟩ } schedule).hist.log := by
  refine (contract_after (K := authContract) attempts_safe (poolInv_init ?_) schedule
    (admissible_of_ok (fun _ _ _ _ _ => trivial) _ schedule)).inv
  exact ⟨always_nil, always_nil, always_nil⟩

end Semora
