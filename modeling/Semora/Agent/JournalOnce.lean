import Semora.Agent.Triples
import Semora.Agent.Journal
import Semora.Store.Effects

/-! # One Execution per Authority

    Any number of workers and operators over one ledger, all after the same
    tool call of the same branch. A worker acquires the branch, invokes
    `EffectJournal.tool` without leave to repeat (`retry_running=False`), and
    may be cancelled, crash or stall between any two store calls; an operator
    resolves the effect under a lease of its own. One thread may play both
    parts.

    The handler is entered in the step that records running intent: nothing
    suspends between the two. So an accepted `start` *is* the beginning of an
    invocation, and the handler's own event is its end. -/

namespace Semora

open Pool MemorySteps

/-! ## Section 1: The pool -/

/-- What a worker or an operator of the call may do next. `i` picks one of the tokens it
    was issued. -/
inductive Act (b key : String) where
  | acquire (ttlSeconds : ℚ)
  | release
  /-- `EffectJournal.tool`, cancelled after `n` store calls and handler runs. -/
  | tool (i : Nat) (args : Json) (n : Nat)
  | resolve (i : Nat) (resolution : EffectResolution Record) (workersStopped : Bool)
  /-- A call that is not about this effect. -/
  | other (op : LedgerOp Record) (h : op.branchId ≠ b ∨ (op.owner? = none ∧ key ∉ op.keys))

/-- Code cancelled after `n` operations. -/
def Code.cancelledAfter {α : Type} (n : Nat) (x : Code α) : Code (Option (Except Raised α)) :=
  ExceptT.mk (x.run.take n >>= fun r => .pure (.ok r))

section pool

variable (owners : Owners) (store : Store) (branchId : String) (call : ToolCall)

/-- A handler returns or raises. -/
theorem External.handler_reply (call : ToolCall) (args : Json) :
    (External.handler call args).Reply = Except Raised Json := rfl

/-- One invocation of the tool under a token, without leave to repeat. -/
def invokeTool (token : Int) (args : Json) (n : Nat) : Code Unit := do
  let journal : EffectJournal := ⟨store, branchId, token, false⟩
  Code.mark (.toolCalled call.toolCallId)
  let outcome ← Code.cancelledAfter n
    (journal.tool call.toolCallId
      (Code.ask (.handler call args) (External.handler_reply call args)))
  match outcome with
  | none => pure ()
  | some result => Code.mark (.toolReturned call.toolCallId result)

/-- Worker `i` at its acts, with the tokens it holds. -/
def work (i : Nat) :
    List (Act (store.name branchId) (stepKey call.toolCallId)) → List Int → Code Unit
  | [], _ => pure ()
  | .acquire ttl :: acts, tokens => do
    let token ← store.acquire branchId (owners.name i) ttl
    work i acts (if token = 0 then tokens else tokens ++ [token])
  | .release :: acts, _ => do
    store.release branchId (owners.name i)
    work i acts []
  | .tool k args n :: acts, tokens => do
    match tokens[k]? with
    | none => work i acts tokens
    | some token =>
      invokeTool store branchId call token args n
      work i acts tokens
  | .resolve k resolution workersStopped :: acts, tokens => do
    match tokens[k]? with
    | none => work i acts tokens
    | some token =>
      let _ ← Code.attempt (store.resolveEffect branchId (stepKey call.toolCallId) resolution
        workersStopped token)
      work i acts tokens
  | .other op _ :: acts, tokens => do
    let _ ← Code.attempt (Code.ledger op)
    work i acts tokens

/-- Workers and operators of one tool call, each a thread with a list of acts. -/
def workers : System (MemorySteps Record) Env Op.Reply
    fun _ : List (Act (store.name branchId) (stepKey call.toolCallId)) => Except Raised Unit :=
  Code.system fun i acts => (work owners store branchId call i acts []).run

end pool

/-! ## Section 2: At most one execution -/

section property

variable {C : Type} (b key callId : String)

/-- An invocation of the handler begins: running intent was recorded. -/
def Began (e : Code.Event C) : Prop :=
  ∃ token, e.did (.ledger (.start b key token)) (.ok true)

/-- An accepted `finish_effect` or `complete` decision with value `v`. -/
def Settled (v : Option Record) (e : Code.Event C) : Prop :=
  (∃ token, e.did (.ledger (.finishEffect b key v token)) (.ok ())) ∨
  ∃ resolution workersStopped token step, resolution.action = .complete ∧
    resolution.value = v ∧
    e.did (.ledger (.resolveEffect b key resolution workersStopped token)) (.ok step)

/-- An accepted `retry` decision bound to `version`. -/
def Retried (version : Nat) (e : Code.Event C) : Prop :=
  ∃ resolution workersStopped token step, resolution.action = .retry ∧
    resolution.expectedVersion = (version : Int) ∧
    e.did (.ledger (.resolveEffect b key resolution workersStopped token)) (.ok step)

/-- An accepted `forget`. -/
def Forgot (e : Code.Event C) : Prop :=
  ∃ token, e.did (.ledger (.forget b key token)) (.ok ())

/-- A handler came back. -/
def Ran (e : Code.Event C) : Prop :=
  ∃ call args reply, e.did (.ext (.handler call args)) reply

/-- A handler raised a signal that nothing happened. -/
def Withdrew (e : Code.Event C) : Prop :=
  ∃ call args error, error.nothingHappened = true ∧
    e.did (.ext (.handler call args)) (.error error)

/-- Thread `i` calls the tool. -/
def CalledBy (i : Nat) (e : Code.Event C) : Prop :=
  e.tid = i ∧ e.did (.ext (.mark (.toolCalled callId))) ()

/-- The call of the tool comes to an end. -/
def Returned (result : Except Raised (Option Record)) (e : Code.Event C) : Prop :=
  e.did (.ext (.mark (.toolReturned callId result))) ()

/-- In `mid`, thread `i`'s handler raised a signal that nothing happened, and the same
    invocation's `forget` was accepted. -/
def Withdrawn (i : Nat) (mid : List (Code.Event C)) : Prop :=
  ∃ before forget rest, mid = before ++ forget :: rest ∧ forget.tid = i ∧ Forgot b key forget ∧
    (∃ d ∈ before, d.tid = i ∧ Withdrew d) ∧ ∀ d ∈ before, ¬ CalledBy callId i d

/-- What lets an invocation begin after the one that began at `s`, when `mid` happened since:
    a retry decision bound to the version of its running episode, or its own withdrawal. -/
def Justified (s : Code.Event C) (mid : List (Code.Event C)) : Prop :=
  (∃ d ∈ mid, Retried b key (s.after.entry b key).version d) ∨ Withdrawn b key callId s.tid mid

/-- At most one execution per authority. -/
structure AtMostOnce (log : List (Code.Event C)) : Prop where
  /-- An invocation begins only when the one before it left leave to. -/
  authority : Always (fun before e => Began b key e →
    ∀ pre s mid, LastOf (Began b key) before pre s mid → Justified b key callId s mid) log
  /-- No invocation begins once the effect is settled. -/
  settled : Always (fun before e => Began b key e →
    ∀ d ∈ before, ∀ v, ¬ Settled b key v d) log
  /-- A handler comes back only once for an invocation its thread has begun. -/
  invoked : Always (fun before e => Ran e →
    ∃ pre s mid, LastOf (fun d => d.tid = e.tid ∧ Began b key d) before pre s mid ∧
      ∀ d ∈ mid, d.tid ≠ e.tid) log
  /-- A tool called once the effect is settled returns the settled record, and its handler
      does not run. -/
  replayed : Always (fun before e => ∀ result, Returned callId result e →
    ∀ pre c mid, LastOf (CalledBy callId e.tid) before pre c mid →
      ∀ d ∈ pre, ∀ v, Settled b key v d →
        result = .ok v ∧ ∀ d ∈ mid, d.tid = e.tid → ¬ Ran d) log

end property

/-! ## Section 3: The contract -/

section contract

variable {C : Type} (owners : Owners) (b key callId : String)

/-- What the branch's effect and the log say of each other. -/
structure OnceInv (h : Code.History C) : Prop where
  leases : LeaseOk h.now
  running : (h.now.entry b key).status = .running →
    ∀ pre s mid, LastOf (Began b key) h.log pre s mid →
      (h.now.entry b key).version = (s.after.entry b key).version
  startable : (h.now.entry b key).status ≠ .running → (h.now.entry b key).status ≠ .done →
    ∀ pre s mid, LastOf (Began b key) h.log pre s mid → Justified b key callId s mid
  committed : ∀ e ∈ h.log, ∀ v, Settled b key v e →
    (h.now.entry b key).status = .done ∧ (h.now.entry b key).value = v
  decided : ∀ id payload, h.now.decisions.get? (b, id) = some payload → payload.key = key →
    payload.action = .complete →
    (h.now.entry b key).status = .done ∧ (h.now.entry b key).value = payload.value
  once : AtMostOnce b key callId h.log

/-- What thread `i` may rely on: the others add to the log, keep to the lease, and begin no
    invocation while `i` holds the branch. -/
structure OnceRely (i : Nat) (h h' : Code.History C) : Prop where
  lease : LeaseRely b (owners.name i) (· = key) h.now h'.now
  log : ∃ more, h'.log = h.log ++ more ∧ (∀ e ∈ more, e.tid ≠ i) ∧
    ∀ t, Holds b (owners.name i) t h.now →
      t < h'.now.issued b ∨ ∀ e ∈ more, ¬ Began b key e

/-- What each operation of thread `i` guarantees. -/
structure OnceGuar (i : Nat) (call : C) (h : Code.History C) (o : Op) (r : o.Reply)
    (h' : Code.History C) : Prop where
  log : h'.log = h.log ++ [⟨i, call, o, r, h'.now⟩]
  inv : OnceInv b key callId h'
  others : ∀ j, j ≠ i → LeaseRely b (owners.name j) (· = key) h.now h'.now
  began : Began b key (⟨i, call, o, r, h'.now⟩ : Code.Event C) →
    ∃ t, Holds b (owners.name i) t h.now
  issued : (∀ w, o ≠ .ledger (.release b w)) →
    ∀ t, Issued b (owners.name i) t h.now → Issued b (owners.name i) t h'.now

theorem OnceRely.refl (i : Nat) (h : Code.History C) : OnceRely owners b key i h h :=
  ⟨LeaseRely.refl .., [], (List.append_nil _).symm, by simp, by simp⟩

variable {owners b key callId}

theorem OnceRely.trans {i : Nat} {h₁ h₂ h₃ : Code.History C}
    (h : OnceRely owners b key i h₁ h₂) (h' : OnceRely owners b key i h₂ h₃) :
    OnceRely owners b key i h₁ h₃ := by
  obtain ⟨more, hlog, htid, hbegan⟩ := h.log
  obtain ⟨more', hlog', htid', hbegan'⟩ := h'.log
  refine ⟨h.lease.trans h'.lease, more ++ more', by simp [hlog', hlog], ?_, ?_⟩
  · intro e he
    exact (List.mem_append.mp he).elim (htid e) (htid' e)
  · intro t hholds
    rcases h.lease.holds t hholds with hlt | ⟨hholds', _⟩
    · exact Or.inl (Int.lt_of_lt_of_le hlt h'.lease.rises)
    · rcases hbegan t hholds with hlt | hnone
      · exact Or.inl (Int.lt_of_lt_of_le hlt h'.lease.rises)
      · refine (hbegan' t hholds').imp id fun hnone' e he => ?_
        exact (List.mem_append.mp he).elim (hnone e) (hnone' e)

theorem OnceGuar.rely {i j : Nat} {call : C} {h h' : Code.History C} {o : Op} {r : o.Reply}
    (hguar : OnceGuar owners b key callId i call h o r h') (hne : j ≠ i) :
    OnceRely owners b key j h h' := by
  refine ⟨hguar.others j hne, _, hguar.log, ?_, fun t hholds => Or.inr ?_⟩
  · intro e he
    obtain rfl := List.mem_singleton.mp he
    exact Ne.symm hne
  · intro e he hbegan
    obtain rfl := List.mem_singleton.mp he
    obtain ⟨t', hholds'⟩ := hguar.began hbegan
    exact hne (owners.distinct (hholds.owner_eq hholds'))

variable (owners b key callId)

/-- The contract of workers and operators. -/
def onceContract : Contract (MemorySteps Record) Env C Op.Reply where
  inv := OnceInv b key callId
  ok _ _ _ _ _ := True
  rely := OnceRely owners b key
  guar := OnceGuar owners b key callId
  rely_refl := OnceRely.refl owners b key
  rely_trans := OnceRely.trans
  keep _ hguar := hguar.inv
  others _ hguar hne := hguar.rely hne

end contract

/-! ## Section 4: Assertions -/

section assertions

variable {C : Type} (owners : Owners) (b key callId : String)

/-- What holds between the start of the tool's call by `i` and now. -/
def AtCall (i : Nat) (R : List (Code.Event C) → List (Code.Event C) → Prop)
    (h : Code.History C) : Prop :=
  ∀ pre c mid, LastOf (CalledBy callId i) h.log pre c mid → R pre mid

/-- `i` has done nothing since it called the tool. -/
def Entering (i : Nat) : Code.History C → Prop :=
  AtCall callId i fun _ mid => ∀ d ∈ mid, d.tid ≠ i

/-- The effect was not settled when `i` called the tool. -/
def Fresh (i : Nat) : Code.History C → Prop :=
  AtCall callId i fun pre _ => ∀ d ∈ pre, ∀ v, ¬ Settled b key v d

/-- `result` is what `i`'s call of the tool may return. -/
def Answers (i : Nat) (result : Except Raised (Option Record)) : Code.History C → Prop :=
  AtCall callId i fun pre mid => ∀ d ∈ pre, ∀ v, Settled b key v d →
    result = .ok v ∧ ∀ d ∈ mid, d.tid = i → ¬ Ran d

/-- `i` began an invocation, and has done nothing since. -/
def Owes (i : Nat) (h : Code.History C) : Prop :=
  ∃ pre s mid, LastOf (fun d => d.tid = i ∧ Began b key d) h.log pre s mid ∧
    ∀ d ∈ mid, d.tid ≠ i

/-- `i`'s invocation is the running one, and `R` of what happened since; or its token is
    stale by now. -/
def Running (i : Nat) (token : Int) (R : List (Code.Event C) → Prop)
    (h : Code.History C) : Prop :=
  token < h.now.issued b ∨ (Holds b (owners.name i) token h.now ∧
    (h.now.entry b key).status = .running ∧
    ∃ pre s mid, LastOf (Began b key) h.log pre s mid ∧ s.tid = i ∧
      (∀ d ∈ mid, ¬ CalledBy callId i d) ∧ R mid)

/-- `i`'s handler raised a signal that nothing happened. -/
def HasWithdrawn (i : Nat) (mid : List (Code.Event C)) : Prop := ∃ d ∈ mid, d.tid = i ∧ Withdrew d

variable {owners b key callId} {i : Nat} {h h' : Code.History C}

theorem AtCall.extend {R : List (Code.Event C) → List (Code.Event C) → Prop}
    (hat : AtCall callId i R h) {more : List (Code.Event C)} (hlog : h'.log = h.log ++ more)
    (hcall : ∀ e ∈ more, ¬ CalledBy callId i e)
    (hR : ∀ pre mid, R pre mid → R pre (mid ++ more)) : AtCall callId i R h' := by
  intro pre c mid hlast
  rw [hlog] at hlast
  obtain ⟨mid', rfl, hlast'⟩ := hlast.of_append hcall
  exact hR pre mid' (hat pre c mid' hlast')

theorem AtCall.rely {R : List (Code.Event C) → List (Code.Event C) → Prop}
    (hat : AtCall callId i R h) (hrely : OnceRely owners b key i h h')
    (hR : ∀ pre mid more, (∀ e ∈ more, e.tid ≠ i) → R pre mid → R pre (mid ++ more)) :
    AtCall callId i R h' := by
  obtain ⟨more, hlog, htid, _⟩ := hrely.log
  exact hat.extend hlog (fun e he hcalled => htid e he hcalled.1)
    fun pre mid => hR pre mid more htid

theorem Fresh.answers (hfresh : Fresh b key callId i h) (result : Except Raised (Option Record)) :
    Answers b key callId i result h :=
  fun pre c mid hlast d hd v hsettled => absurd hsettled (hfresh pre c mid hlast d hd v)

theorem Fresh.extend (hfresh : Fresh b key callId i h) {e : Code.Event C}
    (hlog : h'.log = h.log ++ [e]) (hcall : ¬ CalledBy callId i e) : Fresh b key callId i h' :=
  AtCall.extend hfresh hlog (by simpa using hcall) fun _ _ h => h

/-- Only others have moved: what is said of one's own calls stays. -/
theorem stable_entering : Stable (onceContract owners b key callId) i
    (Entering (C := C) callId i) :=
  fun _ _ hat hrely _ => AtCall.rely hat hrely fun _ _ _ hmore hmid d hd =>
    (List.mem_append.mp hd).elim (hmid d) (hmore d)

theorem stable_fresh : Stable (onceContract owners b key callId) i
    (Fresh (C := C) b key callId i) :=
  fun _ _ hat hrely _ => AtCall.rely hat hrely fun _ _ _ _ hpre => hpre

theorem stable_answers (result : Except Raised (Option Record)) :
    Stable (onceContract owners b key callId) i (Answers (C := C) b key callId i result) := by
  refine fun _ _ hat hrely _ => AtCall.rely hat hrely fun pre mid more hmore hR d hd v hv => ?_
  obtain ⟨hresult, hnone⟩ := hR d hd v hv
  refine ⟨hresult, fun d hd htid => ?_⟩
  rcases List.mem_append.mp hd with hd | hd
  · exact hnone d hd htid
  · exact absurd htid (hmore d hd)

theorem stable_owes : Stable (onceContract owners b key callId) i (Owes (C := C) b key i) := by
  rintro h h' ⟨pre, s, mid, hlast, hmid⟩ hrely _
  obtain ⟨more, hlog, htid, _⟩ := hrely.log
  refine ⟨pre, s, mid ++ more, ?_, ?_⟩
  · rw [hlog]
    exact hlast.append fun d hd hown => htid d hd hown.1
  · exact fun d hd => (List.mem_append.mp hd).elim (hmid d) (htid d)

theorem stable_issued {token : Int} : Stable (onceContract owners b key callId) i
    fun h : Code.History C => Issued b (owners.name i) token h.now :=
  fun _ _ hissued hrely _ => hissued.rely hrely.lease

theorem stable_running {token : Int} {R : List (Code.Event C) → Prop}
    (hR : ∀ mid more, R mid → R (mid ++ more)) :
    Stable (onceContract owners b key callId) i (Running owners b key callId i token R) := by
  rintro h h' (hlt | ⟨hholds, hrunning, pre, s, mid, hlast, hs, hcall, hmid⟩) hrely _
  · exact Or.inl (Int.lt_of_lt_of_le hlt hrely.lease.rises)
  · obtain ⟨more, hlog, htid, hbegan⟩ := hrely.log
    rcases hrely.lease.holds token hholds with hlt | ⟨hholds', hsame⟩
    · exact Or.inl hlt
    · rcases hbegan token hholds with hlt | hnone
      · exact Or.inl hlt
      · refine Or.inr ⟨hholds', by rw [hsame key rfl]; exact hrunning, pre, s, mid ++ more, ?_, hs,
          ?_, hR mid more hmid⟩
        · rw [hlog]
          exact hlast.append hnone
        · intro d hd hcalled
          rcases List.mem_append.mp hd with hd | hd
          · exact hcall d hd hcalled
          · exact htid d hd hcalled.1

end assertions

/-! ## Section 5: What one event does to the invariant -/

section events

variable {C : Type} {owners : Owners} {b key callId : String} {i : Nat} {h h' : Code.History C}
  {e : Code.Event C}

/-- An event that speaks of nothing the properties speak of. -/
structure Quiet (b key callId : String) (e : Code.Event C) : Prop where
  began : ¬ Began b key e
  settled : ∀ v, ¬ Settled b key v e
  ran : ¬ Ran e
  returned : ∀ result, ¬ Returned callId result e

theorem AtMostOnce.concat {log : List (Code.Event C)} (honce : AtMostOnce b key callId log)
    (hbegan : Began b key e →
      (∀ pre s mid, LastOf (Began b key) log pre s mid → Justified b key callId s mid) ∧
      ∀ d ∈ log, ∀ v, ¬ Settled b key v d)
    (hran : Ran e → ∃ pre s mid, LastOf (fun d => d.tid = e.tid ∧ Began b key d) log pre s mid ∧
      ∀ d ∈ mid, d.tid ≠ e.tid)
    (hreturned : ∀ result, Returned callId result e →
      ∀ pre c mid, LastOf (CalledBy callId e.tid) log pre c mid →
        ∀ d ∈ pre, ∀ v, Settled b key v d → result = .ok v ∧ ∀ d ∈ mid, d.tid = e.tid → ¬ Ran d) :
    AtMostOnce b key callId (log ++ [e]) where
  authority := always_concat.mpr ⟨honce.authority, fun h => (hbegan h).1⟩
  settled := always_concat.mpr ⟨honce.settled, fun h => (hbegan h).2⟩
  invoked := always_concat.mpr ⟨honce.invoked, hran⟩
  replayed := always_concat.mpr ⟨honce.replayed, hreturned⟩

theorem Withdrawn.append {mid : List (Code.Event C)} (hw : Withdrawn b key callId i mid)
    (more : List (Code.Event C)) : Withdrawn b key callId i (mid ++ more) := by
  obtain ⟨before, f, rest, rfl, htid, hforgot, hw, hcall⟩ := hw
  exact ⟨before, f, rest ++ more, by simp, htid, hforgot, hw, hcall⟩

theorem Justified.append {s : Code.Event C} {mid : List (Code.Event C)}
    (hj : Justified b key callId s mid) (more : List (Code.Event C)) :
    Justified b key callId s (mid ++ more) := by
  rcases hj with ⟨d, hd, hretried⟩ | hw
  · exact Or.inl ⟨d, List.mem_append_left _ hd, hretried⟩
  · exact Or.inr (hw.append more)

/-- An event over an untouched effect keeps the invariant, when the log allows it. -/
theorem OnceInv.idle (hinv : OnceInv b key callId h) (hlog : h'.log = h.log ++ [e])
    (hbegan : ¬ Began b key e) (hsettled : ∀ v, Settled b key v e →
      (h.now.entry b key).status = .done ∧ (h.now.entry b key).value = v)
    (honce : AtMostOnce b key callId (h.log ++ [e])) (hleases : LeaseOk h'.now)
    (hentry : h'.now.entry b key = h.now.entry b key)
    (hdecisions : ∀ id payload, h'.now.decisions.get? (b, id) = some payload →
      payload.key = key → h.now.decisions.get? (b, id) = some payload) :
    OnceInv b key callId h' where
  leases := hleases
  running := by
    -- The row is as it was, and an event that is no start leaves the last start where it is.
    rw [hentry, hlog]
    intro hstatus pre s mid hlast
    obtain ⟨mid', _, hlast'⟩ := hlast.of_concat hbegan
    exact hinv.running hstatus pre s mid' hlast'
  startable := by
    rw [hentry, hlog]
    intro hrunning hdone pre s mid hlast
    obtain ⟨mid', rfl, hlast'⟩ := hlast.of_concat hbegan
    exact (hinv.startable hrunning hdone pre s mid' hlast').append [e]
  committed := by
    rw [hentry, hlog]
    intro d hd v hv
    rcases List.mem_append.mp hd with hd | hd
    · exact hinv.committed d hd v hv
    · obtain rfl := List.mem_singleton.mp hd
      exact hsettled v hv
  decided := by
    rw [hentry]
    exact fun id payload hget hkey => hinv.decided id payload (hdecisions id payload hget hkey) hkey
  once := by
    rw [hlog]
    exact honce

/-- A quiet event over an untouched effect keeps the invariant. -/
theorem OnceInv.quiet (hinv : OnceInv b key callId h) (hlog : h'.log = h.log ++ [e])
    (hquiet : Quiet b key callId e) (hleases : LeaseOk h'.now)
    (hentry : h'.now.entry b key = h.now.entry b key)
    (hdecisions : ∀ id payload, h'.now.decisions.get? (b, id) = some payload →
      payload.key = key → h.now.decisions.get? (b, id) = some payload) :
    OnceInv b key callId h' :=
  hinv.idle hlog hquiet.began (fun v hv => absurd hv (hquiet.settled v))
    (hinv.once.concat (fun hb => absurd hb hquiet.began) (fun hr => absurd hr hquiet.ran)
      fun result hr => absurd hr (hquiet.returned result)) hleases hentry hdecisions

/-- A ledger call ends no invocation and no call of the tool. -/
theorem Quiet.ofLedger {call : C} {op : LedgerOp Record} {r : Except StoreError op.Reply}
    {s : MemorySteps Record}
    (hbegan : ¬ Began b key (⟨i, call, .ledger op, r, s⟩ : Code.Event C))
    (hsettled : ∀ v, ¬ Settled b key v (⟨i, call, .ledger op, r, s⟩ : Code.Event C)) :
    Quiet b key callId (⟨i, call, .ledger op, r, s⟩ : Code.Event C) where
  began := hbegan
  settled := hsettled
  ran := by
    rintro ⟨_, _, _, hdid⟩
    cases Event.op_of_did hdid
  returned := by
    intro result hdid
    cases Event.op_of_did hdid

theorem not_called_ledger {j : Nat} {call : C} {op : LedgerOp Record}
    {r : Except StoreError op.Reply} {s : MemorySteps Record} :
    ¬ CalledBy callId i (⟨j, call, .ledger op, r, s⟩ : Code.Event C) :=
  fun hcalled => nomatch Event.op_of_did hcalled.2

/-- What is not about the effect is quiet. -/
theorem quiet_elsewhere (callId : String) {call : C} {op : LedgerOp Record}
    {r : Except StoreError op.Reply}
    {s : MemorySteps Record} (hop : op.branchId ≠ b ∨ key ∉ op.keys) :
    Quiet b key callId (⟨i, call, .ledger op, r, s⟩ : Code.Event C) := by
  refine Quiet.ofLedger ?_ ?_
  · rintro ⟨token, hdid⟩
    obtain rfl : op = _ := Op.ledger.inj (Event.op_of_did hdid)
    simp [LedgerOp.branchId, LedgerOp.keys] at hop
  · rintro v (⟨token, hdid⟩ | ⟨_, _, _, _, _, _, hdid⟩) <;>
    · obtain rfl : op = _ := Op.ledger.inj (Event.op_of_did hdid)
      simp [LedgerOp.branchId, LedgerOp.keys] at hop

/-- A call that raised is quiet. -/
theorem quiet_error (callId : String) {call : C} {op : LedgerOp Record} {error : StoreError}
    {s : MemorySteps Record} :
    Quiet b key callId (⟨i, call, .ledger op, (.error error : Except StoreError op.Reply), s⟩ :
      Code.Event C) := by
  refine Quiet.ofLedger ?_ ?_
  · rintro ⟨_, hdid⟩
    cases hdid
  · rintro v (⟨_, hdid⟩ | ⟨_, _, _, _, _, _, hdid⟩) <;> cases hdid

theorem guar_ledger {call : C} {op : LedgerOp Record} {now later : ℚ}
    {r : Except StoreError op.Reply} {s : MemorySteps Record}
    (hop : op.perform now later h.now = (r, s))
    (hd : Disciplined b (owners.name i) (· = key) h.now op)
    (hinv : OnceInv b key callId (Code.next h i call (.ledger op) r s))
    (hbegan : Began b key (⟨i, call, .ledger op, r, s⟩ : Code.Event C) →
      ∃ t, Holds b (owners.name i) t h.now) :
    OnceGuar owners b key callId i call h (.ledger op) r (Code.next h i call (.ledger op) r s) := by
  obtain ⟨rfl, rfl⟩ : (op.perform now later h.now).1 = r ∧ (op.perform now later h.now).2 = s := by
    rw [hop]
    exact ⟨rfl, rfl⟩
  exact {
    log := rfl
    inv := hinv
    others := fun _ hne => hd.leaseRely (fun heq => hne (owners.distinct heq)) now later
    began := hbegan
    issued := fun hrelease _ ht =>
      hd.issued ht (fun w heq => hrelease w (congrArg Op.ledger heq)) now later }

/-- A call that is not about the effect. -/
theorem guar_elsewhere (call : C) {op : LedgerOp Record} {now later : ℚ}
    {r : Except StoreError op.Reply} {s : MemorySteps Record} (hinv : OnceInv b key callId h)
    (hperform : op.perform now later h.now = (r, s))
    (hd : Disciplined b (owners.name i) (· = key) h.now op)
    (hop : op.branchId ≠ b ∨ key ∉ op.keys) :
    OnceGuar owners b key callId i call h (.ledger op) r (Code.next h i call (.ledger op) r s) := by
  obtain rfl : (op.perform now later h.now).2 = s := by rw [hperform]
  exact guar_ledger hperform hd
    (hinv.quiet rfl (quiet_elsewhere callId hop) (leaseOk_perform op now later hinv.leases)
      (perform_entry op now later h.now hop)
      fun _ _ hget hkey => perform_decisions_key op now later h.now (hkey ▸ hop) hget)
    fun hbegan => absurd hbegan (quiet_elsewhere callId hop).began

/-- A call that raised. -/
theorem guar_error {call : C} {op : LedgerOp Record} {now later : ℚ} {error : StoreError}
    (hinv : OnceInv b key callId h)
    (hperform : op.perform now later h.now = (.error error, h.now))
    (hd : Disciplined b (owners.name i) (· = key) h.now op) :
    OnceGuar owners b key callId i call h (.ledger op) (.error error : Except StoreError op.Reply)
      (Code.next h i call (.ledger op) (.error error : Except StoreError op.Reply) h.now) :=
  guar_ledger hperform hd
    (hinv.quiet rfl (quiet_error callId) hinv.leases rfl fun _ _ hget _ => hget)
    fun hbegan => absurd hbegan (quiet_error callId).began

theorem guar_ext {call : C} {x : External} {r : x.Reply}
    (hinv : OnceInv b key callId (Code.next h i call (.ext x) r h.now)) :
    OnceGuar owners b key callId i call h (.ext x) r (Code.next h i call (.ext x) r h.now) where
  log := rfl
  inv := hinv
  others _ _ := LeaseRely.refl ..
  began hbegan := by
    obtain ⟨_, hdid⟩ := hbegan
    cases Event.op_of_did hdid
  issued _ _ ht := ht

/-- A question that is not the handler's, and a mark that ends no call. -/
theorem guar_quiet_ext {call : C} {x : External} {r : x.Reply} (hinv : OnceInv b key callId h)
    (hquiet : Quiet b key callId (⟨i, call, .ext x, r, h.now⟩ : Code.Event C)) :
    OnceGuar owners b key callId i call h (.ext x) r (Code.next h i call (.ext x) r h.now) :=
  guar_ext (hinv.quiet rfl hquiet hinv.leases rfl fun _ _ hget _ => hget)

end events

/-! ## Section 6: The operations of the tool -/

section operations

variable {C : Type} {owners : Owners} {b key callId : String} {i : Nat} {h : Code.History C}
  {call : C} {token : Int}

/-- An invocation that begins. -/
theorem OnceInv.began (hinv : OnceInv b key callId h)
    (hrunning : (h.now.entry b key).status ≠ .running)
    (hdone : (h.now.entry b key).status ≠ .done) :
    OnceInv b key callId (Code.next h i call (.ledger (.start b key token))
      (.ok true : Except StoreError Bool)
      (h.now.setEntry b key
        { status := .running, version := (h.now.entry b key).version + 1 })) := by
  have hbegan : Began b key (⟨i, call, .ledger (.start b key token),
      (.ok true : Except StoreError Bool), h.now.setEntry b key
        { status := .running, version := (h.now.entry b key).version + 1 }⟩ : Code.Event C) :=
    ⟨token, rfl⟩
  -- The step was not done, so by `committed` nothing in the log has settled it.
  have hunsettled : ∀ d ∈ h.log, ∀ v, ¬ Settled b key v d := fun d hd v hv =>
    hdone (hinv.committed d hd v hv).1
  refine ⟨?_, ?_, ?_, ?_, ?_, ?_⟩
  · exact leaseOk_sameLeases hinv.leases ⟨rfl, rfl⟩
  · -- running: the start is now the last one, with the version it wrote.
    intro _ pre s mid hlast
    obtain ⟨_, rfl, _⟩ := hlast.unique (LastOf.concat h.log hbegan)
    rfl
  · intro hrunning
    simp [Code.next] at hrunning
  · intro d hd v hv
    rcases List.mem_append.mp hd with hd | hd
    · exact absurd hv (hunsettled d hd v)
    · obtain rfl := List.mem_singleton.mp hd
      rcases hv with ⟨_, hdid⟩ | ⟨_, _, _, _, _, _, hdid⟩ <;> cases hdid
  · intro id payload hget hkey hcomplete
    exact absurd (hinv.decided id payload hget hkey hcomplete).1 hdone
  · -- once: a second start is the one thing to justify, and `startable` does.
    refine hinv.once.concat (fun _ => ⟨hinv.startable hrunning hdone, hunsettled⟩) ?_ ?_
    · rintro ⟨_, _, _, hdid⟩
      cases hdid
    · intro _ hdid
      cases hdid

/-- A running effect that is completed, or cleared for a justified repetition. -/
theorem OnceInv.moved {h' : Code.History C} {e : Code.Event C} (hinv : OnceInv b key callId h)
    (hrunning : (h.now.entry b key).status = .running) (hlog : h'.log = h.log ++ [e])
    (hop : ∃ op, e.op = .ledger op) (hbegan : ¬ Began b key e)
    (hleases : SameLeases h.now h'.now) (hstatus : (h'.now.entry b key).status ≠ .running)
    (hstartable : (h'.now.entry b key).status ≠ .done →
      ∀ pre s mid, LastOf (Began b key) h.log pre s mid → Justified b key callId s (mid ++ [e]))
    (hsettled : ∀ v, Settled b key v e →
      (h'.now.entry b key).status = .done ∧ (h'.now.entry b key).value = v)
    (hdecided : ∀ id payload, h'.now.decisions.get? (b, id) = some payload →
      payload.action = .complete → h.now.decisions.get? (b, id) = some payload ∨
        ((h'.now.entry b key).status = .done ∧ (h'.now.entry b key).value = payload.value)) :
    OnceInv b key callId h' := by
  obtain ⟨op, hop⟩ := hop
  refine ⟨leaseOk_sameLeases hinv.leases hleases, fun h => absurd h hstatus, ?_, ?_, ?_, ?_⟩
  · rw [hlog]
    intro _ hdone pre s mid hlast
    obtain ⟨mid', rfl, hlast'⟩ := hlast.of_concat hbegan
    -- the last start is still the one it was
    exact hstartable hdone pre s mid' hlast'
  · rw [hlog]
    intro d hd v hv
    rcases List.mem_append.mp hd with hd | hd
    · -- A settlement in the old log would have the step done, and it runs.
      have hdone := (hinv.committed d hd v hv).1
      simp [hrunning] at hdone
    · obtain rfl := List.mem_singleton.mp hd
      exact hsettled v hv
  · intro id payload hget hkey hcomplete
    rcases hdecided id payload hget hcomplete with hold | hnew
    · have hdone := (hinv.decided id payload hold hkey hcomplete).1
      simp [hrunning] at hdone
    · exact hnew
  · -- once: the event is neither a start nor a run of the handler.
    rw [hlog]
    refine hinv.once.concat (fun hb => absurd hb hbegan) ?_ ?_
    · rintro ⟨_, _, _, hdid⟩
      cases hop.symm.trans (Event.op_of_did hdid)
    · intro _ hdid
      cases hop.symm.trans (Event.op_of_did hdid)

/-- `start`: it raises, refuses, or begins the invocation that is then the running one. -/
theorem start_step (call : C) {now later : ℚ} {r : Except StoreError Bool} {s : MemorySteps Record}
    (hinv : OnceInv b key callId h) (hissued : Issued b (owners.name i) token h.now)
    (hperform : (LedgerOp.start b key token).perform now later h.now = (r, s)) :
    OnceGuar owners b key callId i call h (.ledger (.start b key token)) r
        (Code.next h i call (.ledger (.start b key token)) r s) ∧
      (r = .ok true →
        Owes b key i (Code.next h i call (.ledger (.start b key token)) r s) ∧
        Running owners b key callId i token (fun _ => True)
          (Code.next h i call (.ledger (.start b key token)) r s)) := by
  have hd : Disciplined b (owners.name i) (· = key) h.now (.start b key token) :=
    .fenced rfl hissued
  rcases start_cases h.now b key token with ⟨e, heq⟩ | heq | ⟨hrunning, hdone, heq⟩
  · obtain ⟨rfl, rfl⟩ := Prod.mk.inj (hperform.symm.trans heq)
    -- Refused.
    exact ⟨guar_error hinv hperform hd, fun h => nomatch h⟩
  · obtain ⟨rfl, rfl⟩ := Prod.mk.inj (hperform.symm.trans heq)
    -- Answered `False`: nothing is written, and nothing began.
    have hquiet : Quiet b key callId (⟨i, call, .ledger (.start b key token),
        (.ok false : Except StoreError Bool), h.now⟩ : Code.Event C) := by
      refine Quiet.ofLedger ?_ ?_
      · rintro ⟨_, hdid⟩
        cases hdid
      · rintro v (⟨_, hdid⟩ | ⟨_, _, _, _, _, _, hdid⟩) <;> cases hdid
    exact ⟨guar_ledger hperform hd (hinv.quiet rfl hquiet hinv.leases rfl fun _ _ hget _ => hget)
      fun hbegan => absurd hbegan hquiet.began, fun h => nomatch h⟩
  · obtain ⟨rfl, rfl⟩ := Prod.mk.inj (hperform.symm.trans heq)
    -- Begun: a token that is not the newest would have been refused, so this one holds the lease.
    have hholds : Holds b (owners.name i) token h.now := by
      refine hissued.2.resolve_left fun hlt => ?_
      have hstale : (LedgerOp.start b key token).perform now later h.now = _ :=
        perform_of_stale rfl hissued.1 hlt now later
      cases hperform.symm.trans hstale
    have hbegan : Began b key (⟨i, call, .ledger (.start b key token),
        (.ok true : Except StoreError Bool), h.now.setEntry b key
          { status := .running, version := (h.now.entry b key).version + 1 }⟩ : Code.Event C) :=
      ⟨token, rfl⟩
    refine ⟨guar_ledger hperform hd (hinv.began hrunning hdone) fun _ => ⟨token, hholds⟩,
      fun _ => ⟨?_, ?_⟩⟩
    · exact ⟨h.log, _, [], LastOf.concat h.log ⟨rfl, hbegan⟩, by simp⟩
    · refine Or.inr ⟨⟨hholds.lease, hholds.newest⟩, ?_, h.log, _, [], LastOf.concat h.log hbegan,
        rfl, by simp, trivial⟩
      simp [Code.next]

/-- The running invocation, before a write under its token: the write raises, or the branch
    is held and the effect running. -/
theorem Running.holds {R : List (Code.Event C) → Prop} {op : LedgerOp Record} {now later : ℚ}
    {r : Except StoreError op.Reply} {s : MemorySteps Record}
    (hrunning : Running owners b key callId i token R h) (hzero : token ≠ 0)
    (hop : op.token? = some token) (hb : op.branchId = b)
    (hperform : op.perform now later h.now = (r, s)) :
    (∃ error, r = .error error ∧ s = h.now) ∨
    ((h.now.entry b key).status = .running ∧
      ∃ pre s mid, LastOf (Began b key) h.log pre s mid ∧ s.tid = i ∧
        (∀ d ∈ mid, ¬ CalledBy callId i d) ∧ R mid) := by
  rcases hrunning with hlt | ⟨_, hrest⟩
  · subst hb
    obtain ⟨rfl, rfl⟩ := Prod.mk.inj
      (hperform.symm.trans (perform_of_stale hop hzero hlt now later))
    exact Or.inl ⟨_, rfl, rfl⟩
  · exact Or.inr hrest

theorem Running.issued {R : List (Code.Event C) → Prop}
    (hrunning : Running owners b key callId i token R h) (hzero : token ≠ 0) :
    Issued b (owners.name i) token h.now :=
  ⟨hzero, hrunning.imp id fun hholds => hholds.1⟩

/-- `finish_effect` under the token of the invocation. -/
theorem finish_step {R : List (Code.Event C) → Prop} {value : Option Record} {now later : ℚ}
    {r : Except StoreError Unit} {s : MemorySteps Record} (hinv : OnceInv b key callId h)
    (hrunning : Running owners b key callId i token R h) (hzero : token ≠ 0)
    (hperform : (LedgerOp.finishEffect b key value token).perform now later h.now = (r, s)) :
    OnceGuar owners b key callId i call h (.ledger (.finishEffect b key value token)) r
      (Code.next h i call (.ledger (.finishEffect b key value token)) r s) := by
  have hd : Disciplined b (owners.name i) (· = key) h.now (.finishEffect b key value token) :=
    .fenced rfl (hrunning.issued hzero)
  rcases hrunning.holds hzero rfl rfl hperform with ⟨e, rfl, rfl⟩ | ⟨hstatus, _⟩
  · exact guar_error hinv hperform hd
  · -- Still the holder: the step is running, so it is finished with `value` here.
    have hnew : ¬ Began b key (⟨i, call, .ledger (.finishEffect b key value token), r, s⟩ :
        Code.Event C) := by
      rintro ⟨_, hdid⟩
      cases Event.op_of_did hdid
    rcases finishEffect_cases h.now b key value token with
      ⟨e, heq⟩ | ⟨hdone, _, heq⟩ | ⟨_, heq⟩
    · obtain ⟨rfl, rfl⟩ := Prod.mk.inj (hperform.symm.trans heq)
      exact guar_error hinv hperform hd
    · simp [hstatus] at hdone
    · obtain ⟨rfl, rfl⟩ := Prod.mk.inj (hperform.symm.trans heq)
      refine guar_ledger hperform hd ?_ fun hbegan => absurd hbegan hnew
      refine hinv.moved hstatus rfl ⟨_, rfl⟩ hnew ⟨rfl, rfl⟩ ?_ ?_ ?_ ?_
      · simp [Code.next]
      · simp [Code.next]
      · rintro v (⟨_, hdid⟩ | ⟨_, _, _, _, _, _, hdid⟩)
        · cases hdid
          simp [Code.next]
        · cases hdid
      · exact fun _ _ hget _ => Or.inl hget

/-- `forget` under the token of an invocation whose handler has withdrawn. -/
theorem forget_step {now later : ℚ} {r : Except StoreError Unit} {s : MemorySteps Record}
    (hinv : OnceInv b key callId h)
    (hrunning : Running owners b key callId i token (HasWithdrawn i) h) (hzero : token ≠ 0)
    (hperform : (LedgerOp.forget b key token).perform now later h.now = (r, s)) :
    OnceGuar owners b key callId i call h (.ledger (.forget b key token)) r
      (Code.next h i call (.ledger (.forget b key token)) r s) := by
  have hd : Disciplined b (owners.name i) (· = key) h.now (.forget b key token) :=
    .fenced rfl (hrunning.issued hzero)
  rcases hrunning.holds hzero rfl rfl hperform with
    ⟨e, rfl, rfl⟩ | ⟨hstatus, pre, s₀, mid, hlast, hs, hcall, hwithdrew⟩
  · exact guar_error hinv hperform hd
  · -- Still the holder: forgetting makes the step startable again, and the handler has withdrawn.
    have hnew : ¬ Began b key (⟨i, call, .ledger (.forget b key token), r, s⟩ : Code.Event C) := by
      rintro ⟨_, hdid⟩
      cases Event.op_of_did hdid
    rcases forget_cases h.now b key token with ⟨e, heq⟩ | ⟨_, heq⟩ | ⟨hnot, _⟩
    · obtain ⟨rfl, rfl⟩ := Prod.mk.inj (hperform.symm.trans heq)
      exact guar_error hinv hperform hd
    · obtain ⟨rfl, rfl⟩ := Prod.mk.inj (hperform.symm.trans heq)
      refine guar_ledger hperform hd ?_ fun hbegan => absurd hbegan hnew
      refine hinv.moved hstatus rfl ⟨_, rfl⟩ hnew ⟨rfl, rfl⟩ ?_ ?_ ?_ ?_
      · simp [Code.next]
      · intro _ pre' s' mid' hlast'
        obtain ⟨_, rfl, rfl⟩ := hlast'.unique hlast
        refine Or.inr ⟨mid', _, [], rfl, hs.symm, ⟨token, rfl⟩, ?_, ?_⟩
        · rw [hs]
          exact hwithdrew
        · rw [hs]
          exact hcall
      · rintro v (⟨_, hdid⟩ | ⟨_, _, _, _, _, _, hdid⟩) <;> cases hdid
      · exact fun _ _ hget _ => Or.inl hget
    · exact absurd hstatus hnot

/-- `resolve_effect` under a lease of one's own. -/
theorem resolve_step {resolution : EffectResolution Record} {workersStopped : Bool}
    {now later : ℚ} {r : Except StoreError (Step Record)} {s : MemorySteps Record}
    (hinv : OnceInv b key callId h) (hissued : Issued b (owners.name i) token h.now)
    (hperform : (LedgerOp.resolveEffect b key resolution workersStopped token).perform now later
      h.now = (r, s)) :
    OnceGuar owners b key callId i call h
      (.ledger (.resolveEffect b key resolution workersStopped token)) r
      (Code.next h i call (.ledger (.resolveEffect b key resolution workersStopped token)) r s) := by
  have hd : Disciplined b (owners.name i) (· = key) h.now
      (.resolveEffect b key resolution workersStopped token) := .fenced rfl hissued
  have hnew : ¬ Began b key (⟨i, call, .ledger (.resolveEffect b key resolution workersStopped
      token), r, s⟩ : Code.Event C) := by
    rintro ⟨_, hdid⟩
    cases Event.op_of_did hdid
  rcases resolveEffect_cases h.now b key resolution workersStopped token with
    ⟨e, heq⟩ | ⟨payload, previous, hpayload, hget, hsame, heq⟩ |
    ⟨payload, hpayload, _, hstatus, hversion, heq⟩
  · obtain ⟨rfl, rfl⟩ := Prod.mk.inj (hperform.symm.trans heq)
    exact guar_error hinv hperform hd
  · obtain ⟨rfl, rfl⟩ := Prod.mk.inj (hperform.symm.trans heq)
    obtain rfl : previous = payload := ResolutionPayload.eq_of_beq hsame
    -- a decision sent again: what it decided is what the effect has become
    refine guar_ledger hperform hd ?_ fun hbegan => absurd hbegan hnew
    refine hinv.idle rfl hnew ?_ ?_ hinv.leases rfl fun _ _ hget _ => hget
    · rintro v (⟨_, hdid⟩ | ⟨resolution', _, _, _, hcomplete, rfl, hdid⟩)
      · cases hdid
      · cases hdid
        have hdecided := hinv.decided resolution.decisionId previous hget
        rw [resolutionPayload_ok hpayload] at hdecided
        exact hdecided rfl hcomplete
    · refine hinv.once.concat (fun hb => absurd hb hnew) ?_ ?_
      · rintro ⟨_, _, _, hdid⟩
        cases hdid
      · intro _ hdid
        cases hdid
  · obtain ⟨rfl, rfl⟩ := Prod.mk.inj (hperform.symm.trans heq)
    refine guar_ledger hperform hd ?_ fun hbegan => absurd hbegan hnew
    have hentry : ∀ decisions : Dict (String × String) (ResolutionPayload Record),
        MemorySteps.entry { h.now.setEntry b key (resolved resolution (h.now.entry b key).version)
          with decisions := decisions } b key
          = resolved resolution (h.now.entry b key).version := fun _ => entry_setEntry_self ..
    -- A new decision: the step runs in the version that was decided on, and stops running now.
    refine hinv.moved hstatus rfl ⟨_, rfl⟩ hnew ⟨rfl, rfl⟩ ?_ ?_ ?_ ?_
    · dsimp only [Code.next]
      rw [hentry]
      cases haction : resolution.action <;> simp [resolved, haction]
    · intro hdone pre s₀ mid hlast
      dsimp only [Code.next] at hdone
      rw [hentry] at hdone
      -- Decided to retry: the decision itself justifies the next start.
      refine Or.inl ⟨_, List.mem_append_right _ List.mem_cons_self, resolution, workersStopped,
        token, _, ?_, ?_, rfl⟩
      · cases haction : resolution.action with
        | retry => rfl
        | complete => simp [resolved, haction] at hdone
      · rw [← hinv.running hstatus pre s₀ mid hlast]
        exact hversion.symm
    · rintro v (⟨_, hdid⟩ | ⟨_, _, _, _, hcomplete, rfl, hdid⟩)
      · cases hdid
      · cases hdid
        dsimp only [Code.next]
        rw [hentry]
        simp [resolved, hcomplete]
    · intro id payload' hget hcomplete
      dsimp only [Code.next] at hget ⊢
      rw [hentry]
      rw [Dict.get?_set] at hget
      split at hget
      · cases hget
        rw [resolutionPayload_ok hpayload] at hcomplete ⊢
        dsimp only at hcomplete
        simp [resolved, hcomplete]
      · exact Or.inl hget

/-- The handler of an invocation comes back. -/
theorem handler_step {toolCall : ToolCall} {args : Json} {r : Except Raised Json}
    (hinv : OnceInv b key callId h) (howes : Owes b key i h) :
    OnceGuar owners b key callId i call h (.ext (.handler toolCall args)) r
      (Code.next h i call (.ext (.handler toolCall args)) r h.now) := by
  refine guar_ext (hinv.idle rfl ?_ ?_ ?_ hinv.leases rfl fun _ _ hget _ => hget)
  · rintro ⟨_, hdid⟩
    cases Event.op_of_did hdid
  · rintro v (⟨_, hdid⟩ | ⟨_, _, _, _, _, _, hdid⟩) <;> cases Event.op_of_did hdid
  · refine hinv.once.concat ?_ (fun _ => howes) ?_
    · rintro ⟨_, hdid⟩
      cases Event.op_of_did hdid
    · intro _ hdid
      cases Event.op_of_did hdid

/-- The tool's call comes to an end with something it may return. -/
theorem returned_step {result : Except Raised (Option Record)} (hinv : OnceInv b key callId h)
    (hanswers : Answers b key callId i result h) :
    OnceGuar owners b key callId i call h (.ext (.mark (.toolReturned callId result))) ()
      (Code.next h i call (.ext (.mark (.toolReturned callId result))) () h.now) := by
  refine guar_ext (hinv.idle rfl ?_ ?_ ?_ hinv.leases rfl fun _ _ hget _ => hget)
  · rintro ⟨_, hdid⟩
    cases Event.op_of_did hdid
  · rintro v (⟨_, hdid⟩ | ⟨_, _, _, _, _, _, hdid⟩) <;> cases Event.op_of_did hdid
  · refine hinv.once.concat ?_ ?_ ?_
    · rintro ⟨_, hdid⟩
      cases Event.op_of_did hdid
    · rintro ⟨_, _, _, hdid⟩
      cases Event.op_of_did hdid
    · intro result' hdid
      cases hdid
      exact hanswers

/-- The tool is called. -/
theorem called_step (hinv : OnceInv b key callId h) :
    OnceGuar owners b key callId i call h (.ext (.mark (.toolCalled callId))) ()
        (Code.next h i call (.ext (.mark (.toolCalled callId))) () h.now) ∧
      Entering callId i (Code.next h i call (.ext (.mark (.toolCalled callId))) () h.now) := by
  refine ⟨guar_quiet_ext hinv ⟨?_, ?_, ?_, ?_⟩, ?_⟩
  · rintro ⟨_, hdid⟩
    cases Event.op_of_did hdid
  · rintro v (⟨_, hdid⟩ | ⟨_, _, _, _, _, _, hdid⟩) <;> cases Event.op_of_did hdid
  · rintro ⟨_, _, _, hdid⟩
    cases Event.op_of_did hdid
  · intro _ hdid
    cases hdid
  · intro pre c mid hlast
    obtain ⟨_, _, rfl⟩ := hlast.unique (LastOf.concat h.log ⟨rfl, rfl⟩)
    simp

end operations

/-! ## Section 7: The tool -/

section tool

variable {C : Type} {ρ : C → Type} {body : Nat → (call : C) → Prog Op Op.Reply (ρ call)}
  {owners : Owners} {b key callId : String} {i : Nat} {call : C} {token : Int}

/-- What the tool raises is something it may return. -/
abbrev Fails (b key callId : String) (i : Nat) (error : Raised) : Code.History C → Prop :=
  Answers b key callId i (.error error)

theorem stable_fails (error : Raised) :
    Stable (onceContract owners b key callId) i (Fails (C := C) b key callId i error) :=
  stable_answers (.error error)

theorem read_triple : Code.Triple body (onceContract owners b key callId) i call
    (fun h => Issued b (owners.name i) token h.now ∧ Entering callId i h)
    (Code.ledger (.read b key))
    (fun step h => (step.status = .done → Answers b key callId i (.ok step.value) h) ∧
      (step.status ≠ .done → Issued b (owners.name i) token h.now ∧ Fresh b key callId i h))
    (Fails b key callId i) := by
  refine Code.Triple.ledger (stable_issued.and stable_entering) ?_ (fun step => ?_) stable_fails
  · -- A read that finds the step done has what every settlement committed.
    rintro h x r s hinv ⟨hissued, hentering⟩ _ hperform
    refine ⟨guar_elsewhere _ hinv hperform (.harmless rfl (fun _ _ => by simp [LedgerOp.keys]))
      (Or.inr (by simp [LedgerOp.keys])), ?_⟩
    obtain ⟨rfl, rfl⟩ := Prod.mk.inj hperform
    refine ⟨fun _ pre c mid hlast d hd v hv => ?_, fun hdone => ⟨hissued, ?_⟩⟩
    · obtain ⟨mid', rfl, hlast'⟩ := hlast.of_concat not_called_ledger
      have hcommitted := hinv.committed d (by rw [hlast'.split]; simp [hd]) v hv
      refine ⟨congrArg Except.ok hcommitted.2, fun d' hd' htid => ?_⟩
      rcases List.mem_append.mp hd' with hd' | hd'
      · exact absurd htid (hentering pre c mid' hlast' d' hd')
      · obtain rfl := List.mem_singleton.mp hd'
        rintro ⟨_, _, _, hdid⟩
        cases Event.op_of_did hdid
    · -- One that does not has found nothing settled, so the call is fresh.
      intro pre c mid hlast d hd v hv
      obtain ⟨mid', rfl, hlast'⟩ := hlast.of_concat not_called_ledger
      exact hdone (hinv.committed d (by rw [hlast'.split]; simp [hd]) v hv).1
  · exact (Stable.imp fun _ => stable_answers _).and
      (Stable.imp fun _ => stable_issued.and stable_fresh)

/-- Without leave to repeat, a running effect is left alone. -/
theorem reclaim_triple {store : Store} {branchId : String} {P : Code.History C → Prop}
    {step : Step Record} (hP : Stable (onceContract owners b key callId) i P)
    (hfails : ∀ error h, P h → Fails b key callId i error h) :
    Code.Triple body (onceContract owners b key callId) i call P
      (EffectJournal.reclaim ⟨store, branchId, token, false⟩ key step) (fun _ => P)
      (Fails b key callId i) := by
  unfold EffectJournal.reclaim
  split
  · exact Code.Triple.throw hP fun h _ => hfails _ h
  · exact Code.Triple.pure hP fun _ _ h => h

/-- The state of an invocation that has begun. -/
def Begun (owners : Owners) (b key callId : String) (i : Nat) (token : Int)
    (h : Code.History C) : Prop :=
  Owes b key i h ∧ Running owners b key callId i token (fun _ => True) h ∧ Fresh b key callId i h

theorem begin_triple {store : Store} {branchId : String} (hb : store.name branchId = b) :
    Code.Triple body (onceContract owners b key callId) i call
      (fun h => Issued b (owners.name i) token h.now ∧ Fresh b key callId i h)
      (EffectJournal.begin_ ⟨store, branchId, token, false⟩ key)
      (fun _ => Begun owners b key callId i token) (Fails b key callId i) := by
  subst hb
  -- A start that succeeds leaves this worker running the step under its token.
  have hstart : Code.Triple body (onceContract owners (store.name branchId) key callId) i call
      (fun h => Issued (store.name branchId) (owners.name i) token h.now ∧
        Fresh (store.name branchId) key callId i h)
      (store.start branchId key token)
      (fun began h => Fresh (store.name branchId) key callId i h ∧ (began = true →
        Owes (store.name branchId) key i h ∧
          Running owners (store.name branchId) key callId i token (fun _ => True) h))
      (Fails (store.name branchId) key callId i) := by
    refine Code.Triple.ledger (stable_issued.and stable_fresh) ?_ (fun began => ?_) stable_fails
    · rintro h x r s hinv ⟨hissued, hfresh⟩ _ hperform
      obtain ⟨hguar, hbegun⟩ := start_step call hinv hissued hperform
      have hfresh' := hfresh.extend hguar.log not_called_ledger
      refine ⟨hguar, ?_⟩
      cases r with
      | ok began => exact ⟨hfresh', fun h => hbegun (congrArg Except.ok h)⟩
      | error error => exact hfresh'.answers _
    · exact stable_fresh.and (Stable.imp fun _ =>
        stable_owes.and (stable_running fun _ _ _ => trivial))
  refine Code.Triple.bind stable_fails hstart fun began => ?_
  cases began with
  | true =>
    exact (Code.Triple.pure ((stable_owes.and (stable_running fun _ _ _ => trivial)).and
      stable_fresh) fun _ _ h => ⟨h.1.1, h.1.2, h.2⟩).pre fun _ _ h => ⟨h.2 rfl, h.1⟩
  -- Refused: the step is read only to say in what state it was found.
  | false =>
    have hread : Code.Triple body (onceContract owners (store.name branchId) key callId) i call
        (Fresh (store.name branchId) key callId i) (store.read branchId key)
        (fun _ => Fresh (store.name branchId) key callId i)
        (Fails (store.name branchId) key callId i) := by
      refine Code.Triple.ledger stable_fresh ?_ (fun _ => stable_fresh) stable_fails
      intro h x r s hinv hfresh _ hperform
      refine ⟨guar_elsewhere _ hinv hperform (.harmless rfl (fun _ _ => by simp [LedgerOp.keys]))
        (Or.inr (by simp [LedgerOp.keys])), ?_⟩
      cases r with
      | ok step => exact hfresh.extend rfl not_called_ledger
      | error error => exact (hfresh.extend rfl not_called_ledger).answers _
    refine (Code.Triple.bind stable_fails hread fun current => ?_).pre fun _ _ h => h.1
    exact Code.Triple.throw stable_fresh fun _ _ hfresh => hfresh.answers _

/-- The handler's own event leaves the invocation the running one. -/
theorem Running.handled {R R' : List (Code.Event C) → Prop} {h : Code.History C}
    {toolCall : ToolCall} {args : Json} {r : Except Raised Json}
    (hrunning : Running owners b key callId i token R h)
    (hR : ∀ mid, R mid → R' (mid ++ [⟨i, call, .ext (.handler toolCall args), r, h.now⟩])) :
    Running owners b key callId i token R'
      (Code.next h i call (.ext (.handler toolCall args)) r h.now) := by
  refine hrunning.imp id fun ⟨hholds, hstatus, pre, s, mid, hlast, hs, hcall, hmid⟩ =>
    ⟨hholds, hstatus, pre, s, _, hlast.append ?_, hs, ?_, hR mid hmid⟩
  · intro d hd
    obtain rfl := List.mem_singleton.mp hd
    rintro ⟨_, hdid⟩
    cases Event.op_of_did hdid
  · intro d hd hcalled
    rcases List.mem_append.mp hd with hd | hd
    · exact hcall d hd hcalled
    · obtain rfl := List.mem_singleton.mp hd
      cases Event.op_of_did hcalled.2

theorem handler_triple {toolCall : ToolCall} {args : Json} :
    Code.Triple body (onceContract owners b key callId) i call (Begun owners b key callId i token)
      (Code.ask (.handler toolCall args))
      (fun _ h => Running owners b key callId i token (fun _ => True) h ∧ Fresh b key callId i h)
      (fun error h => Running owners b key callId i token
          (fun mid => error.nothingHappened = true → HasWithdrawn i mid) h ∧
        Fresh b key callId i h) := by
  -- What was withdrawn stays so in a longer log.
  have hcont : ∀ error : Raised, ∀ mid more : List (Code.Event C),
      (error.nothingHappened = true → HasWithdrawn i mid) →
      error.nothingHappened = true → HasWithdrawn i (mid ++ more) := by
    intro error mid more hmid hnothing
    obtain ⟨d, hd, hwithdrew⟩ := hmid hnothing
    exact ⟨d, List.mem_append_left _ hd, hwithdrew⟩
  refine Code.Triple.ask rfl
    (stable_owes.and ((stable_running fun _ _ _ => trivial).and stable_fresh)) ?_
    (fun _ => (stable_running fun _ _ _ => trivial).and stable_fresh)
    (fun error => (stable_running (hcont error)).and stable_fresh)
  rintro h x hinv ⟨howes, hrunning, hfresh⟩ _ r
  have hfresh' : Fresh b key callId i
      (Code.next h i call (.ext (.handler toolCall args)) r h.now) :=
    hfresh.extend rfl fun hcalled => by cases Event.op_of_did hcalled.2
  -- The handler is what the start was owed; the step still runs.
  refine ⟨handler_step hinv howes, ?_⟩
  cases r with
  | ok value => exact ⟨hrunning.handled fun _ _ => trivial, hfresh'⟩
  | error error =>
    refine ⟨hrunning.handled fun mid _ hnothing => ?_, hfresh'⟩
    exact ⟨_, List.mem_append_right _ List.mem_cons_self, rfl, toolCall, args, error, hnothing, rfl⟩

theorem commit_triple {store : Store} {branchId : String} (hb : store.name branchId = b)
    (hzero : token ≠ 0) {record : ToolRecord} {R : List (Code.Event C) → Prop}
    (hR : ∀ mid more, R mid → R (mid ++ more)) :
    Code.Triple body (onceContract owners b key callId) i call
      (fun h => Running owners b key callId i token R h ∧ Fresh b key callId i h)
      (EffectJournal.commit ⟨store, branchId, token, false⟩ key record)
      (fun value => Answers b key callId i (.ok value)) (Fails b key callId i) := by
  subst hb
  refine Code.Triple.bind (Q := fun _ => Fresh (store.name branchId) key callId i) stable_fails ?_
    fun _ => Code.Triple.pure stable_fresh fun _ _ hfresh => hfresh.answers _
  refine Code.Triple.ledger ((stable_running hR).and stable_fresh) ?_ (fun _ => stable_fresh)
    stable_fails
  rintro h x r s hinv ⟨hrunning, hfresh⟩ _ hperform
  refine ⟨finish_step hinv hrunning hzero hperform, ?_⟩
  cases r with
  | ok _ => exact hfresh.extend rfl not_called_ledger
  | error _ => exact (hfresh.extend rfl not_called_ledger).answers _

theorem forget_triple {store : Store} {branchId : String} (hb : store.name branchId = b)
    (hzero : token ≠ 0) :
    Code.Triple body (onceContract owners b key callId) i call
      (fun h => Running owners b key callId i token (HasWithdrawn i) h ∧ Fresh b key callId i h)
      (store.forget branchId key token) (fun _ => Fresh b key callId i)
      (Fails b key callId i) := by
  subst hb
  refine Code.Triple.ledger ((stable_running ?_).and stable_fresh) ?_ (fun _ => stable_fresh)
    stable_fails
  · rintro mid more ⟨d, hd, hwithdrew⟩
    exact ⟨d, List.mem_append_left _ hd, hwithdrew⟩
  · rintro h x r s hinv ⟨hrunning, hfresh⟩ _ hperform
    refine ⟨forget_step hinv hrunning hzero hperform, ?_⟩
    cases r with
    | ok _ => exact hfresh.extend rfl not_called_ledger
    | error _ => exact (hfresh.extend rfl not_called_ledger).answers _

theorem execute_triple {store : Store} {branchId : String} (hb : store.name branchId = b)
    (hzero : token ≠ 0) {toolCall : ToolCall} {args : Json} :
    Code.Triple body (onceContract owners b key callId) i call (Begun owners b key callId i token)
      (EffectJournal.execute ⟨store, branchId, token, false⟩ key
        (Code.ask (.handler toolCall args)))
      (fun value => Answers b key callId i (.ok value)) (Fails b key callId i) := by
  have hcont : ∀ error : Raised, ∀ mid more : List (Code.Event C),
      (error.nothingHappened = true → HasWithdrawn i mid) →
      error.nothingHappened = true → HasWithdrawn i (mid ++ more) := by
    intro error mid more hmid hnothing
    obtain ⟨d, hd, hwithdrew⟩ := hmid hnothing
    exact ⟨d, List.mem_append_left _ hd, hwithdrew⟩
  refine Code.Triple.bind stable_fails (Code.Triple.attempt handler_triple
    (fun _ => (stable_running fun _ _ _ => trivial).and stable_fresh)
    fun error => (stable_running (hcont error)).and stable_fresh) ?_
  rintro (error | value)
  · dsimp only
    split
    · next hnothing =>
      -- The handler says nothing happened: the start is forgotten.
      refine Code.Triple.bind stable_fails ((forget_triple hb hzero).pre ?_) fun _ =>
        Code.Triple.throw stable_fresh fun _ _ hfresh => hfresh.answers _
      exact fun h _ hpre => ⟨hpre.1.imp id fun ⟨hholds, hstatus, pre, s, mid, hlast, hs, hcall, hmid⟩ =>
        ⟨hholds, hstatus, pre, s, mid, hlast, hs, hcall, hmid hnothing⟩, hpre.2⟩
    · split
      · -- A signal of the runtime: nothing is committed.
        exact (Code.Triple.throw stable_fresh fun _ _ hfresh => hfresh.answers _).pre
          fun _ _ h => h.2
      · -- A failure of the tool is a result and is committed as one.
        exact commit_triple hb hzero (hcont error)
  · exact commit_triple hb hzero fun _ _ _ => trivial

/-- **The tool**: it returns what it may, whatever the others do meanwhile. -/
theorem tool_triple {store : Store} {branchId : String} (hb : store.name branchId = b)
    (hkey : stepKey callId = key) (hzero : token ≠ 0) {toolCall : ToolCall} {args : Json} :
    Code.Triple body (onceContract owners b key callId) i call
      (fun h => Issued b (owners.name i) token h.now ∧ Entering callId i h)
      (EffectJournal.tool ⟨store, branchId, token, false⟩ callId
        (Code.ask (.handler toolCall args)))
      (fun value => Answers b key callId i (.ok value)) (Fails b key callId i) := by
  subst hb hkey
  refine Code.Triple.bind stable_fails read_triple fun step => ?_
  split
  · next hdone =>
    refine Code.Triple.pre ?_ fun _ _ h => h.1 hdone
    exact Code.Triple.pure (stable_answers _) fun _ _ h => h
  · next hdone =>
    refine (Code.Triple.bind stable_fails
      (reclaim_triple (stable_issued.and stable_fresh) fun error _ h => h.2.answers _)
      fun _ => Code.Triple.bind stable_fails (begin_triple rfl)
        fun _ => execute_triple rfl hzero).pre fun _ _ h => h.2 hdone

end tool

/-! ## Section 8: Workers -/

section workers

variable {C : Type} {ρ : C → Type} {body : Nat → (call : C) → Prog Op Op.Reply (ρ call)}
  {owners : Owners} {b key callId : String} {i : Nat} {call : C} {token : Int} {tokens : List Int}

/-- The tokens a worker holds are its own. -/
def Tokens (owners : Owners) (b : String) (i : Nat) (tokens : List Int)
    (h : Code.History C) : Prop :=
  ∀ t ∈ tokens, Issued b (owners.name i) t h.now

theorem stable_tokens :
    Stable (onceContract owners b key callId) i (Tokens (C := C) owners b i tokens) :=
  fun _ _ htokens hrely _ t ht => (htokens t ht).rely hrely.lease

/-- An operation that does not release the branch. -/
def NoRelease (b : String) (o : Op) : Prop := ∀ w, o ≠ .ledger (.release b w)

theorem OnceGuar.keepsTokens {h h' : Code.History C} {o : Op} {r : o.Reply}
    (hguar : OnceGuar owners b key callId i call h o r h') (ho : NoRelease b o)
    (htokens : Tokens owners b i tokens h) : Tokens owners b i tokens h' :=
  fun t ht => hguar.issued ho t (htokens t ht)

/-- The tool gives nothing of its token away. -/
theorem tool_noRelease {store : Store} {branchId : String} {toolCall : ToolCall} {args : Json} :
    Code.Only (NoRelease b) (EffectJournal.tool ⟨store, branchId, token, false⟩ callId
      (Code.ask (.handler toolCall args))) := by
  have hcommit : ∀ record, Code.Only (NoRelease b)
      (EffectJournal.commit ⟨store, branchId, token, false⟩ (stepKey callId) record) :=
    fun _ => (Code.only_ledger nofun).bind fun _ => Code.only_pure _
  refine (Code.only_ledger nofun).bind fun step =>
    Code.Only.ite (fun _ => Code.only_pure _) fun _ => Code.Only.bind ?_ fun _ =>
      Code.Only.bind ?_ fun _ => Code.Only.bind (Code.only_ask rfl nofun).attempt ?_
  · exact Code.Only.ite (fun _ => Code.Only.ite (fun _ => Code.only_throw _)
      fun _ => Code.only_ledger nofun) fun _ => Code.only_pure _
  · refine (Code.only_ledger nofun).bind ?_
    rintro (_ | _)
    · exact (Code.only_ledger nofun).bind fun _ => Code.only_throw _
    · exact Code.only_pure _
  · rintro (error | value)
    · exact Code.Only.ite
        (fun _ => (Code.only_ledger nofun).bind fun _ => Code.only_throw _)
        fun _ => Code.Only.ite (fun _ => Code.only_throw _) fun _ => hcommit _
    · exact hcommit _

theorem cancelledAfter_triple {α : Type} {x : Code α} {P : Code.History C → Prop}
    {Q : α → Code.History C → Prop} {E E' : Raised → Code.History C → Prop} (n : Nat)
    (hx : Code.Triple body (onceContract owners b key callId) i call P x Q E)
    (honly : Code.Only (NoRelease b) x)
    (hQ : ∀ a, Stable (onceContract owners b key callId) i (Q a))
    (hE : ∀ e, Stable (onceContract owners b key callId) i (E e)) :
    Code.Triple body (onceContract owners b key callId) i call
      (fun h => P h ∧ Tokens owners b i tokens h) (Code.cancelledAfter n x)
      (fun outcome h => Tokens owners b i tokens h ∧
        (∀ a, outcome = some (.ok a) → Q a h) ∧ ∀ e, outcome = some (.error e) → E e h) E' := by
  refine Pool.Triple.bind (Q := fun outcome h => Tokens owners b i tokens h ∧
    (∀ a, outcome = some (.ok a) → Q a h) ∧ ∀ e, outcome = some (.error e) → E e h) ?_ ?_
  · intro h hinv hpre
    refine (Safe.take (hx h hinv hpre.1) honly stable_tokens
      (fun _ htokens ho hguar => OnceGuar.keepsTokens hguar ho htokens) hpre.2 n).mono ?_
    rintro outcome h _ ⟨htokens, houtcome⟩
    exact ⟨htokens, fun a ha => houtcome _ ha, fun e he => houtcome _ he⟩
  · intro outcome
    have hstable : Stable (onceContract owners b key callId) i
      (Tokens (C := C) owners b i tokens) :=
      stable_tokens
    exact Pool.Triple.pure (hstable.and ((Stable.forall fun a => Stable.imp fun _ => hQ a).and
      (Stable.forall fun e => Stable.imp fun _ => hE e))) fun _ _ h => h

theorem cancelledTool_triple {store : Store} {branchId : String} {toolCall : ToolCall}
    (hzero : token ≠ 0) (args : Json) (n : Nat) :
    Code.Triple body (onceContract owners (store.name branchId) (stepKey toolCall.toolCallId)
        toolCall.toolCallId) i call
      (fun h => (Issued (store.name branchId) (owners.name i) token h.now ∧
        Entering toolCall.toolCallId i h) ∧ Tokens owners (store.name branchId) i tokens h)
      (Code.cancelledAfter n (EffectJournal.tool ⟨store, branchId, token, false⟩
        toolCall.toolCallId (Code.ask (.handler toolCall args))))
      (fun outcome h => Tokens owners (store.name branchId) i tokens h ∧
        ∀ result, outcome = some result → Answers (store.name branchId)
          (stepKey toolCall.toolCallId) toolCall.toolCallId i result h)
      (fun _ _ => True) := by
  refine Code.Triple.mono (cancelledAfter_triple n (tool_triple rfl rfl hzero) tool_noRelease
    (fun _ => stable_answers _) stable_fails) (fun _ _ h => h) ?_ fun _ _ _ h => h
  rintro outcome h _ ⟨htokens, hok, herror⟩
  refine ⟨htokens, fun result hresult => ?_⟩
  cases result with
  | ok value => exact hok value hresult
  | error error => exact herror error hresult

theorem invoke_triple {store : Store} {branchId : String} {toolCall : ToolCall}
    (hmem : token ∈ tokens) (args : Json) (n : Nat) :
    Code.Triple body (onceContract owners (store.name branchId) (stepKey toolCall.toolCallId)
        toolCall.toolCallId) i call (Tokens owners (store.name branchId) i tokens)
      (invokeTool store branchId toolCall token args n)
      (fun _ => Tokens owners (store.name branchId) i tokens) (fun _ _ => True) := by
  refine Code.Triple.bind (fun _ => stable_const)
    (Q := fun _ h => (Issued (store.name branchId) (owners.name i) token h.now ∧
      Entering toolCall.toolCallId i h) ∧ Tokens owners (store.name branchId) i tokens h) ?_ ?_
  · refine Code.Triple.mark stable_tokens ?_ ((stable_issued.and stable_entering).and stable_tokens)
    intro h x hinv htokens _
    obtain ⟨hguar, hentering⟩ := called_step hinv
    exact ⟨hguar, ⟨htokens token hmem, hentering⟩, htokens⟩
  · intro _
    refine Pool.Triple.known (fun h hpre => hpre.1.1.1) fun hzero => ?_
    refine Code.Triple.bind (fun _ => stable_const) (cancelledTool_triple hzero args n) ?_
    rintro (_ | result)
    · exact Code.Triple.pure (stable_tokens.and (Stable.forall fun _ => Stable.imp nofun))
        fun _ _ h => h.1
    · refine Code.Triple.mark (stable_tokens.and (Stable.forall fun r => Stable.imp fun _ =>
        stable_answers r)) ?_ stable_tokens
      rintro h x hinv ⟨htokens, hanswers⟩ _
      exact ⟨returned_step hinv (hanswers result rfl), htokens⟩

/-- A call that gives nothing away and is followed by nothing that depends on it. -/
theorem attempt_triple {op : LedgerOp Record} {P : Code.History C → Prop}
    (hP : Stable (onceContract owners b key callId) i P)
    (hop : ∀ h (x : Env) r s, OnceInv b key callId h → P h →
      op.perform x.now x.later h.now = (r, s) →
      OnceGuar owners b key callId i call h (.ledger op) r (Code.next h i call (.ledger op) r s))
    (hrelease : NoRelease b (.ledger op)) :
    Code.Triple body (onceContract owners b key callId) i call
      (fun h => P h ∧ Tokens owners b i tokens h) (Code.attempt (Code.ledger op))
      (fun _ => Tokens owners b i tokens) (fun _ _ => True) := by
  have hcall : Code.Triple body (onceContract owners b key callId) i call
      (fun h => P h ∧ Tokens owners b i tokens h) (Code.ledger op)
      (fun _ => Tokens owners b i tokens) (fun _ => Tokens owners b i tokens) := by
    refine Code.Triple.ledger (hP.and stable_tokens) ?_ (fun _ => stable_tokens)
      fun _ => stable_tokens
    rintro h x r s hinv ⟨hpre, htokens⟩ _ hperform
    have hguar := hop h x r s hinv hpre hperform
    refine ⟨hguar, ?_⟩
    cases r <;> exact hguar.keepsTokens hrelease htokens
  refine (Code.Triple.attempt hcall (fun _ => stable_tokens) fun _ => stable_tokens).mono
    (fun _ _ h => h) ?_ fun _ _ _ h => h
  rintro (_ | _) h _ htokens <;> exact htokens

end workers

section pool

variable {owners : Owners} {store : Store} {branchId : String} {toolCall : ToolCall}
  {i : Nat}

/-- The acts of a worker, one by one. -/
theorem work_triple {C : Type} {ρ : C → Type} {body : Nat → (call : C) → Prog Op Op.Reply (ρ call)}
    {call : C} (acts : List (Act (store.name branchId) (stepKey toolCall.toolCallId)))
    (tokens : List Int) :
    Code.Triple body (onceContract owners (store.name branchId) (stepKey toolCall.toolCallId)
        toolCall.toolCallId) i call (Tokens owners (store.name branchId) i tokens)
      (work owners store branchId toolCall i acts tokens) (fun _ _ => True) (fun _ _ => True) := by
  -- Induction on what the worker still does; `tokens` are the leases it holds.
  induction acts generalizing tokens with
  | nil => exact Code.Triple.pure stable_tokens fun _ _ _ => trivial
  | cons act acts ih =>
    cases act with
    | acquire ttl =>
      refine Code.Triple.bind (fun _ => stable_const)
        (Q := fun token => Tokens owners (store.name branchId) i
          (if token = 0 then tokens else tokens ++ [token])) ?_ fun token => ih _
      refine Code.Triple.ledger stable_tokens ?_ (fun _ => stable_tokens) fun _ => stable_const
      intro h x r s hinv htokens _ hperform
      have hguar := guar_elsewhere (i := i) call hinv hperform (.lease rfl)
        (Or.inr (by simp [LedgerOp.keys]))
      have hno : NoRelease (store.name branchId)
          (.ledger (.acquire (store.name branchId) (owners.name i) ttl)) := by
        intro w heq
        cases heq
      -- Acquiring takes no token away, and adds the new one unless it is zero.
      have hkept := hguar.keepsTokens hno htokens
      obtain ⟨token, rfl, htoken⟩ := perform_acquire hinv.leases hperform
      refine ⟨hguar, fun t ht => ?_⟩
      by_cases hzero : token = 0
      · rw [if_pos hzero] at ht
        exact hkept t ht
      · rw [if_neg hzero] at ht
        rcases List.mem_append.mp ht with ht | ht
        · exact hkept t ht
        · obtain rfl := List.mem_singleton.mp ht
          exact htoken.resolve_left hzero
    -- After a release no token is counted on.
    | release =>
      refine Code.Triple.bind (fun _ => stable_const)
        (Q := fun _ => Tokens owners (store.name branchId) i []) ?_ fun _ => ih []
      refine Code.Triple.ledger stable_tokens ?_ (fun _ => stable_tokens) fun _ => stable_const
      intro h x r s hinv htokens _ hperform
      refine ⟨guar_elsewhere _ hinv hperform (.lease rfl) (Or.inr (by simp [LedgerOp.keys])), ?_⟩
      cases r with
      | ok _ =>
        intro t ht
        cases ht
      | error _ => trivial
    -- A tool is run under one of the tokens, and may leave the tokens as they are.
    | tool k args n =>
      dsimp only [work]
      cases hk : tokens[k]? with
      | none => exact ih tokens
      | some token =>
        exact Code.Triple.bind (fun _ => stable_const)
          (invoke_triple (List.mem_of_getElem? hk) args n) fun _ => ih tokens
    | resolve k resolution workersStopped =>
      dsimp only [work]
      cases hk : tokens[k]? with
      | none => exact ih tokens
      | some token =>
        have hno : NoRelease (store.name branchId) (.ledger (.resolveEffect (store.name branchId)
            (stepKey toolCall.toolCallId) resolution workersStopped token)) := by
          intro w heq
          cases heq
        refine Code.Triple.bind (fun _ => stable_const) ((attempt_triple stable_issued
          (fun h x r s hinv hissued hperform => resolve_step hinv hissued hperform) hno).pre
            fun h _ htokens => ⟨htokens token (List.mem_of_getElem? hk), htokens⟩)
            fun _ => ih tokens
    -- Anything else touches neither the step nor a lease.
    | other op hop =>
      have hd : ∀ s, Disciplined (store.name branchId) (owners.name i)
          (· = stepKey toolCall.toolCallId) s op := by
        intro s
        rcases hop with hb | ⟨howner, hkey⟩
        · exact .elsewhere hb
        · exact .harmless howner fun _ hkeys => hkeys ▸ hkey
      refine Code.Triple.bind (fun _ => stable_const) ((attempt_triple (stable_const (a := True))
        (fun h x r s hinv _ hperform =>
          guar_elsewhere _ hinv hperform (hd _) (hop.imp id And.right)) ?_).pre
          fun h _ htokens => ⟨trivial, htokens⟩) fun _ => ih tokens
      intro w heq
      rw [Op.ledger.inj heq] at hop
      simp [LedgerOp.branchId, LedgerOp.owner?] at hop

/-- **At most one execution per authority**, for every branch, every tool call and every
    schedule of workers and operators from a fresh ledger. Workers crash anywhere and are
    overtaken anywhere; operators forget, resolve and write as they like. Nothing is asked of the
    tool: whether a handler that was given up has done its work is not known, and no second
    invocation begins before somebody has said so. -/
theorem tool_at_most_once (owners : Owners) (store : Store) (branchId : String)
    (toolCall : ToolCall)
    (schedule : List (Action (List (Act (store.name branchId) (stepKey toolCall.toolCallId))) Env)) :
    AtMostOnce (store.name branchId) (stepKey toolCall.toolCallId) toolCall.toolCallId
      ((workers owners store branchId toolCall).after { hist := ⟨MemorySteps.init, []⟩ }
        schedule).hist.log := by
  have hinit : OnceInv (store.name branchId) (stepKey toolCall.toolCallId) toolCall.toolCallId
      (⟨MemorySteps.init, []⟩ :
        Code.History (List (Act (store.name branchId) (stepKey toolCall.toolCallId)))) := by
    refine ⟨leaseOk_init, ?_, ?_, by simp, ?_, ⟨always_nil, always_nil, always_nil, always_nil⟩⟩
    · intro _ pre s mid hlast
      simpa using hlast.split
    · intro _ _ pre s mid hlast
      simpa using hlast.split
    · intro _ _ hget
      cases hget
  exact (contract_after (K := onceContract owners (store.name branchId)
      (stepKey toolCall.toolCallId) toolCall.toolCallId)
    (fun i acts h hinv _ => (work_triple acts [] h hinv fun t ht => nomatch ht).mono
      fun _ _ _ _ => trivial)
    (poolInv_init hinit) schedule (admissible_of_ok (fun _ _ _ _ _ => trivial) _ _)).inv.once

end pool

end Semora
