import Semora.Agent.Serial
import Semora.Agent.BoundaryOps
import Semora.Agent.Runtime
import Semora.Store.Effects
import Semora.Store.Frame

/-! # What a Fork Copies

    `fork` reads the source's step of every unanswered call, and starts the
    target's; where the source's is done it finishes the target's with the
    same value.

    * Section 1: the workers of the target.
    * Section 2: what a step of the target becomes.
    * Section 3: the copy loop does just that, and raises only what a stale
      token raises. -/

namespace Semora

open Pool MemorySteps

/-- The branch does not know the step's effect, and may start it. -/
def Status.startable : Status → Bool
  | .absent => true
  | .ready => true
  | _ => false

namespace Forking

/-! ## Section 1: Workers -/

/-- A fork, as it is asked for. -/
structure Fork where
  runtime : AgentRuntime
  src : ExecutionContext
  dst : ExecutionContext
  at_ : Option String
  history : Option (List Message)
  regate : Bool

/-- The name the source's branch is filed under. -/
abbrev Fork.source (F : Fork) : String := F.src.filedName

/-- The name the target's branch is filed under. -/
abbrev Fork.target (F : Fork) : String := F.dst.filedName

/-- What a worker of the target is asked. -/
inductive Request where
  /-- To fork: for the first time, or again. -/
  | fork (options : Options) (prompt : Option Json)
  | recover (options : Options) (history : List Message)

/-- What a host passes with a request. -/
def Request.options : Request → Options
  | .fork options _ => options
  | .recover options _ => options

/-- Worker `i` at what it is asked. -/
def serve (owners : Owners) (F : Fork) (i : Nat) : Request → Code Outcome
  | .fork options prompt =>
    F.runtime.fork F.src F.at_ F.dst (owners.name i) options prompt F.history F.regate
  | .recover options history => F.runtime.recover F.dst (owners.name i) options history

/-- The workers of the target. -/
def forks (owners : Owners) (F : Fork) :
    System (MemorySteps Record) Env Op.Reply fun _ : Request => Except Raised Outcome :=
  Code.system fun i request => (serve owners F i request).run

/-! ## Section 2: One step -/

/-- What becomes of the target's step of a call. -/
def forkStep (source target : Step Record) : Step Record :=
  if target.status.startable = false then target
  else
    match source.status with
    | .absent => target
    | .done => { status := .done, value := source.value, version := target.version + 2 }
    | _ => { status := .running, version := target.version + 1 }

theorem forkStep_absent {source : Step Record} (h : source.status = .absent)
    (target : Step Record) : forkStep source target = target := by
  simp [forkStep, h]

theorem forkStep_settled {target : Step Record} (h : target.status.startable = false)
    (source : Step Record) : forkStep source target = target := by
  simp [forkStep, h]

theorem forkStep_done {source target : Step Record} (h : source.status = .done)
    (htarget : target.status.startable = true) : forkStep source target
      = { status := .done, value := source.value, version := target.version + 2 } := by
  simp [forkStep, h, htarget]

theorem forkStep_doubt {source target : Step Record} (h : source.status ≠ .absent)
    (h' : source.status ≠ .done) (htarget : target.status.startable = true) :
    forkStep source target = { status := .running, version := target.version + 1 } := by
  cases hsource : source.status with
  | absent => exact absurd hsource h
  | done => exact absurd hsource h'
  | running => simp [forkStep, hsource, htarget]
  | ready => simp [forkStep, hsource, htarget]

/-- A step the source knows of is nothing the target may start. -/
theorem forkStep_settles {source : Step Record} (h : source.status ≠ .absent)
    (target : Step Record) : (forkStep source target).status.startable = false := by
  cases htarget : target.status.startable with
  | false => rw [forkStep_settled htarget, htarget]
  | true =>
    by_cases hdone : source.status = .done
    · rw [forkStep_done hdone htarget]
      rfl
    · rw [forkStep_doubt h hdone htarget]
      rfl

/-- A target's step that is as the copy leaves it stays so. -/
theorem forkStep_idem (source target : Step Record) :
    forkStep source (forkStep source target) = forkStep source target := by
  by_cases hsource : source.status = .absent
  · rw [forkStep_absent hsource, forkStep_absent hsource]
  · exact forkStep_settled (forkStep_settles hsource target) source

/-- The step of a target's key once these calls are copied, from ledger `t`. -/
def forked (F : Fork) (t : MemorySteps Record) (calls : List ToolCall) (key : String) :
    Step Record :=
  if key ∈ calls.map (fun call => stepKey call.toolCallId) then
    forkStep (t.entry F.source key) (t.entry F.target key)
  else t.entry F.target key

section forked

variable {F : Fork} {t : MemorySteps Record}

/-- One more call. -/
theorem forked_concat (calls : List ToolCall) (call : ToolCall) (key : String) :
    forked F t (calls ++ [call]) key =
      if key = stepKey call.toolCallId then
        forkStep (t.entry F.source key) (forked F t calls key)
      else forked F t calls key := by
  unfold forked
  by_cases hkey : key = stepKey call.toolCallId
  · have hmem : key ∈ (calls ++ [call]).map fun call => stepKey call.toolCallId := by
      simp [hkey]
    rw [if_pos hmem, if_pos hkey]
    split
    · exact (forkStep_idem _ _).symm
    · rfl
  · rw [if_neg hkey]
    simp [hkey]

end forked

/-! ## Section 3: The copy loop -/

/-- Ledger `s` as the copy of these calls leaves it, from ledger `t`. -/
structure Copying (F : Fork) (t : MemorySteps Record) (calls : List ToolCall)
    (s : MemorySteps Record) : Prop where
  source : ∀ key, s.entry F.source key = t.entry F.source key
  target : ∀ key, s.entry F.target key = forked F t calls key

/-- What the copy does to the ledger. -/
inductive CopyOp (F : Fork) (token : Int) (s : MemorySteps Record) : LedgerOp Record → Prop where
  | read (callId : String) : CopyOp F token s (.read F.source (stepKey callId))
  | start (callId : String) (hsource : (s.entry F.source (stepKey callId)).status ≠ .absent) :
      CopyOp F token s (.start F.target (stepKey callId) token)
  | finish (callId : String) (hsource : (s.entry F.source (stepKey callId)).status = .done)
      (htarget : (s.entry F.target (stepKey callId)).status = .running) :
      CopyOp F token s (.finishEffect F.target (stepKey callId)
        (s.entry F.source (stepKey callId)).value token)

section copy

variable {F : Fork} {t s : MemorySteps Record} {calls : List ToolCall} {call : ToolCall}

theorem copying_nil (F : Fork) (t : MemorySteps Record) : Copying F t [] t where
  source _ := rfl
  target _ := by simp [forked]

/-- A call is copied when its step is what it is to be, and everything else is as it was. -/
theorem Copying.concat {s' : MemorySteps Record} (h : Copying F t calls s)
    (hsource : ∀ key, s'.entry F.source key = s.entry F.source key)
    (hothers : ∀ key, key ≠ stepKey call.toolCallId →
      s'.entry F.target key = s.entry F.target key)
    (hhere : s'.entry F.target (stepKey call.toolCallId)
      = forkStep (s.entry F.source (stepKey call.toolCallId))
          (s.entry F.target (stepKey call.toolCallId))) : Copying F t (calls ++ [call]) s' where
  source key := (hsource key).trans (h.source key)
  target key := by
    rw [forked_concat]
    split
    · next hkey =>
      rw [hkey, hhere, h.source, h.target]
    · next hkey =>
      rw [hothers key hkey, h.target]

/-- The call's step is started, and not finished yet. -/
structure Begun (F : Fork) (t : MemorySteps Record) (calls : List ToolCall) (call : ToolCall)
    (s : MemorySteps Record) : Prop where
  source : ∀ key, s.entry F.source key = t.entry F.source key
  others : ∀ key, key ≠ stepKey call.toolCallId → s.entry F.target key = forked F t calls key
  free : (forked F t calls (stepKey call.toolCallId)).status.startable = true
  here : s.entry F.target (stepKey call.toolCallId)
    = { status := .running, version := (forked F t calls (stepKey call.toolCallId)).version + 1 }

/-! The calls of the ledger, by what they find. -/

theorem start_settled {b key : String} {token : Int}
    (h : (s.entry b key).status.startable = false) {r : Except StoreError Bool}
    {s' : MemorySteps Record} (hstart : s.start b key token = (r, s')) :
    (token ≠ 0 ∧ token < s.issued b ∧ s' = s ∧ ∃ e, r = .error e) ∨ (r = .ok false ∧ s' = s) := by
  -- Fenced off, it is an error; else the step is neither absent nor ready, and the answer is
  -- `False`.
  rcases fenced_cases s b token _ with heq | ⟨hzero, hlt, heq⟩
  · refine Or.inr ?_
    unfold start at hstart
    rw [heq] at hstart
    have hstatus : (s.entry b key).status ≠ .absent ∧ (s.entry b key).status ≠ .ready := by
      cases hentry : (s.entry b key).status with
      | absent =>
        rw [hentry] at h
        cases h
      | ready =>
        rw [hentry] at h
        cases h
      | running => exact ⟨nofun, nofun⟩
      | done => exact ⟨nofun, nofun⟩
    rw [if_pos hstatus] at hstart
    obtain ⟨rfl, rfl⟩ := Prod.mk.inj hstart
    exact ⟨rfl, rfl⟩
  · unfold start at hstart
    rw [heq] at hstart
    obtain ⟨rfl, rfl⟩ := Prod.mk.inj hstart
    exact Or.inl ⟨hzero, hlt, rfl, _, rfl⟩

theorem start_free {b key : String} {token : Int}
    (h : (s.entry b key).status.startable = true) {r : Except StoreError Bool}
    {s' : MemorySteps Record} (hstart : s.start b key token = (r, s')) :
    (token ≠ 0 ∧ token < s.issued b ∧ s' = s ∧ ∃ e, r = .error e) ∨ (r = .ok true ∧ s' =
      s.setEntry b key { status := .running, version := (s.entry b key).version + 1 }) := by
  -- Fenced off, it is an error; else the step is absent or ready, and it begins.
  rcases fenced_cases s b token _ with heq | ⟨hzero, hlt, heq⟩
  · refine Or.inr ?_
    unfold start at hstart
    rw [heq] at hstart
    have hstatus : ¬ ((s.entry b key).status ≠ .absent ∧ (s.entry b key).status ≠ .ready) := by
      rintro ⟨habsent, hready⟩
      cases hentry : (s.entry b key).status with
      | absent => exact habsent hentry
      | ready => exact hready hentry
      | running =>
        rw [hentry] at h
        cases h
      | done =>
        rw [hentry] at h
        cases h
    rw [if_neg hstatus] at hstart
    obtain ⟨rfl, rfl⟩ := Prod.mk.inj hstart
    exact ⟨rfl, rfl⟩
  · unfold start at hstart
    rw [heq] at hstart
    obtain ⟨rfl, rfl⟩ := Prod.mk.inj hstart
    exact Or.inl ⟨hzero, hlt, rfl, _, rfl⟩

/-- `acquire` answers a token, and leaves every step as it is; a token it gives out is the
    newest one. -/
theorem acquire_spec {b owner : String} {ttl now later : ℚ} {r : Except StoreError Int}
    {s' : MemorySteps Record}
    (hacquire : (LedgerOp.acquire b owner ttl).perform now later s = (r, s')) :
    ∃ token, r = .ok token ∧ (∀ b' key, s'.entry b' key = s.entry b' key) ∧
      (LeaseOk s → token ≠ 0 → s'.issued b = token) := by
  obtain ⟨rfl, rfl⟩ := Prod.mk.inj hacquire
  refine ⟨_, rfl, fun b' key => ?_, fun hleases hzero => ?_⟩
  · exact perform_entry (.acquire b owner ttl) now later s (Or.inr (by simp [LedgerOp.keys]))
  · rcases @acquire_holds _ b owner s hleases ttl now later with hno | ⟨_, hholds⟩
    · exact absurd hno hzero
    · exact hholds.newest

theorem finish_running {b key : String} {value : Option Record} {token : Int}
    (h : (s.entry b key).status = .running) {r : Except StoreError Unit}
    {s' : MemorySteps Record} (hfinish : s.finishEffect b key value token = (r, s')) :
    (token ≠ 0 ∧ token < s.issued b ∧ s' = s ∧ ∃ e, r = .error e) ∨
      (r = .ok () ∧ s' = s.setEntry b key
      { status := .done, value := value, version := (s.entry b key).version + 1 }) := by
  rcases fenced_cases s b token _ with heq | ⟨hzero, hlt, heq⟩
  · refine Or.inr ?_
    unfold finishEffect at hfinish
    rw [heq] at hfinish
    dsimp only at hfinish
    rw [if_neg (by rw [h]; decide), if_neg (not_not.mpr h)] at hfinish
    obtain ⟨rfl, rfl⟩ := Prod.mk.inj hfinish
    exact ⟨rfl, rfl⟩
  · unfold finishEffect at hfinish
    rw [heq] at hfinish
    obtain ⟨rfl, rfl⟩ := Prod.mk.inj hfinish
    exact Or.inl ⟨hzero, hlt, rfl, _, rfl⟩

end copy

section loop

variable {C : Type} {ρ : C → Type} {body : Nat → (call : C) → Prog Op Op.Reply (ρ call)}
  {I P : Code.History C → Prop} {A : Code.History C → Code.Event C → Prop} {tid : Nat}
  {request : C} {F : Fork} {token : Int} {t : MemorySteps Record}

/-- What the copy does keeps the invariant and `P`. -/
def CopyKeeps (F : Fork) (token : Int) (I : Code.History C → Prop)
    (A : Code.History C → Code.Event C → Prop) (tid : Nat) (request : C)
    (P : Code.History C → Prop) : Prop :=
  ∀ op h r s, I h → P h → CopyOp F token h.now op → A h ⟨tid, request, .ledger op, r, s⟩ →
    (∃ x : Env, op.perform x.now x.later h.now = (r, s)) →
      I (Code.next h tid request (.ledger op) r s) ∧ P (Code.next h tid request (.ledger op) r s)

/-- The token is stale. -/
def Stale (F : Fork) (token : Int) (s : MemorySteps Record) : Prop :=
  token ≠ 0 ∧ token < s.issued F.target

variable (hkeep : CopyKeeps F token I A tid request P)

include hkeep

/-- One call of the copy. -/
theorem copy_operation (op : LedgerOp Record) {R : MemorySteps Record → Prop}
    {Q : op.Reply → MemorySteps Record → Prop} (hop : ∀ s, R s → CopyOp F token s op)
    (hstep : ∀ s now later r s', R s → op.perform now later s = (r, s') →
      match r with
      | .ok a => Q a s'
      | .error _ => Stale F token s') :
    Code.Serial body .none I A tid request (fun h => P h ∧ R h.now) (Code.ledger op)
      (fun a h => P h ∧ Q a h.now) fun _ h => P h ∧ Stale F token h.now := by
  refine Code.Serial.ledger ?_
  rintro last h r s ⟨hP, hR⟩ rfl hinv _ hallowed ⟨x, hperform⟩
  obtain ⟨hI, hP'⟩ := hkeep op _ r s hinv hP (hop _ hR) hallowed ⟨x, hperform⟩
  refine ⟨hI, ?_⟩
  have hpost := hstep _ x.now x.later r s hR hperform
  cases r with
  | ok a => exact ⟨hP', hpost⟩
  | error e => exact ⟨hP', hpost⟩

/-- `start` of a call the source knows of. -/
theorem copy_start (hne : F.source ≠ F.target) {before : List ToolCall} {call : ToolCall}
    (hsource : (t.entry F.source (stepKey call.toolCallId)).status ≠ .absent) :
    Code.Serial body .none I A tid request (fun h => P h ∧ Copying F t before h.now)
      (F.dst.store.start F.dst.branchId (stepKey call.toolCallId) token)
      (fun started h => P h ∧ if started = true then Begun F t before call h.now
        else (forked F t before (stepKey call.toolCallId)).status.startable = false ∧
          Copying F t (before ++ [call]) h.now)
      fun _ h => P h ∧ Stale F token h.now := by
  refine copy_operation hkeep (.start F.target (stepKey call.toolCallId) token)
    (R := Copying F t before) (Q := fun (started : Bool) s =>
      if started = true then Begun F t before call s
      else (forked F t before (stepKey call.toolCallId)).status.startable = false ∧
        Copying F t (before ++ [call]) s) ?_ ?_
  · intro s hcopy
    exact .start call.toolCallId (by rwa [hcopy.source])
  · intro s now later r s' hcopy hperform
    change s.start F.target (stepKey call.toolCallId) token = (r, s') at hperform
    have htarget := hcopy.target (stepKey call.toolCallId)
    -- The target has settled the step: the copy passes it by. Or it is free, and the copy begins
    -- it.
    cases hfree : (s.entry F.target (stepKey call.toolCallId)).status.startable with
    | false =>
      rcases start_settled hfree hperform with ⟨hzero, hlt, rfl, e, rfl⟩ | ⟨rfl, rfl⟩
      · exact ⟨hzero, hlt⟩
      · refine ⟨htarget ▸ hfree, hcopy.concat (fun _ => rfl) (fun _ _ => rfl) ?_⟩
        exact (forkStep_settled hfree _).symm
    | true =>
      rcases start_free hfree hperform with ⟨hzero, hlt, rfl, e, rfl⟩ | ⟨rfl, rfl⟩
      · exact ⟨hzero, hlt⟩
      · refine ⟨?_, ?_, htarget ▸ hfree, ?_⟩
        · intro key
          rw [entry_setEntry, if_neg (by simp [hne]), hcopy.source]
        · intro key hkey
          rw [entry_setEntry_ne _ _ hkey, hcopy.target]
        · rw [entry_setEntry, if_pos ⟨rfl, rfl⟩, ← htarget]

/-- `finish_effect` of a call the source is done with. -/
theorem copy_finish (hne : F.source ≠ F.target) {before : List ToolCall} {call : ToolCall}
    (hsource : (t.entry F.source (stepKey call.toolCallId)).status = .done) :
    Code.Serial body .none I A tid request (fun h => P h ∧ Begun F t before call h.now)
      (F.dst.store.finishEffect F.dst.branchId (stepKey call.toolCallId)
        (t.entry F.source (stepKey call.toolCallId)).value token)
      (fun _ h => P h ∧ Copying F t (before ++ [call]) h.now)
      fun _ h => P h ∧ Stale F token h.now := by
  refine copy_operation hkeep (.finishEffect F.target (stepKey call.toolCallId) _ token)
    (R := Begun F t before call) (Q := fun _ => Copying F t (before ++ [call])) ?_ ?_
  · intro s hbegun
    rw [← hbegun.source]
    refine .finish call.toolCallId ?_ ?_
    · rw [hbegun.source, hsource]
    · rw [hbegun.here]
  · intro s now later r s' hbegun hperform
    change s.finishEffect F.target (stepKey call.toolCallId) _ token = (r, s') at hperform
    -- Refused to a stale token, or the source's value is now the target's.
    rcases finish_running (by rw [hbegun.here]) hperform with
      ⟨hzero, hlt, rfl, e, rfl⟩ | ⟨rfl, rfl⟩
    · exact ⟨hzero, hlt⟩
    · refine ⟨?_, ?_⟩
      · intro key
        rw [entry_setEntry, if_neg (by simp [hne]), hbegun.source]
      · intro key
        rw [forked_concat]
        split
        · next hkey =>
          rw [hkey, entry_setEntry, if_pos ⟨rfl, rfl⟩, forkStep_done hsource hbegun.free,
            hbegun.here]
        · next hkey => rw [entry_setEntry_ne _ _ hkey, hbegun.others key hkey]

/-- The source's step is read, and is what it was when the copy began. -/
theorem copy_read {before : List ToolCall} (call : ToolCall) :
    Code.Serial body .none I A tid request (fun h => P h ∧ Copying F t before h.now)
      (F.src.store.read F.src.branchId (stepKey call.toolCallId))
      (fun record h => P h ∧ (record = t.entry F.source (stepKey call.toolCallId) ∧
        Copying F t before h.now))
      fun _ h => P h ∧ Stale F token h.now := by
  refine copy_operation hkeep (.read F.source (stepKey call.toolCallId))
    (R := Copying F t before) (Q := fun (record : Step Record) s =>
      record = t.entry F.source (stepKey call.toolCallId) ∧ Copying F t before s) ?_ ?_
  · exact fun s _ => .read call.toolCallId
  · intro s now later r s' hcopy hperform
    change (Except.ok (s.read F.source (stepKey call.toolCallId)), s) = (r, s') at hperform
    obtain ⟨rfl, rfl⟩ := Prod.mk.inj hperform
    exact ⟨hcopy.source _, hcopy⟩

omit hkeep in
/-- A call the source has begun and not finished stays running on the target. -/
theorem Begun.concat {before : List ToolCall} {call : ToolCall} {s : MemorySteps Record}
    (h : Begun F t before call s)
    (habsent : (t.entry F.source (stepKey call.toolCallId)).status ≠ .absent)
    (hdone : (t.entry F.source (stepKey call.toolCallId)).status ≠ .done) :
    Copying F t (before ++ [call]) s where
  source := h.source
  target key := by
    rw [forked_concat]
    split
    · next hkey => rw [hkey, h.here, forkStep_doubt habsent hdone h.free]
    · next hkey => exact h.others key hkey

/-- What the loop returns: it names each call that the source is done with and that was free on
    the target. -/
def NamesCopied (F : Fork) (t : MemorySteps Record) (before calls : List ToolCall)
    (copied : List String) : Prop :=
  ∀ call ∈ calls, (t.entry F.source (stepKey call.toolCallId)).status = .done →
    (forked F t before (stepKey call.toolCallId)).status.startable = true →
      call.toolCallId ∈ copied

omit hkeep in
/-- The rest of the loop names the rest of the calls; the call before them may have the id of one
    of them, and is then asked about itself. -/
theorem NamesCopied.cons {before calls : List ToolCall} {call : ToolCall} {copied : List String}
    (h : NamesCopied F t (before ++ [call]) calls copied)
    (hhere : (t.entry F.source (stepKey call.toolCallId)).status = .done →
      (forked F t before (stepKey call.toolCallId)).status.startable = true →
        call.toolCallId ∈ copied) : NamesCopied F t before (call :: calls) copied := by
  intro call' hmem hdone hfree
  by_cases hkey : call'.toolCallId = call.toolCallId
  · rw [hkey] at hdone hfree ⊢
    exact hhere hdone hfree
  · rcases List.mem_cons.mp hmem with rfl | hmem
    · exact absurd rfl hkey
    · refine h call' hmem hdone ?_
      rw [forked_concat, if_neg fun heq => hkey (stepKey_inj heq)]
      exact hfree

omit hkeep in
/-- **The copy loop**: every call's step becomes what it is to be, and nothing else changes. -/
theorem copySteps_serial (body : Nat → (call : C) → Prog Op Op.Reply (ρ call))
    (hkeep : CopyKeeps F token I A tid request P) (hne : F.source ≠ F.target)
    (before calls : List ToolCall) :
    Code.Serial body .none I A tid request (fun h => P h ∧ Copying F t before h.now)
      (AgentRuntime.copySteps F.src F.dst token calls)
      (fun copied h => P h ∧ Copying F t (before ++ calls) h.now ∧
        NamesCopied F t before calls copied)
      fun _ h => P h ∧ Stale F token h.now := by
  -- along the calls; what holds of the ledgers says how far the copy has come
  induction calls generalizing before with
  | nil =>
    refine Code.Serial.pure ?_
    rintro h ⟨hP, hcopy⟩
    exact ⟨hP, by simpa using hcopy, fun call hmem => by cases hmem⟩
  | cons call calls ih =>
    have hrest := ih (before ++ [call])
    have hlist : before ++ [call] ++ calls = before ++ call :: calls := by simp
    rw [hlist] at hrest
    unfold AgentRuntime.copySteps
    refine (copy_read hkeep call).bind fun record => ?_
    refine Code.Serial.known (a := record = t.entry F.source (stepKey call.toolCallId))
      (fun h hpre => hpre.2.1) fun hrecord => ?_
    subst hrecord
    refine Code.Serial.ite (fun habsent => ?_) fun habsent => ?_
    · -- the source knows nothing of it
      refine hrest.mono ?_ ?_ fun _ _ hpost => hpost
      · rintro h ⟨hP, _, hcopy⟩
        refine ⟨hP, hcopy.concat (fun _ => rfl) (fun _ _ => rfl) ?_⟩
        rw [hcopy.source, forkStep_absent habsent]
      · rintro copied h ⟨hP, hcopy, hcopied⟩
        refine ⟨hP, hcopy, hcopied.cons fun hdone => ?_⟩
        rw [habsent] at hdone
        cases hdone
    refine ((copy_start hkeep hne habsent).pre fun h hpre => ⟨hpre.1, hpre.2.2⟩).bind
      fun started => ?_
    cases started with
    | false =>
      -- the target has made it, or is making it
      refine Code.Serial.known
        (a := (forked F t before (stepKey call.toolCallId)).status.startable = false)
        (fun h hpre => hpre.2.1) fun hsettled => ?_
      refine hrest.mono ?_ ?_ fun _ _ hpost => hpost
      · rintro h ⟨hP, _, hcopy⟩
        exact ⟨hP, hcopy⟩
      · rintro copied h ⟨hP, hcopy, hcopied⟩
        refine ⟨hP, hcopy, hcopied.cons fun _ hfree => ?_⟩
        rw [hsettled] at hfree
        cases hfree
    | true =>
      refine Code.Serial.ite (fun hstarted => absurd rfl hstarted) fun _ => ?_
      refine Code.Serial.ite (fun hdone => ?_) fun hdone => ?_
      · -- its result is recorded on the target as well
        refine ((copy_finish hkeep hne hdone).pre fun h hpre => hpre).bind fun _ => ?_
        refine hrest.bind fun copied => Code.Serial.pure ?_
        rintro h ⟨hP, hcopy, hcopied⟩
        have hmore : NamesCopied F t (before ++ [call]) calls (call.toolCallId :: copied) :=
          fun call' hmem hdone' hfree => List.mem_cons_of_mem _ (hcopied call' hmem hdone' hfree)
        exact ⟨hP, hcopy, hmore.cons fun _ _ => List.mem_cons_self⟩
      · -- it is left running there, in doubt
        refine hrest.mono ?_ ?_ fun _ _ hpost => hpost
        · exact fun h hpre => ⟨hpre.1, Begun.concat hpre.2 habsent hdone⟩
        · rintro copied h ⟨hP, hcopy, hcopied⟩
          exact ⟨hP, hcopy, hcopied.cons fun hdone' => absurd hdone' hdone⟩

end loop

end Forking

end Semora
