import Semora.Framework.Machine
import Semora.Store.PostgresSteps

/-! # Fencing in PostgresSteps

    `_fence` reads the lease row with a plain select and the guarded write
    follows in the same transaction. A plain select takes no lock, so between
    the two statements another worker's `acquire` can run and commit.

    The main result says that this window is all there is: over every schedule
    of statements, a guarded write commits behind a takeover if and only if
    some takeover commits between its fence statement and its commit. -/

namespace Semora

open ReadCommitted PostgresSteps

section fence

variable {V : Type}

/-! ## Section 1: Statement -/

/-- What may happen to a ledger and the workers using it. -/
abbrev PgEvent (V : Type) := Event (PgRow V) PgError fun call : PgCall V => call.op.Reply

/-- The branch and token of a call that must not write behind a takeover. Token zero
    presents no lease. -/
def PgOp.guard : PgOp V → Option (String × Int)
  | .start b _ t => some (b, t)
  | .finishEffect b _ _ t => some (b, t)
  | .resolveEffect b _ _ _ t => some (b, t)
  | .writeControl b _ _ t => some (b, t)
  | .forget b _ t => some (b, t)
  | .claimInput b _ t => some (b, t)
  | .commitTransition b _ t => some (b, t)
  | _ => none

/-- What a reply of `acquire` grants; zero is contention. -/
def granted (b : String) (token : Int) : Option (String × Int) :=
  if token = 0 then none else some (b, token)

/-- The committed acquisition an event is: its branch and the token it returned. -/
def grantOf : PgEvent V → Option (String × Int)
  | .committed _ ⟨.acquire b _ _, _⟩ token _ => granted b token
  | _ => none

/-- The committed effect of a guarded call an event is: the transaction, its branch and
    the token it presented. -/
def writeOf : PgEvent V → Option (Nat × String × Int)
  | .committed tid call _ true =>
    match call.op.guard with
    | some (b, t) => if t = 0 then none else some (tid, b, t)
    | none => none
  | _ => none

/-- The fence statement an event is: the transaction and the branch. -/
def fenceOf : PgEvent V → Option (Nat × String)
  | .ran tid (.select (.lease b)) _ => some (tid, b)
  | _ => none

/-- No guarded write is committed after a higher token was handed out. -/
def FencedWrites (log : List (PgEvent V)) : Prop :=
  ∀ (i j tid : Nat) (b : String) (t t' : Int), i < j → log[i]?.bind grantOf = some (b, t') →
    log[j]?.bind writeOf = some (tid, b, t) → t' ≤ t

/-- A higher token is handed out between the fence statement of a transaction and the
    commit of its write. -/
def TakeoverInWindow (log : List (PgEvent V)) : Prop :=
  ∃ (f i j tid : Nat) (b : String) (t t' : Int), f < i ∧ i < j ∧
    log[f]?.bind fenceOf = some (tid, b) ∧
    log[i]?.bind grantOf = some (b, t') ∧ log[j]?.bind writeOf = some (tid, b, t) ∧ t < t'

/-- The world after a schedule, from a fresh schema. -/
def PgWorld.after [BEq V] (schedule : List (Action (PgCall V))) : PgWorld V :=
  World.after PgCall.body PgWorld.init schedule

/-! ## Section 2: Tokens never fall -/

/-- Lease rows only change to rows with at least their token. -/
def TokenRises : (k : PgKey) → PgRow V k → PgRow V k → Prop
  | .lease _, old, new => old.token ≤ new.token
  | _, _, _ => True

theorem tokenRises_refl (k : PgKey) (r : PgRow V k) : TokenRises k r r := by
  cases k with
  | lease b => exact Int.le_refl _
  | step b key => trivial
  | decision b d => trivial
  | input b i => trivial

theorem tokenRises_trans (k : PgKey) (r₁ r₂ r₃ : PgRow V k) (h₁ : TokenRises k r₁ r₂)
    (h₂ : TokenRises k r₂ r₃) : TokenRises k r₁ r₃ := by
  cases k with
  | lease b => exact Int.le_trans h₁ h₂
  | step b key => trivial
  | decision b d => trivial
  | input b i => trivial

theorem takeover_rises {owner : String} {ttl now : ℚ} {old new : LeaseRow}
    (h : PostgresSteps.takeover owner ttl now old = some new) : old.token ≤ new.token := by
  unfold PostgresSteps.takeover at h
  split at h
  · obtain rfl := Option.some.inj h
    dsimp only
    split <;> omega
  · cases h

theorem keeps_fence (b : String) (t : Int) :
    (PostgresSteps.fence b t : PgTxn V Unit).All (Sql.Keeps TokenRises) := by
  unfold PostgresSteps.fence
  split
  · exact Txn.all_pure _
  · refine Txn.all_bind (Txn.all_exec trivial) fun row => ?_
    split
    · exact Txn.all_throw _
    · exact Txn.all_pure _

theorem keeps_completeEffect [BEq V] (b key : String) (value : Option V) (expected : Expected) :
    (PostgresSteps.completeEffect b key value expected).All (Sql.Keeps TokenRises) := by
  unfold PostgresSteps.completeEffect
  refine Txn.all_bind ?_ fun completed => ?_
  · cases expected with
    | absent =>
      exact Txn.all_bind (Txn.all_exec fun _ _ _ => trivial) fun _ => Txn.all_pure _
    | running =>
      exact Txn.all_bind (Txn.all_exec fun _ _ _ => trivial) fun _ => Txn.all_pure _
  · split
    · exact Txn.all_pure _
    · refine Txn.all_bind (Txn.all_exec trivial) fun row => ?_
      split
      · split
        · split
          · exact Txn.all_pure _
          · exact Txn.all_throw _
        · exact Txn.all_throw _
      · exact Txn.all_throw _

theorem keeps_applyResolution [BEq V] (b key : String) (resolution : EffectResolution V)
    (payload : ResolutionPayload V) :
    (PostgresSteps.applyResolution b key resolution payload).All (Sql.Keeps TokenRises) := by
  unfold PostgresSteps.applyResolution
  refine Txn.all_bind (Txn.all_exec trivial) fun row => ?_
  split
  · exact Txn.all_throw _
  · refine Txn.all_bind (Txn.all_exec trivial) fun previous => ?_
    split
    · split
      · exact Txn.all_throw _
      · exact Txn.all_pure _
    · split
      · exact Txn.all_throw _
      · refine Txn.all_bind (Txn.all_exec fun _ _ _ => trivial) fun _ => ?_
        refine Txn.all_bind (Txn.all_exec trivial) fun inserted => ?_
        split
        · exact Txn.all_throw _
        · exact Txn.all_pure _

theorem keeps_setControl (b key : String) (value : Option V) :
    (PostgresSteps.setControl b key value).All (Sql.Keeps TokenRises) :=
  Txn.all_bind (Txn.all_exec fun _ _ _ => trivial) fun _ => Txn.all_pure _

theorem keeps_setInputStatus (b inputId : String) (status : InputStatus)
    (allowed : InputStatus → Bool) :
    (PostgresSteps.setInputStatus b inputId status allowed : PgTxn V Unit).All
      (Sql.Keeps TokenRises) :=
  Txn.all_bind (Txn.all_exec fun _ _ _ => trivial) fun _ => Txn.all_pure _

theorem keeps_insertInputs (b : String) (inputs : List (String × V)) :
    (PostgresSteps.insertInputs b inputs).All (Sql.Keeps TokenRises) := by
  induction inputs with
  | nil => exact Txn.all_pure _
  | cons item rest ih =>
    refine Txn.all_bind (Txn.all_bind (Txn.all_exec trivial) fun _ => Txn.all_pure _) fun _ => ?_
    exact Txn.all_bind ih fun _ => Txn.all_pure _

theorem keeps_applyTransition [BEq V] (b : String) (transition : ExecutionTransition V) :
    (PostgresSteps.applyTransition b transition).All (Sql.Keeps TokenRises) := by
  unfold PostgresSteps.applyTransition
  split
  · exact Txn.all_throw _
  · split
    · exact Txn.all_throw _
    · refine Txn.all_bind (Txn.all_forM (fun _ => keeps_completeEffect ..) _) fun _ => ?_
      refine Txn.all_bind (Txn.all_forM (fun _ => keeps_setControl ..) _) fun _ => ?_
      exact keeps_insertInputs b transition.inputs

/-- **No method lowers a token.** -/
theorem keeps_body [BEq V] (call : PgCall V) : call.body.All (Sql.Keeps TokenRises) := by
  obtain ⟨op, now⟩ := call
  -- One case a method: only `acquire` writes a token, and never a smaller one.
  cases op with
  | read b key =>
    refine Txn.all_bind (Txn.all_exec trivial) fun row => ?_
    split
    · exact Txn.all_pure _
    · split <;> exact Txn.all_pure _
  | start b key token =>
    refine Txn.all_bind (keeps_fence b token) fun _ => ?_
    exact Txn.all_bind (Txn.all_exec fun _ _ _ => trivial) fun _ => Txn.all_pure _
  | finishEffect b key value token =>
    exact Txn.all_bind (keeps_fence b token) fun _ => keeps_completeEffect ..
  | resolveEffect b key resolution workersStopped token =>
    change (PostgresSteps.resolveEffect b key resolution workersStopped token).All _
    unfold PostgresSteps.resolveEffect
    split
    · exact Txn.all_throw _
    · exact Txn.all_bind (keeps_fence b token) fun _ => keeps_applyResolution ..
  | writeControl b key value token =>
    exact Txn.all_bind (keeps_fence b token) fun _ => keeps_setControl ..
  | forget b key token =>
    refine Txn.all_bind (keeps_fence b token) fun _ => ?_
    exact Txn.all_bind (Txn.all_exec fun _ _ _ => trivial) fun _ => Txn.all_pure _
  | acquire b owner ttl =>
    refine Txn.all_bind (Txn.all_exec fun old new h => takeover_rises h) fun row => ?_
    split <;> exact Txn.all_pure _
  | release b owner =>
    refine Txn.all_bind (Txn.all_exec ?_) fun _ => Txn.all_pure _
    -- A release keeps the token it finds.
    intro old new h
    dsimp only at h
    split at h
    · obtain rfl := Option.some.inj h
      exact Int.le_refl _
    · cases h
  | enqueueInput b inputId value =>
    exact Txn.all_bind (Txn.all_exec trivial) fun _ => Txn.all_pure _
  | claimInput b inputId token =>
    exact Txn.all_bind (keeps_fence b token) fun _ => keeps_setInputStatus ..
  | admitInputs b inputIds token =>
    change (PostgresSteps.admitInputs b inputIds token).All _
    unfold PostgresSteps.admitInputs
    split
    · exact Txn.all_pure _
    · refine Txn.all_bind (keeps_fence b token) fun _ => ?_
      exact Txn.all_forM (fun _ => keeps_setInputStatus ..) inputIds
  | discardInputs b inputIds token =>
    change (PostgresSteps.discardInputs b inputIds token).All _
    unfold PostgresSteps.discardInputs
    split
    · exact Txn.all_pure _
    · refine Txn.all_bind (keeps_fence b token) fun _ => ?_
      exact Txn.all_forM (fun _ => keeps_setInputStatus ..) inputIds
  | commitTransition b transition token =>
    exact Txn.all_bind (keeps_fence b token) fun _ => keeps_applyTransition ..

/-! ## Section 3: Guarded calls read the lease first -/

/-- What a fenced transaction is: a read of the lease, and the rest if the token is not stale. -/
theorem fence_bind {α : Type} (b : String) {t : Int} (ht : t ≠ 0) (f : Unit → PgTxn V α) :
    (PostgresSteps.fence b t >>= f).run
      = .perform (.select (.lease b)) fun row =>
          if t < issuedIn row then .pure (.error (.store (.fenced b t (issuedIn row))))
          else (f ()).run := by
  unfold PostgresSteps.fence
  rw [if_neg ht]
  refine congrArg (Prog.perform (.select (.lease b) : Sql (PgRow V))) (funext fun row => ?_)
  change Prog.bind (Prog.bind (.pure (.ok row)) (ExceptT.bindCont _)) (ExceptT.bindCont f) = _
  simp only [Prog.bind, ExceptT.bindCont]
  split <;> rfl

/-- **Every guarded call begins with the fence statement**, or has nothing to commit. -/
theorem guard_fences [BEq V] {call : PgCall V} {b : String} {t : Int}
    (h : call.op.guard = some (b, t)) (ht : t ≠ 0) :
    (∃ e, call.body.run = .pure (.error e)) ∨
    ∃ next, call.body.run = .perform (.select (.lease b)) next ∧
      ∀ row, t < issuedIn row → ∃ e, next row = .pure (.error e) := by
  -- A fenced body selects the lease first, and raises if what it reads is newer.
  have fenced : ∀ {α : Type} (f : Unit → PgTxn V α), ∃ next,
      (PostgresSteps.fence b t >>= f).run = .perform (.select (.lease b)) next ∧
      ∀ row, t < issuedIn row → ∃ e, next row = .pure (.error e) := by
    intro α f
    exact ⟨_, fence_bind b ht f, fun row hstale => ⟨_, if_pos hstale⟩⟩
  obtain ⟨op, now⟩ := call
  cases op with
  | read b' key => cases h
  | acquire b' owner ttl => cases h
  | release b' owner => cases h
  | enqueueInput b' inputId value => cases h
  | admitInputs b' inputIds token => cases h
  | discardInputs b' inputIds token => cases h
  | start b' key token =>
    cases h
    exact Or.inr (fenced _)
  | finishEffect b' key value token =>
    cases h
    exact Or.inr (fenced _)
  | resolveEffect b' key resolution workersStopped token =>
    cases h
    -- The resolution is checked before the fence, and may raise there.
    cases hpayload : resolutionPayload key resolution workersStopped with
    | error e =>
      refine Or.inl ⟨.store e, ?_⟩
      simp only [PgCall.body, PgOp.perform, PostgresSteps.resolveEffect, hpayload]
      rfl
    | ok payload =>
      refine Or.inr ?_
      simp only [PgCall.body, PgOp.perform, PostgresSteps.resolveEffect, hpayload]
      exact fenced _
  | writeControl b' key value token =>
    cases h
    exact Or.inr (fenced _)
  | forget b' key token =>
    cases h
    exact Or.inr (fenced _)
  | claimInput b' inputId token =>
    cases h
    exact Or.inr (fenced _)
  | commitTransition b' transition token =>
    cases h
    exact Or.inr (fenced _)

/-! ## Section 4: What the log says about the tokens -/

/-- A token is covered when the lease row has it or a higher one. -/
def Covered (db : Database (PgRow V)) (b : String) (t : Int) : Prop :=
  ∃ row : LeaseRow, db (.lease b) = some row ∧ t ≤ row.token

/-- A fence statement read at least the tokens handed out before it. -/
def ReadsNewest (before : List (PgEvent V)) (e : PgEvent V) : Prop :=
  ∀ tid b reply, e = .ran tid (.select (.lease b)) reply →
    ∀ a ∈ before, ∀ t, grantOf a = some (b, t) → t ≤ issuedIn reply

/-- A guarded write comes after a fence statement that let its token pass. -/
def WritesAfterFence (before : List (PgEvent V)) (e : PgEvent V) : Prop :=
  ∀ tid b t, writeOf e = some (tid, b, t) →
    ∃ reply, .ran tid (.select (.lease b)) reply ∈ before ∧ issuedIn reply ≤ t

/-- The invariant of the fence. -/
structure FenceInv [BEq V] (w : PgWorld V) : Prop where
  rows : World.AboveInv PgCall.body TokenRises w
  covered : ∀ a ∈ w.log, ∀ b t, grantOf a = some (b, t) → Covered w.db b t
  reads : Always ReadsNewest w.log
  writes : Always WritesAfterFence w.log

theorem fenceInv_init [BEq V] : FenceInv (PgWorld.init : PgWorld V) where
  rows := ⟨World.sessionInv_init (fun _ => rfl) rfl, fun _ _ _ _ _ h => nomatch h⟩
  covered _ ha := nomatch ha
  reads := always_nil
  writes := always_nil

/-- A covered token is at most what a transaction reads in the lease row. -/
theorem issuedIn_sees [BEq V] {w : PgWorld V} (hrows : World.AboveInv PgCall.body TokenRises w)
    {tid : Nat} {s : Session (PgRow V) PgError fun call : PgCall V => call.op.Reply}
    (hs : w.sessions tid = some s) {b : String} {t : Int} (h : Covered w.db b t) :
    t ≤ issuedIn (s.sees w.db (.lease b)) := by
  obtain ⟨row, hrow, ht⟩ := h
  cases hmine : s.writes (.lease b) with
  | none =>
    have hsees : s.sees w.db (.lease b) = some row := by
      simp [Session.sees, hmine, hrow]
    rw [hsees]
    exact ht
  | some mine =>
    have hsees : s.sees w.db (.lease b) = some mine := by
      simp [Session.sees, hmine]
    have hrise : TokenRises (.lease b) row mine := hrows.above tid s _ row mine hs hmine hrow
    rw [hsees]
    exact Int.le_trans ht hrise

/-- A committed acquisition has put its token into the lease row. -/
theorem grant_covered [BEq V] {w : PgWorld V} (hinv : FenceInv w) {tid : Nat}
    {s : Session (PgRow V) PgError fun call : PgCall V => call.op.Reply}
    (hs : w.sessions tid = some s) {result : s.call.op.Reply}
    (hrest : s.rest = .pure (.ok result)) {b : String} {t : Int}
    (h : grantOf (.committed tid s.call result s.wrote) = some (b, t)) :
    Covered (w.merged s) b t := by
  have hpath := (hinv.rows.ok tid s hs).path
  have hwrites := (hinv.rows.ok tid s hs).writes
  rw [hrest] at hpath
  obtain ⟨⟨op, now⟩, rest, writes, wrote, locks⟩ := s
  -- Only `acquire` grants anything.
  cases op with
  | acquire b' owner ttl =>
    rcases hpath.head rfl with ⟨_, heq⟩ | ⟨row, tail, hdone, hpath⟩
    · cases heq
    · obtain ⟨rfl, hresult⟩ := hpath.of_pure (a := .ok (issuedIn row)) (by cases row <;> rfl)
      obtain rfl : issuedIn row = result := by
        injection hresult with hresult
        injection hresult with hresult
        exact hresult.symm
      dsimp only [grantOf, granted] at h
      split at h
      · cases h
      · -- A token other than zero is read back from the row this session has written.
        next hne =>
        obtain ⟨rfl, rfl⟩ : b' = b ∧ issuedIn row = t := by simpa using h
        cases row with
        | none => exact absurd rfl hne
        | some row =>
          refine ⟨row, ?_, Int.le_refl _⟩
          have hmine : writes (.lease b') = some row := by
            dsimp only at hwrites
            rw [hwrites, hdone]
            exact World.written_singleton rfl rfl
          exact congrArg (fun r => r.or (w.db (.lease b'))) hmine
  | read b' key => cases h
  | start b' key token => cases h
  | finishEffect b' key value token => cases h
  | resolveEffect b' key resolution workersStopped token => cases h
  | writeControl b' key value token => cases h
  | forget b' key token => cases h
  | release b' owner => cases h
  | enqueueInput b' inputId value => cases h
  | claimInput b' inputId token => cases h
  | admitInputs b' inputIds token => cases h
  | discardInputs b' inputIds token => cases h
  | commitTransition b' transition token => cases h

/-- A guarded call about to commit has passed its fence. -/
theorem write_after_fence [BEq V] {w : PgWorld V} (hinv : FenceInv w) {tid : Nat}
    {s : Session (PgRow V) PgError fun call : PgCall V => call.op.Reply}
    (hs : w.sessions tid = some s) {result : s.call.op.Reply}
    (hrest : s.rest = .pure (.ok result)) :
    WritesAfterFence w.log (.committed tid s.call result s.wrote) := by
  intro tid' b t h
  obtain ⟨rfl, hguard, ht⟩ : tid = tid' ∧ s.call.op.guard = some (b, t) ∧ t ≠ 0 := by
    cases hw : s.wrote with
    | false => simp [hw, writeOf] at h
    | true =>
      simp only [hw, writeOf] at h
      split at h
      · next b' t' hguard =>
        split at h
        · cases h
        · next hne =>
          cases h
          exact ⟨rfl, hguard, hne⟩
      · cases h
  -- A session that committed a write ran its body to the end, the fence first.
  have hpath := (hinv.rows.ok tid s hs).path
  rw [hrest] at hpath
  rcases guard_fences hguard ht with ⟨e, hraise⟩ | ⟨next, hbody, hstale⟩
  · have := (hpath.of_pure hraise).2
    cases this
  · rcases hpath.head hbody with ⟨_, heq⟩ | ⟨reply, tail, hdone, htail⟩
    · rw [hbody] at heq
      cases heq
    · refine ⟨reply, ?_, ?_⟩
      · -- The fence is among the session's statements in the log.
        have hmem : (⟨.select (.lease b), reply⟩ : World.Exchange (PgRow V))
            ∈ World.exchanges w.log tid := by
          rw [hdone]
          exact List.mem_cons_self
        obtain ⟨e, he, hmatch⟩ := List.mem_filterMap.mp hmem
        cases e with
        | ran other stmt r =>
          dsimp only at hmatch
          split at hmatch
          · next heq =>
            subst heq
            cases hmatch
            exact he
          · cases hmatch
        | committed other call r wrote => cases hmatch
        | raised other call e => cases hmatch
      · -- Had it read a newer token the session would have raised.
        by_contra hlt
        obtain ⟨e, hnext⟩ := hstale reply (by omega)
        have := (htail.of_pure hnext).2
        cases this

/-- **Every action keeps the invariant of the fence.** -/
theorem fenceInv_act [BEq V] {w w' : PgWorld V} {a : Action (PgCall V)} (hinv : FenceInv w)
    (hact : w.act PgCall.body a = some w') : FenceInv w' := by
  obtain ⟨hrows, hrises⟩ := World.monotone (R := TokenRises) tokenRises_refl tokenRises_trans
    keeps_body hinv.rows hact
  -- Tokens in the table only rise, so a grant once covered stays covered.
  have hcovered : ∀ b t, Covered w.db b t → Covered w'.db b t := by
    rintro b t ⟨row, hrow, ht⟩
    obtain ⟨new, hnew, hle⟩ := hrises (.lease b) row hrow
    exact ⟨new, hnew, Int.le_trans ht hle⟩
  obtain ⟨call, rfl, rfl⟩ | ⟨tid, s, stmt, next, e, rfl, hs, hrest, hwait, he, rfl⟩ |
    ⟨tid, s, result, rfl, hs, hrest, rfl⟩ | ⟨tid, s, error, rfl, hs, hrest, rfl⟩ |
    ⟨tid, rfl, rfl⟩ := World.act_cases hact
  · exact ⟨hrows, hinv.covered, hinv.reads, hinv.writes⟩
  · -- A statement ran: a fence reads at least the newest token granted.
    refine ⟨hrows, ?_, always_concat.mpr ⟨hinv.reads, ?_⟩, always_concat.mpr ⟨hinv.writes, ?_⟩⟩
    · intro a ha b t hgrant
      rcases List.mem_append.mp ha with ha | ha
      · exact hinv.covered a ha b t hgrant
      · rw [List.mem_singleton.mp ha] at hgrant
        cases hgrant
    · intro tid' b reply heq a ha t hgrant
      cases heq
      have hreply : e.reply = s.sees w.db (.lease b) := by
        rw [← he]
        rfl
      rw [hreply]
      exact issuedIn_sees hinv.rows hs (hinv.covered a ha b t hgrant)
    · intro tid' b t hwrite
      cases hwrite
  · -- A session committed: what it grants is now in the table, and what it wrote came after its
    -- fence.
    refine ⟨hrows, ?_, always_concat.mpr ⟨hinv.reads, ?_⟩,
      always_concat.mpr ⟨hinv.writes, write_after_fence hinv hs hrest⟩⟩
    · intro a ha b t hgrant
      rcases List.mem_append.mp ha with ha | ha
      · exact hcovered b t (hinv.covered a ha b t hgrant)
      · rw [List.mem_singleton.mp ha] at hgrant
        exact grant_covered hinv hs hrest hgrant
    · intro tid' b reply heq
      cases heq
  · -- A session raised: it grants and writes nothing.
    refine ⟨hrows, ?_, always_concat.mpr ⟨hinv.reads, ?_⟩, always_concat.mpr ⟨hinv.writes, ?_⟩⟩
    · intro a ha b t hgrant
      rcases List.mem_append.mp ha with ha | ha
      · exact hinv.covered a ha b t hgrant
      · rw [List.mem_singleton.mp ha] at hgrant
        cases hgrant
    · intro tid' b reply heq
      cases heq
    · intro tid' b t hwrite
      cases hwrite
  · exact ⟨hrows, hinv.covered, hinv.reads, hinv.writes⟩

/-! ## Section 5: The window is all there is -/

/-- A log that keeps to the fence has late writes only behind a takeover in the window. -/
theorem fencedWrites_of_no_window {log : List (PgEvent V)} (hreads : Always ReadsNewest log)
    (hwrites : Always WritesAfterFence log) (h : ¬ TakeoverInWindow log) : FencedWrites log := by
  intro i j tid b t t' hij hgrant hwrite
  obtain ⟨a, ha, hgrant⟩ := Option.bind_eq_some_iff.mp hgrant
  obtain ⟨e, he, hwrite⟩ := Option.bind_eq_some_iff.mp hwrite
  -- The write at `j` came after a fence statement, at `f`.
  obtain ⟨reply, hmem, hpassed⟩ := hwrites j e he tid b t hwrite
  obtain ⟨f, hf⟩ := List.mem_iff_getElem?.mp hmem
  have hfj : f < j := by
    have := (List.getElem?_eq_some_iff.mp hf).1
    simp only [List.length_take] at this
    omega
  rw [List.getElem?_take_of_lt hfj] at hf
  by_contra hlt
  by_cases hfi : f < i
  · -- the fence statement came first: the acquisition is in the window
    refine h ⟨f, i, j, tid, b, t, t', hfi, hij, ?_, ?_, ?_, by omega⟩
    · rw [hf]
      rfl
    · rw [ha]
      exact hgrant
    · rw [he]
      exact hwrite
  · -- the acquisition came first: the fence statement has read its token
    have hne : i ≠ f := by
      rintro rfl
      rw [hf] at ha
      cases ha
      cases hgrant
    have hmem : a ∈ log.take f := by
      refine List.mem_iff_getElem?.mpr ⟨i, ?_⟩
      rw [List.getElem?_take_of_lt (by omega)]
      exact ha
    have hread := hreads f _ hf tid b reply rfl a hmem t' hgrant
    omega

/-- **The fence of `PostgresSteps` holds except in its window.** Over every schedule of
    transactions and their statements, no guarded write is committed after a higher
    token was handed out, if and only if no higher token is handed out between the
    fence statement of a transaction and the commit of its write. -/
theorem fenced_writes_iff_no_takeover_in_window [BEq V] (schedule : List (Action (PgCall V))) :
    FencedWrites (PgWorld.after schedule).log
      ↔ ¬ TakeoverInWindow (PgWorld.after schedule).log := by
  constructor
  · rintro hfenced ⟨f, i, j, tid, b, t, t', _, hij, _, hgrant, hwrite, hlt⟩
    have := hfenced i j tid b t t' hij hgrant hwrite
    omega
  · intro h
    have hinv : FenceInv (PgWorld.after schedule) :=
      World.after_invariant (fun _ _ _ hinv hact => fenceInv_act hinv hact) fenceInv_init schedule
    exact fencedWrites_of_no_window hinv.reads hinv.writes h

/-- Worker `w1` has passed its fence with token 1 when `w2` takes the branch over with
    token 2; the effect of `w1` is committed all the same. -/
def overtaken : List (Action (PgCall Nat)) :=
  [.begin ⟨.acquire "b" "w1" 60, 0⟩, .run 0, .finish 0,
   .begin ⟨.start "b" "tool:a" 1, 1⟩, .run 1,
   .begin ⟨.acquire "b" "w2" 60, 61⟩, .run 2, .finish 2,
   .run 1, .finish 1]

theorem write_committed_behind_takeover :
    ¬ ∀ schedule : List (Action (PgCall Nat)), FencedWrites (PgWorld.after schedule).log := by
  intro h
  have hle := h overtaken 4 6 1 "b" 1 2 (by decide) (by decide +kernel) (by decide +kernel)
  exact absurd hle (by decide)

end fence

end Semora
