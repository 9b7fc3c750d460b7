import Semora.Store.Effects
import Semora.Store.StoresRelated

/-! # Two Ledgers, Call by Call

    Every method keeps the relation of the two ledgers, and returns the same
    from both. Both check the same things in the same order up to the
    exception they raise, so the two raise together, with one exception: an
    empty list of inputs is turned back before the fence by the one and behind
    it by the other, and is admitted or discarded by neither. -/

namespace Semora

open ReadCommitted MemorySteps

section operations

variable {V : Type} {s : MemorySteps V} {t : Tables (PgRow V)} {clock : ℚ}

/-! ## Section 1: A call of both -/

/-- A call of the one ledger, and the transaction of the other: what they leave is related, and
    what they return is the same. -/
structure Simulates {α β : Type} (clock : ℚ) (same : α → β → Prop) (t : Tables (PgRow V))
    (r : StoreOutcome V α) (x : PgTxn V β) : Prop where
  related : LedgerRel clock r.2 (x.alone t).2
  reply : ∀ a b, r.1 = .ok a → (x.alone t).1 = .ok b → same a b

namespace Simulates

variable {α β : Type} {same : α → β → Prop} {x : PgTxn V β}

theorem ok {s' : MemorySteps V} {t' : Tables (PgRow V)} {a : α} {b : β}
    (hx : x.eval t = (.ok b, t')) (h : LedgerRel clock s' t') (hsame : same a b) :
    Simulates clock same t (.ok a, s') x where
  related := by
    rw [Txn.alone_of_ok hx]
    exact h
  reply a' b' ha hb := by
    rw [Txn.alone_of_ok hx] at hb
    obtain rfl := Except.ok.inj ha
    obtain rfl := Except.ok.inj hb
    exact hsame

/-- Both raise, and nothing is left of the transaction. -/
theorem error {t' : Tables (PgRow V)} {e : StoreError} {e' : PgError}
    (hx : x.eval t = (.error e', t')) (h : LedgerRel clock s t) :
    Simulates clock same t (.error e, s) x where
  related := by
    have hserial : t.serial ≤ t'.serial := by
      have hle := Txn.serial_le_eval x t
      rwa [hx] at hle
    rw [Txn.alone_of_error hx]
    exact h.serial hserial
  reply _ _ ha := by cases ha

/-- Only the one raises, and neither does anything. -/
theorem nothing {e : StoreError} {b : β} (hx : x.eval t = (.ok b, t)) (h : LedgerRel clock s t) :
    Simulates clock same t (.error e, s) x where
  related := by
    rw [Txn.alone_of_ok hx]
    exact h
  reply _ _ ha := by cases ha

/-- Both fences let the same tokens pass. -/
theorem fenced (h : LedgerRel clock s t) (b : String) (token : Int) {rest : StoreOutcome V α}
    (hrest : Simulates clock same t rest x) :
    Simulates clock same t (s.fenced b token rest)
      (PostgresSteps.fence b token >>= fun _ => x) := by
  have heval : (PostgresSteps.fence b token >>= fun _ => x).eval t = _ :=
    Txn.eval_bind (PostgresSteps.fence b token) (fun _ => x) t
  rw [PostgresSteps.eval_fence, ← h.leases.issued b] at heval
  unfold MemorySteps.fenced MemorySteps.fence
  by_cases hstale : token ≠ 0 ∧ token < s.issued b
  · rw [if_pos hstale] at heval ⊢
    exact error heval h
  · rw [if_neg hstale] at heval ⊢
    have halone : (PostgresSteps.fence b token >>= fun _ => x).alone t = x.alone t := by
      unfold Txn.alone
      rw [heval]
    refine ⟨?_, fun a b' ha hb => ?_⟩
    · rw [halone]
      exact hrest.related
    · rw [halone] at hb
      exact hrest.reply a b' ha hb

end Simulates

/-! ## Section 2: Steps -/

theorem read_simulates (h : LedgerRel clock s t) (b key : String) :
    Simulates clock SameStep t (.ok (s.read b key), s) (PostgresSteps.read b key) :=
  .ok (PostgresSteps.eval_read b key) h (h.steps b key).sameStep

theorem start_simulates (h : LedgerRel clock s t) (b key : String) (token : Int) :
    Simulates clock Eq t (s.start b key token) (PostgresSteps.start b key token) := by
  unfold MemorySteps.start PostgresSteps.start
  refine .fenced h b token ?_
  have hstep := h.steps b key
  have heval := Txn.eval_bind_of_ok (Txn.eval_upsert (ε := PgError) (PgKey.step b key)
    ({ status := .running } : StepRow V) (fun row =>
      if row.status = .absent ∨ row.status = .ready then
        some { status := .running, version := row.version + 1 }
      else none) t) fun row => pure row.isSome
  -- No row stands for an absent step, and starting makes one.
  cases hrow : t.rows (.step b key) with
  | none =>
    rw [hrow] at hstep heval
    rw [show s.entry b key = { status := .absent } from hstep]
    exact .ok heval (h.setStep ⟨rfl, rfl, rfl, fun _ => rfl⟩) rfl
  | some row =>
    rw [hrow] at hstep heval
    obtain ⟨hstatus, hvalue, hversion, hnone⟩ := hstep
    dsimp only [Option.elim] at heval ⊢
    rw [hstatus]
    -- The statement's `where` is the dictionary's test: the row is written, or left.
    by_cases hfree : row.status = .absent ∨ row.status = .ready
    · rw [if_neg (by rcases hfree with hfree | hfree <;> simp [hfree])]
      rw [if_pos hfree] at heval
      refine .ok heval (h.setStep ⟨rfl, rfl, ?_, fun _ => rfl⟩) rfl
      show ((s.entry b key).version + 1 : Int) = row.version + 1
      rw [hversion]
    · rw [if_pos (not_or.mp hfree)]
      rw [if_neg hfree] at heval
      exact .ok heval h rfl

/-! ### Completed effects -/

theorem StepRel.status {step : Step V} {row : Option (StepRow V)} (h : StepRel step row) :
    PostgresSteps.rowStatus row = step.status := by
  cases row with
  | none =>
    obtain rfl : step = { status := .absent } := h
    rfl
  | some row => exact h.1.symm

theorem StepRel.version {step : Step V} {row : Option (StepRow V)} (h : StepRel step row) :
    PostgresSteps.rowVersion row = step.version := by
  cases row with
  | none =>
    obtain rfl : step = { status := .absent } := h
    rfl
  | some row => exact h.2.2.1.symm

/-- What `_complete_effect` does, told by the step of the other ledger: nothing when the same
    result is there, an error when another is there or the step is not as expected, and otherwise
    the row of the completed step. -/
theorem completeEffect_eval [BEq V] (h : LedgerRel clock s t) (b key : String) (value : Option V)
    (expected : Expected) :
    let record := s.entry b key
    let r := (PostgresSteps.completeEffect b key value expected).eval t
    if record.status = .done then
      if record.value == value then r = (.ok (), t) else ∃ e, r = (.error e, t)
    else if record.status ≠ expected.status then ∃ e, r = (.error e, t)
    else ∃ row, StepRel ⟨.done, value, record.version + 1⟩ (some row) ∧
      r = (.ok (), t.write (.step b key) row) := by
  intro record r
  have hstep : StepRel record (t.rows (.step b key)) := h.steps b key
  have hcompleted := PostgresSteps.eval_completeRow (t := t) b key value expected
  rw [hstep.status, hstep.version] at hcompleted
  -- The update finds its row exactly when the step is in the expected status.
  by_cases hexpected : record.status = expected.status
  · have hopen : record.status ≠ .done := by
      rw [hexpected]
      cases expected <;> decide
    rw [if_neg hopen, if_neg (not_not.mpr hexpected)]
    rw [if_pos hexpected] at hcompleted
    refine ⟨_, ⟨rfl, rfl, ?_, fun hne => absurd rfl hne⟩, Txn.eval_bind_of_ok hcompleted _⟩
    exact Nat.cast_succ record.version
  · -- It found none: the row is read back, and only the same value under `done` is let pass.
    rw [if_neg hexpected] at hcompleted
    have hr : r = _ := Txn.eval_bind_of_ok hcompleted _
    rw [if_neg (by decide), Txn.eval_bind_of_ok (Txn.eval_select ..)] at hr
    rw [if_pos hexpected]
    cases hrow : t.rows (.step b key) with
    | none =>
      rw [hrow] at hstep hr
      have habsent : record.status ≠ .done := by
        rw [← hstep.status]
        exact Status.noConfusion
      rw [if_neg habsent]
      exact ⟨_, hr⟩
    | some row =>
      rw [hrow] at hstep hr
      obtain ⟨hstatus, hvalue, _, _⟩ := hstep
      dsimp only at hr
      rw [← hstatus, ← hvalue] at hr
      by_cases hdone : record.status = .done
      · rw [if_pos hdone] at hr ⊢
        by_cases hsame : record.value == value
        · rw [if_pos hsame] at hr ⊢
          exact hr
        · rw [if_neg hsame] at hr ⊢
          exact ⟨_, hr⟩
      · rw [if_neg hdone] at hr ⊢
        exact ⟨_, hr⟩

theorem finishEffect_simulates [BEq V] (h : LedgerRel clock s t) (b key : String)
    (value : Option V) (token : Int) :
    Simulates clock (fun _ _ => True) t (s.finishEffect b key value token)
      (PostgresSteps.finishEffect b key value token) := by
  unfold MemorySteps.finishEffect PostgresSteps.finishEffect
  refine .fenced h b token ?_
  have heval := completeEffect_eval h b key value .running
  dsimp only at heval ⊢
  -- Both stores ask first whether it is done, then whether it runs.
  by_cases hdone : (s.entry b key).status = .done
  · rw [if_pos hdone] at heval ⊢
    by_cases hsame : (s.entry b key).value == value
    · rw [if_pos hsame] at heval ⊢
      exact .ok heval h trivial
    · rw [if_neg hsame] at heval ⊢
      obtain ⟨e, heval⟩ := heval
      exact .error heval h
  · rw [if_neg hdone] at heval ⊢
    by_cases hrunning : (s.entry b key).status = .running
    · rw [if_neg (not_not.mpr hrunning)]
      rw [if_neg (show ¬ (s.entry b key).status ≠ Expected.running.status from
        not_not.mpr hrunning)] at heval
      obtain ⟨row, hrow, heval⟩ := heval
      exact .ok heval (h.setStep hrow) trivial
    · rw [if_pos hrunning]
      rw [if_pos (show (s.entry b key).status ≠ Expected.running.status from hrunning)] at heval
      obtain ⟨e, heval⟩ := heval
      exact .error heval h

/-! ### Control state, and intent that is forgotten -/

theorem setControl_eval (h : LedgerRel clock s t) (b key : String) (value : Option V) :
    ∃ row, StepRel ⟨.done, value, (s.entry b key).version + 1⟩ (some row) ∧
      (PostgresSteps.setControl b key value).eval t = (.ok (), t.write (.step b key) row) := by
  have hstep := h.steps b key
  refine ⟨{ status := .done, value := value,
            version := PostgresSteps.rowVersion (t.rows (.step b key)) + 1 }, ?_, ?_⟩
  · refine ⟨rfl, rfl, ?_, fun hne => absurd rfl hne⟩
    rw [hstep.version]
    exact Nat.cast_succ _
  · refine (Txn.eval_bind_of_ok (Txn.eval_upsert ..) _).trans ?_
    cases t.rows (.step b key) <;> rfl

theorem writeControl_simulates (h : LedgerRel clock s t) (b key : String) (value : Option V)
    (token : Int) :
    Simulates clock (fun _ _ => True) t (s.writeControl b key value token)
      (PostgresSteps.writeControl b key value token) := by
  refine .fenced h b token ?_
  obtain ⟨row, hrow, heval⟩ := setControl_eval h b key value
  exact .ok heval (h.setStep hrow) trivial

theorem forget_simulates (h : LedgerRel clock s t) (b key : String) (token : Int) :
    Simulates clock (fun _ _ => True) t (s.forget b key token)
      (PostgresSteps.forget b key token) := by
  refine .fenced h b token ?_
  have hstep := h.steps b key
  have heval := Txn.eval_update (ε := PgError) (PgKey.step b key)
    (fun row : StepRow V => if row.status = .running then
      some { status := .absent, version := row.version + 1 } else none) t
  dsimp only
  cases hrow : t.rows (.step b key) with
  | none =>
    rw [hrow] at hstep heval
    rw [show s.entry b key = { status := .absent } from hstep]
    exact .ok (Txn.eval_bind_of_ok heval _) h trivial
  | some row =>
    rw [hrow] at hstep heval
    obtain ⟨hstatus, hvalue, hversion, hnone⟩ := hstep
    dsimp only [Option.bind] at heval
    rw [hstatus]
    -- Only a running step is forgotten, and its version goes up.
    by_cases hrunning : row.status = .running
    · rw [if_pos hrunning] at heval ⊢
      refine .ok (Txn.eval_bind_of_ok heval _) (h.setStep ⟨rfl, rfl, ?_, fun _ => rfl⟩) trivial
      rw [Nat.cast_succ, hversion]
    · rw [if_neg hrunning] at heval ⊢
      exact .ok (Txn.eval_bind_of_ok heval _) h trivial

/-! ## Section 3: Decisions -/

theorem fenced_raises {α : Type} (b : String) (token : Int) (e : StoreError) :
    ∃ e', s.fenced b token ((.error e, s) : StoreOutcome V α) = (.error e', s) := by
  unfold MemorySteps.fenced
  split
  · exact ⟨_, rfl⟩
  · exact ⟨e, rfl⟩

/-- The row an accepted decision leaves. -/
def resolvedRow (resolution : EffectResolution V) (version : Int) : StepRow V where
  status := match resolution.action with
    | .complete => .done
    | .retry => .ready
  value := match resolution.action with
    | .complete => resolution.value
    | .retry => none
  version := version + 1

theorem stepRel_resolved (resolution : EffectResolution V) (version : Nat) :
    StepRel (resolved resolution version) (some (resolvedRow resolution version)) := by
  unfold resolved resolvedRow
  cases resolution.action with
  | complete => exact ⟨rfl, rfl, Nat.cast_succ version, fun hne => absurd rfl hne⟩
  | retry => exact ⟨rfl, rfl, Nat.cast_succ version, fun _ => rfl⟩

theorem ResolutionPayload.key_of_beq [BEq V] {p q : ResolutionPayload V} (h : (p == q) = true) :
    p.key = q.key := by
  obtain ⟨key, action, version, reason, value, provider⟩ := p
  obtain ⟨key', action', version', reason', value', provider'⟩ := q
  have hkey : (key == key') = true := by
    simp only [BEq.beq] at h
    simp only [instBEqResolutionPayload.beq, Bool.and_eq_true] at h
    exact h.1
  exact beq_iff_eq.mp hkey

/-- An open step whose decision is new is settled: its row is updated, and the decision
    inserted. -/
theorem eval_applyResolution_settled [BEq V] {t : Tables (PgRow V)} {b key : String}
    {resolution : EffectResolution V} {row : StepRow V} (payload : ResolutionPayload V)
    (hrow : t.rows (.step b key) = some row)
    (hprevious : t.rows (.decision b resolution.decisionId) = none)
    (hcurrent : ¬ (row.status ≠ .running ∨ row.version ≠ resolution.expectedVersion)) :
    (PostgresSteps.applyResolution b key resolution payload).eval t
      = (.ok { status := (resolvedRow resolution row.version).status
               value := (resolvedRow resolution row.version).value
               version := (resolvedRow resolution row.version).version },
          (t.write (.step b key) (resolvedRow resolution row.version)).write
            (.decision b resolution.decisionId) { key := key, payload := payload }) := by
  -- The reads pass: the row is the one expected, and the decision is new.
  have heval : (PostgresSteps.applyResolution b key resolution payload).eval t = _ :=
    Txn.eval_bind_of_ok (Txn.eval_selectForUpdate ..) _
  rw [hrow] at heval
  have heval := heval.trans (Txn.eval_bind_of_ok (Txn.eval_select ..) _)
  rw [hprevious] at heval
  dsimp only at heval
  rw [if_neg hcurrent] at heval
  -- Then the two writes.
  have hupdate : (PostgresSteps.exec (.update (.step b key) fun row =>
      some (resolvedRow resolution row.version)) : PgTxn V _).eval t
        = (.ok (some (resolvedRow resolution row.version)),
            t.write (.step b key) (resolvedRow resolution row.version)) := by
    rw [Txn.eval_update, hrow]
    rfl
  have hinsert : (PostgresSteps.exec (.insert (.decision b resolution.decisionId)
      { key := key, payload := payload }) : PgTxn V _).eval
        (t.write (.step b key) (resolvedRow resolution row.version))
        = (.ok (some { key := key, payload := payload }),
            (t.write (.step b key) (resolvedRow resolution row.version)).write
              (.decision b resolution.decisionId) { key := key, payload := payload }) := by
    rw [Txn.eval_insert, Tables.rows_write_ne _ _ (by simp), hprevious]
    rfl
  exact heval.trans ((Txn.eval_bind_of_ok hupdate _).trans (Txn.eval_bind_of_ok hinsert _))

/-- A decision that is recorded is filed with its key, and the step it is about is known. -/
theorem LedgerRel.recorded (h : LedgerRel clock s t) {b id : String}
    {previous : ResolutionPayload V}
    (hprevious : s.decisions.get? (b, id) = some previous) :
    ∃ row, t.rows (.decision b id) = some row ∧ row.payload = previous ∧
      row.key = previous.key ∧ t.rows (.step b previous.key) ≠ none := by
  have hdecision := h.decisions.same b id
  rw [hprevious] at hdecision
  obtain ⟨row, hrow, hpayload⟩ := Option.map_eq_some_iff.mp hdecision.symm
  obtain ⟨hsame, hknown⟩ := h.decisions.known b id row hrow
  rw [hpayload] at hsame
  rw [hsame] at hknown
  exact ⟨row, hrow, hpayload, hsame, hknown⟩

theorem LedgerRel.unrecorded (h : LedgerRel clock s t) {b id : String}
    (hnone : s.decisions.get? (b, id) = none) : t.rows (.decision b id) = none := by
  have hdecision := h.decisions.same b id
  rw [hnone] at hdecision
  exact Option.map_eq_none_iff.mp hdecision.symm

section resolution

variable [BEq V] {b key : String} {resolution : EffectResolution V} {payload : ResolutionPayload V}

/-- The decision was recorded: both answer with the step as it is. -/
theorem recorded_simulates (h : LedgerRel clock s t) (hkey : payload.key = key)
    {previous : ResolutionPayload V}
    (hprevious : s.decisions.get? (b, resolution.decisionId) = some previous)
    (hsame : (previous == payload) = true) :
    Simulates clock SameStep t (.ok (s.read b key), s)
      (PostgresSteps.applyResolution b key resolution payload) := by
  obtain ⟨filed, hfiled, rfl, hfkey, hknown⟩ := h.recorded hprevious
  have hpk : filed.payload.key = key := (ResolutionPayload.key_of_beq hsame).trans hkey
  rw [hpk] at hknown hfkey
  obtain ⟨row, hrow⟩ := Option.ne_none_iff_exists'.mp hknown
  have hstep := h.steps b key
  have heval : (PostgresSteps.applyResolution b key resolution payload).eval t = _ :=
    Txn.eval_bind_of_ok (Txn.eval_selectForUpdate ..) _
  rw [hrow] at hstep heval
  obtain ⟨hstatus, hvalue, hversion, -⟩ := hstep
  have heval := heval.trans (Txn.eval_bind_of_ok (Txn.eval_select ..) _)
  rw [hfiled] at heval
  dsimp only at heval
  rw [if_neg (by simp [hfkey, bne, hsame])] at heval
  exact .ok heval h ⟨hstatus, hvalue, hversion⟩

/-- The id was used for another decision: both raise. -/
theorem misused_simulates (h : LedgerRel clock s t) {previous : ResolutionPayload V}
    (hprevious : s.decisions.get? (b, resolution.decisionId) = some previous)
    (hother : (previous == payload) = false) (e : StoreError) :
    Simulates clock SameStep t (.error e, s)
      (PostgresSteps.applyResolution b key resolution payload) := by
  obtain ⟨filed, hfiled, rfl, -, -⟩ := h.recorded hprevious
  have heval : (PostgresSteps.applyResolution b key resolution payload).eval t = _ :=
    Txn.eval_bind_of_ok (Txn.eval_selectForUpdate ..) _
  cases hrow : t.rows (.step b key) with
  | none =>
    rw [hrow] at heval
    exact .error heval h
  | some row =>
    rw [hrow] at heval
    have heval := heval.trans (Txn.eval_bind_of_ok (Txn.eval_select ..) _)
    rw [hfiled] at heval
    dsimp only at heval
    rw [if_pos (Or.inr (by simp [bne, hother]))] at heval
    exact .error heval h

/-- The step is not the one the decision is about: both raise. -/
theorem stale_simulates (h : LedgerRel clock s t)
    (hnone : s.decisions.get? (b, resolution.decisionId) = none)
    (hstale : (s.entry b key).status ≠ .running ∨
      ((s.entry b key).version : Int) ≠ resolution.expectedVersion) (e : StoreError) :
    Simulates clock SameStep t (.error e, s)
      (PostgresSteps.applyResolution b key resolution payload) := by
  have hstep := h.steps b key
  have heval : (PostgresSteps.applyResolution b key resolution payload).eval t = _ :=
    Txn.eval_bind_of_ok (Txn.eval_selectForUpdate ..) _
  cases hrow : t.rows (.step b key) with
  | none =>
    rw [hrow] at heval
    exact .error heval h
  | some row =>
    rw [hrow] at hstep heval
    obtain ⟨hstatus, -, hversion, -⟩ := hstep
    have heval := heval.trans (Txn.eval_bind_of_ok (Txn.eval_select ..) _)
    rw [h.unrecorded hnone] at heval
    dsimp only at heval
    rw [hstatus, hversion] at hstale
    rw [if_pos hstale] at heval
    exact .error heval h

/-- The decision settles the step: both leave it alike, and have the decision recorded. -/
theorem settled_simulates (h : LedgerRel clock s t) (hkey : payload.key = key)
    (hnone : s.decisions.get? (b, resolution.decisionId) = none)
    (hcurrent : ¬ ((s.entry b key).status ≠ .running ∨
      ((s.entry b key).version : Int) ≠ resolution.expectedVersion)) :
    let updated := resolved resolution (s.entry b key).version
    let s' := { s.setEntry b key updated with
      decisions := s.decisions.set (b, resolution.decisionId) payload }
    Simulates clock SameStep t (.ok (s'.read b key), s')
      (PostgresSteps.applyResolution b key resolution payload) := by
  intro updated s'
  have hstep := h.steps b key
  cases hrow : t.rows (.step b key) with
  | none =>
    -- a step that is not known does not run
    rw [hrow] at hstep
    have habsent : s.entry b key = { status := .absent } := hstep
    exact absurd (Or.inl (by simp [habsent])) hcurrent
  | some row =>
    rw [hrow] at hstep
    obtain ⟨hstatus, -, hversion, -⟩ := hstep
    rw [hstatus, hversion] at hcurrent
    have hsettled := eval_applyResolution_settled payload hrow (h.unrecorded hnone) hcurrent
    -- What the resolution makes of the step is the same on both sides.
    have hresolved : StepRel updated (some (resolvedRow resolution row.version)) := by
      rw [← hversion]
      exact stepRel_resolved resolution _
    have hafter : LedgerRel clock (s.setEntry b key updated)
        (t.write (.step b key) (resolvedRow resolution row.version)) := h.setStep hresolved
    -- The decision refers to a row that is there.
    have hthere : (t.write (.step b key) (resolvedRow resolution row.version)).rows
        (.step b payload.key) ≠ none := by
      rw [hkey, Tables.rows_write_self]
      exact Option.some_ne_none _
    have hboth := hafter.setDecision resolution.decisionId hthere
    rw [hkey] at hboth
    refine .ok hsettled hboth ?_
    show SameStep ((s.setEntry b key updated).entry b key) _
    rw [entry_setEntry_self]
    exact ⟨hresolved.1, hresolved.2.1, hresolved.2.2.1⟩

end resolution

theorem resolveEffect_simulates [BEq V] (h : LedgerRel clock s t) (b key : String)
    (resolution : EffectResolution V) (workersStopped : Bool) (token : Int) :
    Simulates clock SameStep t (s.resolveEffect b key resolution workersStopped token)
      (PostgresSteps.resolveEffect b key resolution workersStopped token) := by
  unfold MemorySteps.resolveEffect PostgresSteps.resolveEffect
  cases hpayload : resolutionPayload key resolution workersStopped with
  | error e =>
    -- the fields are checked before the fence by the one, and behind it by the other
    obtain ⟨e', hraises⟩ := fenced_raises (s := s) (α := Step V) b token e
    dsimp only
    rw [hraises]
    exact .error (Txn.eval_throw ..) h
  | ok payload =>
    refine .fenced h b token ?_
    have hkey : payload.key = key := by rw [resolutionPayload_ok hpayload]
    dsimp only
    -- Both look for the decision first, and only for a new one at the step.
    cases hprevious : s.decisions.get? (b, resolution.decisionId) with
    | some previous =>
      dsimp only
      by_cases hsame : (previous == payload) = true
      · rw [if_neg (by simp [bne, hsame])]
        exact recorded_simulates h hkey hprevious hsame
      · rw [if_pos (by simp [bne, hsame])]
        exact misused_simulates h hprevious (Bool.eq_false_iff.mpr hsame) _
    | none =>
      dsimp only
      by_cases hstale : (s.entry b key).status ≠ .running ∨
          ((s.entry b key).version : Int) ≠ resolution.expectedVersion
      · rw [if_pos hstale]
        exact stale_simulates h hprevious hstale _
      · rw [if_neg hstale]
        exact settled_simulates h hkey hprevious hstale

/-! ## Section 4: Leases -/

/-- Both ledgers give a held lease away at the same readings of the clock, but for the instant at
    which it expires. -/
theorem LeaseRel.expired {now : ℚ} {held : Lease} {row : LeaseRow}
    (h : LeaseRel clock (some held) (some row)) (hclock : clock ≤ now) (hpositive : 0 < now)
    (hoff : row.expiresAt ≠ now) : held.expires ≤ now ↔ row.expiresAt < now := by
  obtain ⟨_, _, hexpires | ⟨hpast, hzero⟩⟩ := h
  · rw [hexpires]
    exact ⟨fun hle => lt_of_le_of_ne hle hoff, le_of_lt⟩
  · rw [hzero]
    exact ⟨fun _ => hpositive, fun _ => le_trans hpast hclock⟩

/-- A lease is granted with the next token, in both ledgers. -/
theorem LedgerRel.grant (h : LedgerRel clock s t) (b owner : String) (expires : ℚ) :
    LedgerRel clock
      { s with
        tokens := s.tokens.set b (s.issued b + 1)
        leases := s.leases.set b ⟨owner, s.issued b + 1, expires⟩ }
      (t.write (.lease b) { owner := owner, token := s.issued b + 1, expiresAt := expires }) := by
  refine h.setLease _ ⟨rfl, rfl, Or.inl rfl⟩ fun b' => ?_
  rw [Dict.getD_set]
  rfl

/-- A lease is renewed, and keeps its token. -/
theorem LedgerRel.renew (h : LedgerRel clock s t) {b : String} {token : Int}
    (htoken : s.issued b = token) (owner : String) (expires : ℚ) :
    LedgerRel clock { s with leases := s.leases.set b ⟨owner, token, expires⟩ }
      (t.write (.lease b) { owner := owner, token := token, expiresAt := expires }) := by
  refine h.setLease s.tokens ⟨rfl, rfl, Or.inl rfl⟩ fun b' => ?_
  split
  · next hb =>
    rw [hb]
    exact htoken
  · rfl

theorem acquire_simulates {now : ℚ} (h : LedgerRel clock s t) (b owner : String) (ttl : ℚ)
    (hclock : clock ≤ now) (hpositive : 0 < now)
    (hoff : ∀ row, t.rows (.lease b) = some row → row.expiresAt ≠ now) :
    Simulates now Eq t (.ok (s.acquire b owner ttl now now).1, (s.acquire b owner ttl now now).2)
      (PostgresSteps.acquire b owner ttl now) := by
  have hnow := h.later hclock
  have hlease := h.leases.lease b
  have hissued := h.leases.issued b
  have heval : (PostgresSteps.acquire b owner ttl now : PgTxn V Int).eval t = _ :=
    Txn.eval_bind_of_ok (Txn.eval_upsert ..) _
  unfold MemorySteps.acquire
  cases hheld : s.leases.get? b with
  -- Never leased: both grant it with the next token.
  | none =>
    rw [hheld] at hlease
    cases hrow : t.rows (.lease b) with
    | some row =>
      rw [hrow] at hlease
      exact hlease.elim
    | none =>
      rw [hrow] at heval hissued
      have hgranted := hnow.grant b owner (now + ttl)
      rw [hissued] at hgranted
      unfold MemorySteps.acquire.grant
      rw [hissued]
      exact .ok heval hgranted rfl
  -- Leased before: the holder renews, a stranger takes over what has run out, or is refused.
  | some held =>
    rw [hheld] at hlease
    cases hrow : t.rows (.lease b) with
    | none =>
      rw [hrow] at hlease
      exact hlease.elim
    | some row =>
      rw [hrow] at heval hissued hlease
      obtain ⟨howner, htoken, _⟩ := id hlease
      dsimp only [Option.elim] at heval ⊢
      unfold PostgresSteps.takeover at heval
      rw [howner, htoken]
      by_cases hsame : row.owner = owner
      · -- the holder renews
        rw [if_pos (Or.inl hsame), if_neg (not_not.mpr hsame), add_zero] at heval
        rw [if_pos hsame]
        have hrenewed := hnow.renew hissued owner (now + ttl)
        exact .ok heval hrenewed rfl
      · rw [if_neg hsame]
        -- The two clocks agree about what has run out, off the very instant of expiry.
        have hexpired := hlease.expired hclock hpositive (hoff row hrow)
        by_cases hover : row.expiresAt < now
        · -- the lease is taken over
          rw [if_pos (Or.inr hover), if_pos hsame] at heval
          rw [if_neg (not_not.mpr (hexpired.mpr hover))]
          have hgranted := hnow.grant b owner (now + ttl)
          unfold MemorySteps.acquire.grant
          rw [hissued] at hgranted ⊢
          exact .ok heval hgranted rfl
        · rw [if_neg (not_or.mpr ⟨hsame, hover⟩)] at heval
          rw [if_pos (fun hle => hover (hexpired.mp hle))]
          exact .ok heval hnow rfl

theorem release_simulates {now : ℚ} (h : LedgerRel clock s t) (b owner : String)
    (hclock : clock ≤ now) :
    Simulates now (fun _ _ => True) t (.ok (), s.release b owner now)
      (PostgresSteps.release b owner) := by
  have hnow := h.later hclock
  have hlease := h.leases.lease b
  have hissued := h.leases.issued b
  have heval : (PostgresSteps.release b owner : PgTxn V Unit).eval t = _ :=
    Txn.eval_bind_of_ok (Txn.eval_update ..) _
  unfold MemorySteps.release
  cases hheld : s.leases.get? b with
  | none =>
    rw [hheld] at hlease
    cases hrow : t.rows (.lease b) with
    | some row =>
      rw [hrow] at hlease
      exact hlease.elim
    | none =>
      rw [hrow] at heval
      exact .ok heval hnow trivial
  | some held =>
    rw [hheld] at hlease
    cases hrow : t.rows (.lease b) with
    | none =>
      rw [hrow] at hlease
      exact hlease.elim
    | some row =>
      rw [hrow] at heval hissued hlease
      obtain ⟨howner, htoken, _⟩ := id hlease
      dsimp only [Option.bind] at heval ⊢
      rw [howner, htoken]
      -- Only the owner's own lease is released: by the row's expiry there, in the dictionary here.
      by_cases hsame : row.owner = owner
      · rw [if_pos hsame] at heval ⊢
        refine .ok heval (hnow.setLease s.tokens ⟨rfl, rfl, Or.inr ⟨le_rfl, rfl⟩⟩
          fun b' => ?_) trivial
        split
        · next hb =>
          rw [hb]
          exact hissued
        · rfl
      · rw [if_neg hsame] at heval ⊢
        exact .ok heval hnow trivial

/-! ## Section 5: Inputs -/

theorem enqueueInput_simulates (h : LedgerRel clock s t) (b inputId : String) (value : V) :
    Simulates clock Eq t
      (.ok (s.enqueueInput b inputId value).1, (s.enqueueInput b inputId value).2)
      (PostgresSteps.enqueueInput b inputId value) := by
  have hsame := h.inputs.same b inputId
  have heval : (PostgresSteps.enqueueInput b inputId value).eval t = _ :=
    Txn.eval_bind_of_ok (Txn.eval_insertSerial ..) _
  unfold MemorySteps.enqueueInput
  cases hrow : t.rows (.input b inputId) with
  | none =>
    rw [record_of_none hrow] at hsame
    have hnew : s.inputs.get? (b, inputId) = none := Option.map_eq_none_iff.mp hsame
    rw [hrow] at heval
    rw [hnew]
    exact .ok heval (h.addInput hnew hrow value) rfl
  | some row =>
    rw [record_of_row hrow] at hsame
    obtain ⟨record, hrecord, _⟩ := Option.map_eq_some_iff.mp hsame
    rw [hrow] at heval
    rw [hrecord]
    -- the number drawn in vain is not given back
    exact .ok heval (h.serial (Nat.le_succ _)) rfl

/-- One input's status is changed, or left, in both ledgers. -/
theorem setInputStatus_eval (h : LedgerRel clock s t) (b inputId : String) (status : InputStatus)
    (allowed : InputStatus → Bool) :
    ∃ t', (PostgresSteps.setInputStatus b inputId status allowed).eval t = (.ok (), t') ∧
      LedgerRel clock (s.setInputStatus b inputId status allowed) t' := by
  have hsame := h.inputs.same b inputId
  have heval : (PostgresSteps.setInputStatus b inputId status allowed).eval t = _ :=
    Txn.eval_bind_of_ok (Txn.eval_update ..) _
  refine ⟨_, heval, ?_⟩
  unfold MemorySteps.setInputStatus
  cases hrow : t.rows (.input b inputId) with
  | none =>
    rw [record_of_none hrow] at hsame
    rw [show s.inputs.get? (b, inputId) = none from Option.map_eq_none_iff.mp hsame]
    exact h
  | some row =>
    rw [record_of_row hrow] at hsame
    obtain ⟨record, hrecord, hunnumbered⟩ := Option.map_eq_some_iff.mp hsame
    have hstatus : record.status = row.status := (Prod.mk.inj (Prod.mk.inj hunnumbered).2).1
    rw [hrecord]
    dsimp only [Option.bind]
    rw [hstatus]
    -- The `where` of the update is the test of the dictionary.
    by_cases hallowed : allowed row.status = true
    · rw [if_pos hallowed, if_pos hallowed]
      exact h.setInput hrecord hrow status
    · rw [if_neg hallowed, if_neg hallowed]
      exact h

/-- The statuses of several inputs are changed. -/
theorem setInputStatuses_eval (b : String) (inputIds : List String) (status : InputStatus)
    (allowed : InputStatus → Bool) (h : LedgerRel clock s t) :
    ∃ t', (inputIds.forM fun inputId =>
        PostgresSteps.setInputStatus b inputId status allowed).eval t = (.ok (), t') ∧
      LedgerRel clock
        (inputIds.foldl (fun s inputId => s.setInputStatus b inputId status allowed) s) t' := by
  induction inputIds generalizing s t with
  | nil => exact ⟨t, rfl, h⟩
  | cons inputId inputIds ih =>
    obtain ⟨t₁, heval, hrel⟩ := setInputStatus_eval h b inputId status allowed
    obtain ⟨t', hrest, hrel'⟩ := ih hrel
    exact ⟨t', (Txn.eval_bind_of_ok heval _).trans hrest, hrel'⟩

theorem claimInput_simulates (h : LedgerRel clock s t) (b inputId : String) (token : Int) :
    Simulates clock (fun _ _ => True) t (s.claimInput b inputId token)
      (PostgresSteps.claimInput b inputId token) := by
  refine .fenced h b token ?_
  obtain ⟨t', heval, hrel⟩ := setInputStatus_eval h b inputId .claimed
    fun status => status ≠ .admitted ∧ status ≠ .discarded
  exact .ok heval hrel trivial

/-- Several inputs are made terminal; an empty list is turned back before the fence. -/
theorem terminal_simulates (h : LedgerRel clock s t) (b : String) (inputIds : List String)
    (token : Int) (status : InputStatus) (allowed : InputStatus → Bool) :
    Simulates clock (fun (_ _ : Unit) => True) t
      (s.fenced b token (.ok (), inputIds.foldl
        (fun s inputId => s.setInputStatus b inputId status allowed) s))
      (if inputIds = [] then pure ()
      else do
        PostgresSteps.fence b token
        inputIds.forM fun inputId => PostgresSteps.setInputStatus b inputId status allowed) := by
  by_cases hempty : inputIds = []
  · rw [if_pos hempty, hempty]
    unfold MemorySteps.fenced
    cases s.fence b token with
    | ok _ => exact .ok (Txn.eval_pure ..) h trivial
    | error e => exact .nothing (Txn.eval_pure ..) h
  · rw [if_neg hempty]
    refine .fenced h b token ?_
    obtain ⟨t', heval, hrel⟩ := setInputStatuses_eval b inputIds status allowed h
    exact .ok heval hrel trivial

/-! ## Section 6: Transitions -/

theorem not_mem_seen {keys seen : List String}
    (h : PostgresSteps.repeatedKey keys seen = none) {key : String} (hkey : key ∈ keys) :
    key ∉ seen := by
  induction keys generalizing seen with
  | nil => cases hkey
  | cons first keys ih =>
    unfold PostgresSteps.repeatedKey at h
    by_cases hseen : first ∈ seen
    · rw [if_pos hseen] at h
      cases h
    · rw [if_neg hseen] at h
      rcases List.mem_cons.mp hkey with rfl | hkey
      · exact hseen
      · exact fun hmem => ih h hkey (List.mem_cons_of_mem _ hmem)

/-- A key that occurs twice is refused by the one ledger while it plans. -/
theorem planEffects_repeated [BEq V] {b key : String} {effects : List (EffectCompletion V)}
    {seen : List String}
    (h : PostgresSteps.repeatedKey (effects.map EffectCompletion.key) seen = some key) :
    ∃ e, s.planEffects b effects seen = .error e := by
  induction effects generalizing seen with
  | nil => cases h
  | cons effect effects ih =>
    rw [List.map_cons] at h
    unfold PostgresSteps.repeatedKey at h
    unfold MemorySteps.planEffects
    by_cases hseen : effect.key ∈ seen
    · rw [if_pos hseen]
      exact ⟨_, rfl⟩
    · rw [if_neg hseen] at h ⊢
      obtain ⟨e, hrest⟩ := ih h
      dsimp only
      rw [hrest]
      split
      · split <;> exact ⟨_, rfl⟩
      · split <;> exact ⟨_, rfl⟩

/-- The effects are completed, or one of them is refused. The one ledger looks at all of them
    before it writes; the other completes them in turn, each in a state in which those before it
    are done, and the keys are different. -/
theorem effects_eval [BEq V] {s₀ : MemorySteps V} (b : String)
    (effects : List (EffectCompletion V)) (seen : List String) (h : LedgerRel clock s t)
    (hsame : ∀ effect ∈ effects, s.entry b effect.key = s₀.entry b effect.key)
    (hdistinct : PostgresSteps.repeatedKey (effects.map EffectCompletion.key) seen = none) :
    (∀ completed, s₀.planEffects b effects seen = .ok completed →
      ∃ t', (effects.forM fun effect => PostgresSteps.completeEffect b effect.key effect.value
          effect.expected).eval t = (.ok (), t') ∧
        LedgerRel clock (s.applyCompleted b completed) t') ∧
    (∀ e, s₀.planEffects b effects seen = .error e →
      ∃ e' t', (effects.forM fun effect => PostgresSteps.completeEffect b effect.key effect.value
        effect.expected).eval t = (.error e', t')) := by
  -- Induction on the effects: the plan is made against the first state, the statements run one
  -- after another, and distinct keys make the two the same.
  induction effects generalizing s t seen with
  | nil =>
    refine ⟨fun completed hplan => ?_, fun e hplan => ?_⟩
    · obtain rfl := Except.ok.inj hplan
      exact ⟨t, rfl, h⟩
    · cases hplan
  | cons effect effects ih =>
    have heffect := completeEffect_eval h b effect.key effect.value effect.expected
    dsimp only at heffect
    rw [hsame effect List.mem_cons_self] at heffect
    rw [List.map_cons] at hdistinct
    unfold PostgresSteps.repeatedKey at hdistinct
    unfold MemorySteps.planEffects
    have hrest : ∀ other ∈ effects, s.entry b other.key = s₀.entry b other.key :=
      fun other hother => hsame other (List.mem_cons_of_mem _ hother)
    by_cases hseen : effect.key ∈ seen
    · rw [if_pos hseen] at hdistinct
      cases hdistinct
    rw [if_neg hseen] at hdistinct ⊢
    dsimp only
    -- Done already: the same value passes, another is refused.
    by_cases hdone : (s₀.entry b effect.key).status = .done
    · rw [if_pos hdone] at heffect ⊢
      by_cases hvalue : ((s₀.entry b effect.key).value == effect.value) = true
      · -- it is there already
        rw [if_pos hvalue] at heffect
        rw [if_neg (by simp [bne, hvalue])]
        obtain ⟨hok, herror⟩ := ih (effect.key :: seen) h hrest hdistinct
        refine ⟨fun completed hplan => ?_, fun e hplan => ?_⟩
        · obtain ⟨t', heval, hrel⟩ := hok completed hplan
          exact ⟨t', (Txn.eval_bind_of_ok heffect _).trans heval, hrel⟩
        · obtain ⟨e', t', heval⟩ := herror e hplan
          exact ⟨e', t', (Txn.eval_bind_of_ok heffect _).trans heval⟩
      · rw [if_neg hvalue] at heffect
        rw [if_pos (by simp [bne, hvalue])]
        obtain ⟨e', heffect⟩ := heffect
        exact ⟨fun _ hplan => (by cases hplan),
          fun e _ => ⟨e', t, Txn.eval_bind_of_error heffect _⟩⟩
    · rw [if_neg hdone] at heffect ⊢
      by_cases hexpected : (s₀.entry b effect.key).status = effect.expected.status
      · -- it is completed
        rw [if_neg (not_not.mpr hexpected)] at heffect ⊢
        obtain ⟨row, hrow, heffect⟩ := heffect
        -- The effects still to come have other keys, so this write does not show in them.
        have hafter : ∀ other ∈ effects,
            (s.setEntry b effect.key ⟨.done, effect.value, (s₀.entry b effect.key).version + 1⟩).entry
              b other.key = s₀.entry b other.key := by
          intro other hother
          have hne : other.key ≠ effect.key := fun heq =>
            not_mem_seen hdistinct (List.mem_map_of_mem hother) (heq ▸ List.mem_cons_self)
          rw [entry_setEntry, if_neg (fun hboth => hne hboth.2)]
          exact hrest other hother
        obtain ⟨hok, herror⟩ := ih (effect.key :: seen) (h.setStep hrow) hafter hdistinct
        refine ⟨fun completed hplan => ?_, fun e hplan => ?_⟩
        · cases hplan' : s₀.planEffects b effects (effect.key :: seen) with
          | error e =>
            rw [hplan'] at hplan
            cases hplan
          | ok others =>
            rw [hplan'] at hplan
            obtain rfl := Except.ok.inj hplan
            obtain ⟨t', heval, hrel⟩ := hok others hplan'
            exact ⟨t', (Txn.eval_bind_of_ok heffect _).trans heval, hrel⟩
        · cases hplan' : s₀.planEffects b effects (effect.key :: seen) with
          | error e =>
            obtain ⟨e', t', heval⟩ := herror e hplan'
            exact ⟨e', t', (Txn.eval_bind_of_ok heffect _).trans heval⟩
          | ok others =>
            rw [hplan'] at hplan
            cases hplan
      · rw [if_pos hexpected] at heffect ⊢
        obtain ⟨e', heffect⟩ := heffect
        exact ⟨fun _ hplan => (by cases hplan),
          fun e _ => ⟨e', t, Txn.eval_bind_of_error heffect _⟩⟩

theorem controls_eval (b : String) (controls : List (String × Option V))
    (h : LedgerRel clock s t) :
    ∃ t', (controls.forM fun item => PostgresSteps.setControl b item.1 item.2).eval t
        = (.ok (), t') ∧ LedgerRel clock (s.applyControls b controls) t' := by
  induction controls generalizing s t with
  | nil => exact ⟨t, rfl, h⟩
  | cons item controls ih =>
    obtain ⟨row, hrow, heval⟩ := setControl_eval h b item.1 item.2
    obtain ⟨t', hrest, hrel⟩ := ih (h.setStep hrow)
    exact ⟨t', (Txn.eval_bind_of_ok heval _).trans hrest, hrel⟩

theorem inputs_eval (b : String) (inputs : List (String × V)) (h : LedgerRel clock s t) :
    ∃ t', (PostgresSteps.insertInputs b inputs).eval t = (.ok (s.applyInputs b inputs).1, t') ∧
      LedgerRel clock (s.applyInputs b inputs).2 t' := by
  induction inputs generalizing s t with
  | nil => exact ⟨t, rfl, h⟩
  | cons item inputs ih =>
    obtain ⟨inputId, value⟩ := item
    have hsame := h.inputs.same b inputId
    have hqueue : (PostgresSteps.enqueueInput b inputId value).eval t = _ :=
      Txn.eval_bind_of_ok (Txn.eval_insertSerial ..) _
    unfold MemorySteps.applyInputs
    cases hrow : t.rows (.input b inputId) with
    -- New: both number it and put it last.
    | none =>
      rw [record_of_none hrow] at hsame
      have hnew : s.inputs.get? (b, inputId) = none := Option.map_eq_none_iff.mp hsame
      rw [hrow] at hqueue
      obtain ⟨t', hrest, hrel⟩ := ih (h.addInput hnew hrow value)
      rw [hnew]
      exact ⟨t', (Txn.eval_bind_of_ok hqueue _).trans (Txn.eval_bind_of_ok hrest _), hrel⟩
    -- Known: nothing is queued, but the serial has moved on.
    | some row =>
      rw [record_of_row hrow] at hsame
      obtain ⟨record, hrecord, _⟩ := Option.map_eq_some_iff.mp hsame
      rw [hrow] at hqueue
      obtain ⟨t', hrest, hrel⟩ := ih (h.serial (Nat.le_succ _))
      rw [hrecord]
      exact ⟨t', (Txn.eval_bind_of_ok hqueue _).trans (Txn.eval_bind_of_ok hrest _), hrel⟩

theorem commitTransition_simulates [BEq V] (h : LedgerRel clock s t) (b : String)
    (transition : ExecutionTransition V) (token : Int) :
    Simulates clock Eq t (s.commitTransition b transition token)
      (PostgresSteps.commitTransition b transition token) := by
  refine .fenced h b token ?_
  unfold PostgresSteps.applyTransition
  -- A repeated key is refused by both: by the check there, by the plan here.
  cases hrepeated : PostgresSteps.repeatedKey (transition.effects.map EffectCompletion.key) [] with
  | some key =>
    obtain ⟨e, hplan⟩ := planEffects_repeated (s := s) (b := b) hrepeated
    rw [hplan]
    exact .error (Txn.eval_throw ..) h
  | none =>
    obtain ⟨hok, herror⟩ := effects_eval b transition.effects [] h (fun _ _ => rfl) hrepeated
    dsimp only
    -- So is a key that is both completed and written as control; the stores check in another order.
    by_cases hoverlap : overlap transition = []
    · rw [if_neg (not_not.mpr hoverlap)]
      cases hplan : s.planEffects b transition.effects [] with
      | error e =>
        obtain ⟨e', t', heval⟩ := herror e hplan
        exact .error (Txn.eval_bind_of_error heval _) h
      | ok completed =>
        -- Accepted: the three parts are applied in turn, each related to the one before.
        obtain ⟨t₁, heffects, h₁⟩ := hok completed hplan
        obtain ⟨t₂, hcontrols, h₂⟩ := controls_eval b transition.controls.items h₁
        obtain ⟨t₃, hinputs, h₃⟩ := inputs_eval b transition.inputs h₂
        dsimp only
        rw [if_neg (not_not.mpr hoverlap)]
        exact .ok ((Txn.eval_bind_of_ok heffects _).trans
          ((Txn.eval_bind_of_ok hcontrols _).trans hinputs)) h₃ rfl
    · rw [if_pos hoverlap]
      cases hplan : s.planEffects b transition.effects [] with
      | error e => exact .error (Txn.eval_throw ..) h
      | ok completed =>
        dsimp only
        rw [if_pos hoverlap]
        exact .error (Txn.eval_throw ..) h

/-! ## Section 7: Runs -/

/-- **One call**: the call of the one ledger and the transaction of the other keep the relation,
    and return the same when both return. -/
theorem perform_simulates [BEq V] (h : LedgerRel clock s t) (op : LedgerOp V) {now : ℚ}
    (hclock : clock ≤ now) (hpositive : 0 < now)
    (hoff : ∀ b owner ttl, op = .acquire b owner ttl →
      ∀ row, t.rows (.lease b) = some row → row.expiresAt ≠ now) :
    LedgerRel now (op.perform now now s).2 (op.performPg now t).2 ∧
      ∀ a a', (op.perform now now s).1 = .ok a → (op.performPg now t).1 = .ok a' →
        SameReply op a a' := by
  have hnow := h.later hclock
  -- One case a method: each was shown to simulate above, and only `acquire` depends on the instant.
  cases op with
  | read b key =>
    have hcall := read_simulates hnow b key
    exact ⟨hcall.related, hcall.reply⟩
  | start b key token =>
    have hcall := start_simulates hnow b key token
    exact ⟨hcall.related, hcall.reply⟩
  | finishEffect b key value token =>
    have hcall := finishEffect_simulates hnow b key value token
    exact ⟨hcall.related, hcall.reply⟩
  | resolveEffect b key resolution workersStopped token =>
    have hcall := resolveEffect_simulates hnow b key resolution workersStopped token
    exact ⟨hcall.related, hcall.reply⟩
  | writeControl b key value token =>
    have hcall := writeControl_simulates hnow b key value token
    exact ⟨hcall.related, hcall.reply⟩
  | forget b key token =>
    have hcall := forget_simulates hnow b key token
    exact ⟨hcall.related, hcall.reply⟩
  | acquire b owner ttl =>
    have hcall := acquire_simulates h b owner ttl hclock hpositive (hoff b owner ttl rfl)
    exact ⟨hcall.related, hcall.reply⟩
  | release b owner =>
    have hcall := release_simulates h b owner hclock
    exact ⟨hcall.related, hcall.reply⟩
  | enqueueInput b inputId value =>
    have hcall := enqueueInput_simulates hnow b inputId value
    exact ⟨hcall.related, hcall.reply⟩
  | listInputs b =>
    refine ⟨hnow, fun a a' ha ha' => ?_⟩
    obtain rfl := Except.ok.inj ha
    obtain rfl := Except.ok.inj ha'
    exact h.inputs.queues b
  | claimInput b inputId token =>
    have hcall := claimInput_simulates hnow b inputId token
    exact ⟨hcall.related, hcall.reply⟩
  | admitInputs b inputIds token =>
    have hcall := terminal_simulates hnow b inputIds token .admitted fun status =>
      status ≠ .discarded
    exact ⟨hcall.related, hcall.reply⟩
  | discardInputs b inputIds token =>
    have hcall := terminal_simulates hnow b inputIds token .discarded fun _ => true
    exact ⟨hcall.related, hcall.reply⟩
  | commitTransition b transition token =>
    have hcall := commitTransition_simulates hnow b transition token
    exact ⟨hcall.related, hcall.reply⟩

variable {calls : List (LedgerCall V)}

/-- The clock reads no earlier than the last call when a later one is made. -/
theorem OneClock.later (h : OneClock calls) {i j : Nat} {c d : LedgerCall V}
    (hc : calls[i]? = some c) (hd : calls[j]? = some d) (hij : i < j) : c.now ≤ d.now := by
  obtain ⟨hi, rfl⟩ := List.getElem?_eq_some_iff.mp hc
  obtain ⟨hj, rfl⟩ := List.getElem?_eq_some_iff.mp hd
  exact List.pairwise_iff_getElem.mp h.ordered i j hi hj hij

/-- **The relation over a run**: at every moment the ledgers are related, by a reading of the
    clock that is not later than any to come. -/
theorem ledgers_related [BEq V] (hclock : OneClock calls) (hoff : OffExpiry calls) (i : Nat) :
    ∃ clock, LedgerRel clock ((ledger V).upTo .init calls i) ((postgres V).upTo .empty calls i) ∧
      ∀ j c, calls[j]? = some c → i ≤ j → clock ≤ c.now := by
  induction i with
  | zero =>
    refine ⟨0, ledgerRel_init, fun j c hc _ => le_of_lt ?_⟩
    exact hclock.positive c (List.mem_of_getElem? hc)
  | succ i ih =>
    obtain ⟨clock, hrel, hlater⟩ := ih
    cases hc : calls[i]? with
    | none =>
      rw [Machine.upTo_of_none _ _ hc, Machine.upTo_of_none _ _ hc]
      exact ⟨clock, hrel, fun j c hc hij => hlater j c hc (Nat.le_of_succ_le hij)⟩
    | some c =>
      have hmem : c ∈ calls := List.mem_of_getElem? hc
      have hcall := perform_simulates hrel c.op (hlater i c hc (Nat.le_refl i))
        (hclock.positive c hmem) (hoff i c hc)
      rw [Machine.upTo_succ _ _ hc, Machine.upTo_succ _ _ hc]
      refine ⟨c.now, ?_, fun j d hd hij => hclock.later hc hd hij⟩
      show LedgerRel c.now (c.op.perform c.now c.later _).2 _
      rw [hclock.once c hmem]
      exact hcall.1

/-- **The two ledgers refine one specification**: from nothing, through the same calls made one
    at a time by one clock, the two agree after every call, and whenever both return they return
    the same. The clock gives every call one reading, later calls later ones, and no acquire is
    made at the very instant a lease runs out. Values, identifiers and times to live are ones that
    PostgreSQL can store, and a value is read as it was written: what `jsonb` refuses or rewrites
    is not the ledger's doing. -/
theorem stores_agree [BEq V] (calls : List (LedgerCall V)) (hclock : OneClock calls)
    (hoff : OffExpiry calls) (i : Nat) :
    Agree ((ledger V).upTo .init calls i) ((postgres V).upTo .empty calls i) ∧
      ∀ c, calls[i]? = some c → ∀ a a',
        (ledger V).reply ((ledger V).upTo .init calls i) c = .ok a →
        (postgres V).reply ((postgres V).upTo .empty calls i) c = .ok a' →
          SameReply c.op a a' := by
  obtain ⟨clock, hrel, hlater⟩ := ledgers_related hclock hoff i
  refine ⟨hrel.agree, fun c hc a a' ha ha' => ?_⟩
  have hmem : c ∈ calls := List.mem_of_getElem? hc
  have hcall := perform_simulates hrel c.op (hlater i c hc (Nat.le_refl i))
    (hclock.positive c hmem) (hoff i c hc)
  have hreply : (c.op.perform c.now c.later ((ledger V).upTo .init calls i)).1 = .ok a := ha
  rw [hclock.once c hmem] at hreply
  exact hcall.2 a a' hreply ha'

end operations

/-- A lease that changes hands, a completed effect, and an input. -/
def handover : List (LedgerCall Nat) :=
  [⟨.acquire "mail" "first" 60, 1, 1⟩, ⟨.start "mail" "send" 1, 2, 2⟩,
    ⟨.finishEffect "mail" "send" (some 7) 1, 3, 3⟩, ⟨.release "mail" "first", 4, 4⟩,
    ⟨.acquire "mail" "second" 60, 5, 5⟩, ⟨.enqueueInput "mail" "hello" 9, 6, 6⟩,
    ⟨.listInputs "mail", 7, 7⟩]

theorem handover_clock : OneClock handover where
  ordered := by decide +kernel
  once := by decide +kernel
  positive := by decide +kernel

/-- What can be read of the one lease before every call. -/
theorem handover_leases : ∀ i < 7, (((postgres Nat).after .empty (handover.take i)).rows
    (.lease "mail")).all (fun row => row.expiresAt ≠ 1 ∧ row.expiresAt ≠ 5) := by
  decide +kernel

theorem handover_off : OffExpiry handover := by
  intro i c hc b owner ttl hop row hrow
  have hi : i < 7 := (List.getElem?_eq_some_iff.mp hc).1
  have hasked : b = "mail" ∧ (c.now = 1 ∨ c.now = 5) := by
    have hmem : c ∈ handover := List.mem_of_getElem? hc
    simp only [handover, List.mem_cons, List.not_mem_nil, or_false] at hmem
    rcases hmem with rfl | rfl | rfl | rfl | rfl | rfl | rfl <;> cases hop <;> simp
  obtain ⟨rfl, hnow⟩ := hasked
  have hlease := handover_leases i hi
  rw [hrow] at hlease
  obtain ⟨hfirst, hsecond⟩ := of_decide_eq_true hlease
  rcases hnow with hnow | hnow
  · rw [hnow]
    exact hfirst
  · rw [hnow]
    exact hsecond

theorem stores_agree_handover :
    Agree ((ledger Nat).upTo .init handover 7) ((postgres Nat).upTo .empty handover 7) ∧
      SameReply (.listInputs "mail" : LedgerOp Nat) [⟨"hello", .pending, 9, 0⟩]
        [⟨"hello", .pending, 9, 0⟩] := by
  refine ⟨(stores_agree handover handover_clock handover_off 7).1, ?_⟩
  exact (stores_agree handover handover_clock handover_off 6).2
    ⟨.listInputs "mail", 7, 7⟩ rfl _ _ rfl rfl

end Semora
