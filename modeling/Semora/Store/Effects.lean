import Semora.Store.Holding

/-! # What Becomes of an Effect

    The transitions of one step, by inversion: what `start`, `finish_effect`,
    `forget` and `resolve_effect` can do to it, guards included. Everything
    that is proved about effects is proved from these cases. -/

namespace Semora

namespace MemorySteps

variable {V : Type}

/-! ## Section 1: The cases of a method -/

/-- `start` raises, answers `False`, or records running intent. -/
theorem start_cases (s : MemorySteps V) (b key : String) (token : Int) :
    (∃ e, s.start b key token = (.error e, s)) ∨
    s.start b key token = (.ok false, s) ∨
    ((s.entry b key).status ≠ .running ∧ (s.entry b key).status ≠ .done ∧
      s.start b key token = (.ok true,
        s.setEntry b key { status := .running, version := (s.entry b key).version + 1 })) := by
  rcases fenced_cases s b token _ with heq | ⟨_, _, heq⟩
  · unfold start
    rw [heq]
    dsimp only
    split
    · exact Or.inr (Or.inl rfl)
    · next hstatus =>
      have hstatus' : (s.entry b key).status = .absent ∨ (s.entry b key).status = .ready := by
        tauto
      refine Or.inr (Or.inr ⟨?_, ?_, rfl⟩) <;>
        rcases hstatus' with h | h <;> rw [h] <;> decide
  · exact Or.inl ⟨_, heq⟩

/-- `finish_effect` raises, finds its result committed, or commits it. -/
theorem finishEffect_cases [BEq V] (s : MemorySteps V) (b key : String)
    (value : Option V) (token : Int) :
    (∃ e, s.finishEffect b key value token = (.error e, s)) ∨
    ((s.entry b key).status = .done ∧ ((s.entry b key).value == value) = true ∧
      s.finishEffect b key value token = (.ok (), s)) ∨
    ((s.entry b key).status = .running ∧
      s.finishEffect b key value token = (.ok (), s.setEntry b key
        { status := .done, value := value, version := (s.entry b key).version + 1 })) := by
  rcases fenced_cases s b token _ with heq | ⟨_, _, heq⟩
  · unfold finishEffect
    rw [heq]
    dsimp only
    split
    · next hdone =>
      split
      · next hvalue => exact Or.inr (Or.inl ⟨hdone, hvalue, rfl⟩)
      · exact Or.inl ⟨_, rfl⟩
    · split
      · exact Or.inl ⟨_, rfl⟩
      · next hrunning => exact Or.inr (Or.inr ⟨not_not.mp hrunning, rfl⟩)
  · exact Or.inl ⟨_, heq⟩

/-- `forget` raises, clears running intent, or finds none. -/
theorem forget_cases (s : MemorySteps V) (b key : String) (token : Int) :
    (∃ e, s.forget b key token = (.error e, s)) ∨
    ((s.entry b key).status = .running ∧ s.forget b key token = (.ok (), s.setEntry b key
      { status := .absent, version := (s.entry b key).version + 1 })) ∨
    ((s.entry b key).status ≠ .running ∧ s.forget b key token = (.ok (), s)) := by
  rcases fenced_cases s b token _ with heq | ⟨_, _, heq⟩
  · unfold forget
    rw [heq]
    dsimp only
    split
    · next hrunning => exact Or.inr (Or.inl ⟨hrunning, rfl⟩)
    · next hrunning => exact Or.inr (Or.inr ⟨hrunning, rfl⟩)
  · exact Or.inl ⟨_, heq⟩

theorem resolutionPayload_ok {key : String} {resolution : EffectResolution V}
    {workersStopped : Bool} {payload : ResolutionPayload V}
    (h : resolutionPayload key resolution workersStopped = .ok payload) :
    payload = { key := key, action := resolution.action,
                expectedVersion := resolution.expectedVersion, reason := resolution.reason,
                value := resolution.value, providerKey := resolution.providerKey } := by
  unfold resolutionPayload at h
  repeat (split at h; · cases h)
  cases h
  rfl

theorem ResolutionPayload.eq_of_beq [BEq V] [LawfulBEq V] {p q : ResolutionPayload V}
    (h : (p == q) = true) : p = q := by
  obtain ⟨key, action, version, reason, value, provider⟩ := p
  obtain ⟨key', action', version', reason', value', provider'⟩ := q
  simp only [BEq.beq] at h
  simpa [instBEqResolutionPayload.beq] using h

/-- The step an accepted decision leaves. -/
def resolved (resolution : EffectResolution V) (version : Nat) : Step V :=
  match resolution.action with
  | .complete => { status := .done, value := resolution.value, version := version + 1 }
  | .retry => { status := .ready, version := version + 1 }

/-- `resolve_effect` raises, finds its decision recorded, or applies it. -/
theorem resolveEffect_cases [BEq V] (s : MemorySteps V) (b key : String)
    (resolution : EffectResolution V) (workersStopped : Bool) (token : Int) :
    (∃ e, s.resolveEffect b key resolution workersStopped token = (.error e, s)) ∨
    (∃ payload previous, resolutionPayload key resolution workersStopped = .ok payload ∧
      s.decisions.get? (b, resolution.decisionId) = some previous ∧ (previous == payload) = true ∧
      s.resolveEffect b key resolution workersStopped token = (.ok (s.read b key), s)) ∨
    (∃ payload, resolutionPayload key resolution workersStopped = .ok payload ∧
      s.decisions.get? (b, resolution.decisionId) = none ∧
      (s.entry b key).status = .running ∧
      ((s.entry b key).version : Int) = resolution.expectedVersion ∧
      s.resolveEffect b key resolution workersStopped token =
        (.ok (resolved resolution (s.entry b key).version),
          { s.setEntry b key (resolved resolution (s.entry b key).version) with
            decisions := s.decisions.set (b, resolution.decisionId) payload })) := by
  -- Behind the fence the checks come in the order of the source: fields, decision, then status and
  -- version.
  rcases fenced_cases s b token _ with heq | ⟨_, _, heq⟩
  · unfold resolveEffect
    rw [heq]
    split
    · exact Or.inl ⟨_, rfl⟩
    · next payload hpayload =>
      split
      · next previous hprevious =>
        split
        · exact Or.inl ⟨_, rfl⟩
        · next hsame =>
          exact Or.inr (Or.inl ⟨payload, previous, hpayload, hprevious, by simpa [bne] using hsame,
            rfl⟩)
      · next hnone =>
        dsimp only
        split
        · exact Or.inl ⟨_, rfl⟩
        · next hguard =>
          obtain ⟨hrunning, hversion⟩ : (s.entry b key).status = .running ∧
              ((s.entry b key).version : Int) = resolution.expectedVersion := by tauto
          refine Or.inr (Or.inr ⟨payload, hpayload, hnone, hrunning, hversion, ?_⟩)
          refine Prod.ext (congrArg Except.ok ?_) rfl
          change (s.setEntry b key _).entry b key = _
          exact entry_setEntry_self ..
  · exact Or.inl ⟨_, heq⟩

/-- `write_control` is refused to a stale token; otherwise the key holds the value. -/
theorem writeControl_cases (s : MemorySteps V) (b key : String) (value : Option V)
    (token : Int) :
    (token ≠ 0 ∧ token < s.issued b ∧
      s.writeControl b key value token = (.error (.fenced b token (s.issued b)), s)) ∨
    (¬ (token ≠ 0 ∧ token < s.issued b) ∧
      s.writeControl b key value token = (.ok (), s.setEntry b key
        { status := .done, value := value, version := (s.entry b key).version + 1 })) := by
  unfold writeControl fenced fence
  by_cases hstale : token ≠ 0 ∧ token < s.issued b
  · exact Or.inl ⟨hstale.1, hstale.2, by rw [if_pos hstale]⟩
  · exact Or.inr ⟨hstale, by rw [if_neg hstale]⟩

/-! ## Section 2: Completed and running steps -/

theorem entry_setEntry_done {s : MemorySteps V} {b key : String}
    (h : (s.entry b key).status = .done) (b' key' : String) {step : Step V}
    (hstep : step.status = .done) : ((s.setEntry b' key' step).entry b key).status = .done := by
  rw [entry_setEntry]
  split
  · exact hstep
  · exact h

theorem applyCompleted_done {s : MemorySteps V} {b key : String} (b' : String)
    (completed : List (String × Option V × Nat)) (h : (s.entry b key).status = .done) :
    ((s.applyCompleted b' completed).entry b key).status = .done := by
  unfold applyCompleted
  induction completed generalizing s with
  | nil => exact h
  | cons item rest ih => exact ih (entry_setEntry_done h b' item.1 rfl)

theorem applyControls_done {s : MemorySteps V} {b key : String} (b' : String)
    (controls : List (String × Option V)) (h : (s.entry b key).status = .done) :
    ((s.applyControls b' controls).entry b key).status = .done := by
  unfold applyControls
  induction controls generalizing s with
  | nil => exact h
  | cons item rest ih => exact ih (entry_setEntry_done h b' item.1 rfl)

/-- A completed step stays completed, whoever calls what. -/
theorem perform_done [BEq V] (op : LedgerOp V) (now later : ℚ) {s : MemorySteps V}
    {b key : String} (h : (s.entry b key).status = .done) :
    ((op.perform now later s).2.entry b key).status = .done := by
  -- A call about another step leaves it; one about this step finds it done.
  by_cases hop : op.branchId ≠ b ∨ key ∉ op.keys
  · rw [perform_entry op now later s hop]
    exact h
  · obtain ⟨hb, hkey⟩ : op.branchId = b ∧ key ∈ op.keys := by
      simpa only [not_or, not_not] using hop
    -- Six methods can name it: each is refused, answers what is there, or writes `done` again.
    cases op with
    | start b' key' token =>
      change ((s.start b' key' token).2.entry b key).status = .done
      obtain ⟨rfl, rfl⟩ : b' = b ∧ key = key' := by
        simpa [LedgerOp.branchId, LedgerOp.keys] using And.intro hb hkey
      rcases start_cases s b' key token with ⟨_, heq⟩ | heq | ⟨_, hdone, _⟩
      · rw [heq]; exact h
      · rw [heq]; exact h
      · exact absurd h hdone
    | finishEffect b' key' value token =>
      change ((s.finishEffect b' key' value token).2.entry b key).status = .done
      rcases finishEffect_cases s b' key' value token with ⟨_, heq⟩ | ⟨_, _, heq⟩ | ⟨_, heq⟩
      · rw [heq]; exact h
      · rw [heq]; exact h
      · rw [heq]; exact entry_setEntry_done h b' key' rfl
    | resolveEffect b' key' resolution workersStopped token =>
      change ((s.resolveEffect b' key' resolution workersStopped token).2.entry b key).status
        = .done
      obtain ⟨rfl, rfl⟩ : b' = b ∧ key = key' := by
        simpa [LedgerOp.branchId, LedgerOp.keys] using And.intro hb hkey
      rcases resolveEffect_cases s b' key resolution workersStopped token with
        ⟨_, heq⟩ | ⟨_, _, _, _, _, heq⟩ | ⟨_, _, _, hrunning, _, _⟩
      · rw [heq]; exact h
      · rw [heq]; exact h
      · simp [h] at hrunning
    | writeControl b' key' value token =>
      change ((s.writeControl b' key' value token).2.entry b key).status = .done
      rcases fenced_cases s b' token _ with heq | ⟨_, _, heq⟩
      · unfold writeControl
        rw [heq]
        exact entry_setEntry_done h b' key' rfl
      · unfold writeControl
        rw [heq]
        exact h
    | forget b' key' token =>
      change ((s.forget b' key' token).2.entry b key).status = .done
      obtain ⟨rfl, rfl⟩ : b' = b ∧ key = key' := by
        simpa [LedgerOp.branchId, LedgerOp.keys] using And.intro hb hkey
      rcases forget_cases s b' key token with ⟨_, heq⟩ | ⟨hrunning, _⟩ | ⟨_, heq⟩
      · rw [heq]; exact h
      · simp [h] at hrunning
      · rw [heq]; exact h
    | commitTransition b' transition token =>
      change ((s.commitTransition b' transition token).2.entry b key).status = .done
      obtain rfl : b' = b := hb
      unfold commitTransition
      rcases fenced_cases s b' token _ with heq | ⟨_, _, heq⟩
      · rw [heq]
        split
        · exact h
        · split
          · exact h
          · dsimp only
            rw [applyInputs_entry]
            exact applyControls_done _ _ (applyCompleted_done _ _ h)
      · rw [heq]
        exact h
    | _ => simp [LedgerOp.keys] at hkey

/-- A step that was given another status than running is not running now. -/
theorem running_of_setEntry {s : MemorySteps V} {b key b' key' : String} {step : Step V}
    (hstep : step.status ≠ .running)
    (h : ((s.setEntry b' key' step).entry b key).status = .running) :
    (s.entry b key).status = .running := by
  rw [entry_setEntry] at h
  split at h
  · exact absurd h hstep
  · exact h

theorem running_of_applyCompleted {s : MemorySteps V} {b b' key : String}
    {completed : List (String × Option V × Nat)}
    (h : ((s.applyCompleted b' completed).entry b key).status = .running) :
    (s.entry b key).status = .running := by
  unfold applyCompleted at h
  induction completed generalizing s with
  | nil => exact h
  | cons item rest ih => exact running_of_setEntry (by simp) (ih h)

theorem running_of_applyControls {s : MemorySteps V} {b b' key : String}
    {controls : List (String × Option V)}
    (h : ((s.applyControls b' controls).entry b key).status = .running) :
    (s.entry b key).status = .running := by
  unfold applyControls at h
  induction controls generalizing s with
  | nil => exact h
  | cons item rest ih => exact running_of_setEntry (by simp) (ih h)

/-- Only `start` makes a step run. -/
theorem perform_running [BEq V] (op : LedgerOp V) (now later : ℚ) {s : MemorySteps V}
    {b key : String} (h : ((op.perform now later s).2.entry b key).status = .running) :
    (s.entry b key).status = .running ∨ ∃ token, op = .start b key token := by
  by_cases hop : op.branchId ≠ b ∨ key ∉ op.keys
  · rw [perform_entry op now later s hop] at h
    exact Or.inl h
  · obtain ⟨hb, hkey⟩ : op.branchId = b ∧ key ∈ op.keys := by
      simpa only [not_or, not_not] using hop
    -- Of the six methods that can name the step only `start` writes `running`.
    cases op with
    | start b' key' token =>
      obtain ⟨rfl, rfl⟩ : b' = b ∧ key = key' := by
        simpa [LedgerOp.branchId, LedgerOp.keys] using And.intro hb hkey
      exact Or.inr ⟨token, rfl⟩
    | finishEffect b' key' value token =>
      change ((s.finishEffect b' key' value token).2.entry b key).status = .running at h
      rcases finishEffect_cases s b' key' value token with ⟨_, heq⟩ | ⟨_, _, heq⟩ | ⟨_, heq⟩
      · rw [heq] at h; exact Or.inl h
      · rw [heq] at h; exact Or.inl h
      · rw [heq] at h; exact Or.inl (running_of_setEntry (by simp) h)
    | resolveEffect b' key' resolution workersStopped token =>
      change ((s.resolveEffect b' key' resolution workersStopped token).2.entry b key).status
        = .running at h
      rcases resolveEffect_cases s b' key' resolution workersStopped token with
        ⟨_, heq⟩ | ⟨_, _, _, _, _, heq⟩ | ⟨_, _, _, _, _, heq⟩
      · rw [heq] at h; exact Or.inl h
      · rw [heq] at h; exact Or.inl h
      · rw [heq] at h
        have hresolved : (resolved resolution (s.entry b' key').version).status ≠ .running := by
          unfold resolved
          cases resolution.action <;> simp
        exact Or.inl (running_of_setEntry hresolved h)
    | writeControl b' key' value token =>
      change ((s.writeControl b' key' value token).2.entry b key).status = .running at h
      rcases writeControl_cases s b' key' value token with ⟨_, _, heq⟩ | ⟨_, heq⟩
      · rw [heq] at h; exact Or.inl h
      · rw [heq] at h; exact Or.inl (running_of_setEntry (by simp) h)
    | forget b' key' token =>
      change ((s.forget b' key' token).2.entry b key).status = .running at h
      rcases forget_cases s b' key' token with ⟨_, heq⟩ | ⟨_, heq⟩ | ⟨_, heq⟩
      · rw [heq] at h; exact Or.inl h
      · rw [heq] at h; exact Or.inl (running_of_setEntry (by simp) h)
      · rw [heq] at h; exact Or.inl h
    | commitTransition b' transition token =>
      change ((s.commitTransition b' transition token).2.entry b key).status = .running at h
      obtain rfl : b' = b := hb
      unfold commitTransition at h
      rcases fenced_cases s b' token _ with heq | ⟨_, _, heq⟩
      · rw [heq] at h
        split at h
        · exact Or.inl h
        · split at h
          · exact Or.inl h
          · dsimp only at h
            rw [applyInputs_entry] at h
            exact Or.inl (running_of_applyCompleted (running_of_applyControls h))
      · rw [heq] at h
        exact Or.inl h
    | _ => simp [LedgerOp.keys] at hkey

/-! ## Section 3: Recorded decisions -/

theorem applyInputs_decisions (s : MemorySteps V) (b : String) (inputs : List (String × V)) :
    (s.applyInputs b inputs).2.decisions = s.decisions := by
  induction inputs generalizing s with
  | nil => rfl
  | cons item rest ih =>
    unfold applyInputs
    split
    · exact ih s
    · exact ih (s.appendInput b item.1 item.2)

theorem setInputStatus_decisions (s : MemorySteps V) (b inputId : String) (status : InputStatus)
    (allowed : InputStatus → Bool) :
    (s.setInputStatus b inputId status allowed).decisions = s.decisions := by
  unfold setInputStatus
  split
  · split <;> rfl
  · rfl

theorem fenced_decisions {α : Type} {s : MemorySteps V} {b : String} {token : Int}
    {rest : StoreOutcome V α} (h : rest.2.decisions = s.decisions) :
    (s.fenced b token rest).2.decisions = s.decisions := by
  rcases fenced_cases s b token rest with heq | ⟨_, _, heq⟩
  · rw [heq]; exact h
  · rw [heq]

theorem commitTransition_decisions [BEq V] (s : MemorySteps V) (b : String)
    (transition : ExecutionTransition V) (token : Int) :
    (s.commitTransition b transition token).2.decisions = s.decisions := by
  refine fenced_decisions ?_
  split
  · rfl
  · split
    · rfl
    · next completed _ _ =>
      have hcompleted : (s.applyCompleted b completed).decisions = s.decisions := by
        unfold applyCompleted
        exact Machine.foldl_keeps (f := MemorySteps.decisions) (by intro _ _; rfl) s completed
      have hcontrols : ((s.applyCompleted b completed).applyControls b
          transition.controls.items).decisions = (s.applyCompleted b completed).decisions := by
        unfold applyControls
        exact Machine.foldl_keeps (f := MemorySteps.decisions) (by intro _ _; rfl) _ _
      dsimp only
      rw [applyInputs_decisions, hcontrols, hcompleted]

/-- Only `resolve_effect` records a decision. -/
theorem perform_decisions [BEq V] (op : LedgerOp V) (now later : ℚ) (s : MemorySteps V)
    (h : ∀ b key resolution workersStopped token,
      op ≠ .resolveEffect b key resolution workersStopped token) :
    (op.perform now later s).2.decisions = s.decisions := by
  -- One case a method: none of the others writes a decision.
  cases op with
  | resolveEffect b key resolution workersStopped token => exact absurd rfl (h _ _ _ _ _)
  | read | listInputs => rfl
  | start b key token => exact fenced_decisions (by dsimp only; split <;> rfl)
  | finishEffect b key value token =>
    refine fenced_decisions ?_
    dsimp only
    split
    · split <;> rfl
    · split <;> rfl
  | writeControl b key value token => exact fenced_decisions rfl
  | forget b key token => exact fenced_decisions (by dsimp only; split <;> rfl)
  | acquire b owner ttl =>
    change (s.acquire b owner ttl now later).2.decisions = _
    rcases acquire_cases s b owner ttl now later with
      ⟨held, _, _, heq⟩ | ⟨held, _, _, _, heq⟩ | ⟨_, heq⟩ <;> rw [heq]
  | release b owner =>
    change (s.release b owner now).decisions = _
    rcases release_cases s b owner now with ⟨held, _, _, heq⟩ | ⟨_, heq⟩ <;> rw [heq]
  | enqueueInput b inputId value =>
    simp only [LedgerOp.perform, enqueueInput]
    split <;> rfl
  | claimInput b inputId token => exact fenced_decisions (setInputStatus_decisions ..)
  | admitInputs b inputIds token =>
    exact fenced_decisions (Machine.foldl_keeps (f := MemorySteps.decisions)
      (fun s id => setInputStatus_decisions s b id _ _) s inputIds)
  | discardInputs b inputIds token =>
    exact fenced_decisions (Machine.foldl_keeps (f := MemorySteps.decisions)
      (fun s id => setInputStatus_decisions s b id _ _) s inputIds)
  | commitTransition b transition token => exact commitTransition_decisions s b transition token

/-- A decision is recorded about the step it names. -/
theorem perform_decisions_key [BEq V] (op : LedgerOp V) (now later : ℚ)
    (s : MemorySteps V) {b id : String} {payload : ResolutionPayload V}
    (h : op.branchId ≠ b ∨ payload.key ∉ op.keys)
    (hnew : (op.perform now later s).2.decisions.get? (b, id) = some payload) :
    s.decisions.get? (b, id) = some payload := by
  -- A decision is new only through `resolve_effect` of the step that it is about.
  by_cases hresolve : ∃ b key resolution workersStopped token,
      op = .resolveEffect b key resolution workersStopped token
  · obtain ⟨b', key, resolution, workersStopped, token, rfl⟩ := hresolve
    change (s.resolveEffect b' key resolution workersStopped token).2.decisions.get? _ = _ at hnew
    rcases resolveEffect_cases s b' key resolution workersStopped token with
      ⟨_, heq⟩ | ⟨_, _, _, _, _, heq⟩ | ⟨made, hmade, _, _, _, heq⟩
    · rwa [heq] at hnew
    · rwa [heq] at hnew
    · rw [heq] at hnew
      dsimp only at hnew
      rw [Dict.get?_set] at hnew
      split at hnew
      · next hkey =>
        obtain ⟨rfl, _⟩ : b = b' ∧ id = resolution.decisionId := by simpa using hkey
        cases hnew
        rw [resolutionPayload_ok hmade] at h
        simp [LedgerOp.branchId, LedgerOp.keys] at h
      · exact hnew
  · rwa [perform_decisions op now later s fun b key resolution workersStopped token heq =>
      hresolve ⟨b, key, resolution, workersStopped, token, heq⟩] at hnew

/-! ## Section 4: Control state -/

/-- Control state that was applied is read back. -/
theorem applyControls_get {controls : List (String × Option V)} {key : String}
    {value : Option V} (hnodup : (controls.map Prod.fst).Nodup)
    (hfind : Dict.find key controls = some value) (s : MemorySteps V) (b : String) :
    ((s.applyControls b controls).entry b key).status = .done ∧
      ((s.applyControls b controls).entry b key).value = value := by
  -- Induction on the writes: the first one with the key is the last.
  induction controls generalizing s with
  | nil => cases hfind
  | cons item rest ih =>
    obtain ⟨k, v⟩ := item
    have hrest := List.nodup_cons.mp hnodup
    by_cases hk : k = key
    · subst hk
      have hv : v = value := by simpa [Dict.find] using hfind
      subst hv
      -- no later item has the key again
      have hlater : ∀ item ∈ rest, item.1 ≠ k := by
        intro item hitem heq
        exact hrest.1 (List.mem_map.mpr ⟨item, hitem, heq⟩)
      have hentry := applyControls_entry
        (s.setEntry b k { status := .done, value := v, version := (s.entry b k).version + 1 })
        b rest hlater
      change (((s.setEntry b k _).applyControls b rest).entry b k).status = .done ∧
        (((s.setEntry b k _).applyControls b rest).entry b k).value = v
      rw [hentry, entry_setEntry_self]
      exact ⟨rfl, rfl⟩
    · have hfind' : Dict.find key rest = some value := by simpa [Dict.find, hk] using hfind
      exact ih hrest.2 hfind' _

/-- A transition of control state alone. -/
theorem commitTransition_controls [BEq V] (s : MemorySteps V) (b : String)
    (controls : Dict String (Option V)) (token : Int) :
    (token ≠ 0 ∧ token < s.issued b ∧ s.commitTransition b { controls := controls } token
      = (.error (.fenced b token (s.issued b)), s)) ∨
    (¬ (token ≠ 0 ∧ token < s.issued b) ∧
      s.commitTransition b { controls := controls } token
        = (.ok [], s.applyControls b controls.items)) := by
  have hoverlap : overlap ({ controls := controls } : ExecutionTransition V) = [] := by
    simp [overlap]
  unfold commitTransition fenced fence
  by_cases hstale : token ≠ 0 ∧ token < s.issued b
  · exact Or.inl ⟨hstale.1, hstale.2, by rw [if_pos hstale]⟩
  · refine Or.inr ⟨hstale, ?_⟩
    rw [if_neg hstale]
    simp only [planEffects, hoverlap]
    rfl

end MemorySteps

end Semora
