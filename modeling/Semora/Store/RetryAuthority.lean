import Mathlib.Data.Finset.Card
import Mathlib.Data.Finset.Dedup
import Semora.Store.Versions

/-! # Authority to Try Again

    Every start of an effect is paid for: by the authority everybody has over
    a step that was never started, by a `forget` that cleared an attempt, or
    by a decision to retry. A decision is applied once, to the running
    episode whose version it names; sent again it changes nothing, and used
    for anything else it is refused. -/

namespace Semora

variable {V : Type}

/-! ## Section 1: What is counted -/

/-- A call of `start` that answers `True`. -/
def startsStep (b key : String) (s : MemorySteps V) (c : LedgerCall V) : Nat :=
  match c.op with
  | .start b' key' token =>
    if b' = b ∧ key' = key ∧ (s.start b' key' token).1 = .ok true then 1 else 0
  | _ => 0

/-- A call of `forget` that clears a running episode. -/
def clearsStep (b key : String) (s : MemorySteps V) (c : LedgerCall V) : Nat :=
  match c.op with
  | .forget b' key' token =>
    if b' = b ∧ key' = key ∧ (s.entry b key).status = .running ∧
      ((s.forget b' key' token).2.entry b key).status = .absent then 1 else 0
  | _ => 0

/-- A call accepts a decision when it does not raise. -/
def accepts [BEq V] (s : MemorySteps V) (b key : String) (resolution : EffectResolution V)
    (workersStopped : Bool) (token : Int) : Bool :=
  (s.resolveEffect b key resolution workersStopped token).1.isOk

/-- The retry decision about the step that a call accepts. -/
def acceptedRetry [BEq V] (b key : String) (s : MemorySteps V) (c : LedgerCall V) :
    Option String :=
  match c.op with
  | .resolveEffect b' key' resolution workersStopped token =>
    if b' = b ∧ key' = key ∧ resolution.action = .retry ∧
      accepts s b' key' resolution workersStopped token then some resolution.decisionId else none
  | _ => none

/-- The ids of the retry decisions about the step that a history accepts. -/
def acceptedRetries [BEq V] (b key : String) (s : MemorySteps V) :
    List (LedgerCall V) → List String
  | [] => []
  | c :: calls =>
    (acceptedRetry b key s c).toList ++ acceptedRetries b key ((ledger V).step s c).2 calls

theorem acceptedRetries_concat [BEq V] (b key : String) (s : MemorySteps V)
    (calls : List (LedgerCall V)) (c : LedgerCall V) :
    acceptedRetries b key s (calls ++ [c])
      = acceptedRetries b key s calls
        ++ (acceptedRetry b key ((ledger V).after s calls) c).toList := by
  induction calls generalizing s with
  | nil => simp [acceptedRetries]
  | cons d calls ih => simp [acceptedRetries, ih]

/-! ## Section 2: Decisions stay -/

namespace MemorySteps

/-- A decision that is recorded stays recorded as it is. -/
theorem perform_decision_kept [BEq V] (op : LedgerOp V) (now later : ℚ) {s : MemorySteps V}
    {b id : String} {payload : ResolutionPayload V}
    (h : s.decisions.get? (b, id) = some payload) :
    (op.perform now later s).2.decisions.get? (b, id) = some payload := by
  -- Only `resolve_effect` writes decisions.
  by_cases hresolve : ∃ b key resolution workersStopped token,
      op = .resolveEffect b key resolution workersStopped token
  · obtain ⟨b', key, resolution, workersStopped, token, rfl⟩ := hresolve
    show (s.resolveEffect b' key resolution workersStopped token).2.decisions.get? (b, id) = _
    rcases resolveEffect_cases s b' key resolution workersStopped token with
      ⟨_, heq⟩ | ⟨_, _, _, _, _, heq⟩ | ⟨made, _, hnone, _, _, heq⟩
    · rw [heq]
      exact h
    · rw [heq]
      exact h
    · -- the one that is recorded now was not there yet
      have hne : (b, id) ≠ (b', resolution.decisionId) := by
        intro hsame
        rw [hsame, hnone] at h
        cases h
      rw [heq]
      show (s.decisions.set (b', resolution.decisionId) made).get? (b, id) = some payload
      rw [Dict.get?_set_ne _ _ hne]
      exact h
  · rw [perform_decisions op now later s fun b key resolution workersStopped token heq =>
      hresolve ⟨b, key, resolution, workersStopped, token, heq⟩]
    exact h

theorem upTo_decision_kept [BEq V] {s : MemorySteps V} {calls : List (LedgerCall V)} {i j : Nat}
    (hij : i ≤ j) {b id : String} {payload : ResolutionPayload V}
    (h : ((ledger V).upTo s calls i).decisions.get? (b, id) = some payload) :
    ((ledger V).upTo s calls j).decisions.get? (b, id) = some payload := by
  have hstep : ∀ t : MemorySteps V, ∀ c ∈ calls, t.decisions.get? (b, id) = some payload →
      ((ledger V).step t c).2.decisions.get? (b, id) = some payload :=
    fun t c _ hget => perform_decision_kept c.op c.now c.later hget
  have hkept : ((ledger V).upTo s calls i).decisions.get? (b, id) = some payload →
      ((ledger V).upTo s calls j).decisions.get? (b, id) = some payload :=
    (ledger V).upTo_related
      (R := fun t u => t.decisions.get? (b, id) = some payload →
        u.decisions.get? (b, id) = some payload)
      (fun _ h => h) (fun _ _ _ h h' hget => h' (h hget)) hstep s hij
  exact hkept h

/-- Whoever accepts a decision has it recorded afterwards. -/
theorem recorded_of_accepts [BEq V] {s : MemorySteps V} {b key : String}
    {resolution : EffectResolution V} {workersStopped : Bool} {token : Int}
    (h : accepts s b key resolution workersStopped token = true) :
    ∃ payload previous, resolutionPayload key resolution workersStopped = .ok payload ∧
      (s.resolveEffect b key resolution workersStopped token).2.decisions.get?
        (b, resolution.decisionId) = some previous ∧
      (previous = payload ∨ (previous == payload) = true) := by
  unfold accepts at h
  rcases resolveEffect_cases s b key resolution workersStopped token with
    ⟨e, heq⟩ | ⟨payload, previous, hpayload, hget, hsame, heq⟩ |
    ⟨payload, hpayload, _, _, _, heq⟩
  · rw [heq] at h
    cases h
  · refine ⟨payload, previous, hpayload, ?_, Or.inr hsame⟩
    rw [heq]
    exact hget
  · refine ⟨payload, payload, hpayload, ?_, Or.inl rfl⟩
    rw [heq]
    show (s.decisions.set (b, resolution.decisionId) payload).get? _ = some payload
    rw [Dict.get?_set_self]

/-! ## Section 3: Starts are paid for -/

/-- What a step still allows: one start. -/
def credit (b key : String) (s : MemorySteps V) : Nat :=
  if (s.entry b key).status = .absent ∨ (s.entry b key).status = .ready then 1 else 0

/-- The call accepts a retry decision about the step that was not recorded before. -/
def grantsStep [BEq V] (b key : String) (s : MemorySteps V) (c : LedgerCall V) : Nat :=
  match acceptedRetry b key s c with
  | some id => if (s.decisions.get? (b, id)).isNone then 1 else 0
  | none => 0

theorem credit_le_one (b key : String) (s : MemorySteps V) : s.credit b key ≤ 1 := by
  unfold credit
  split <;> omega

theorem credit_congr {b key : String} {s t : MemorySteps V}
    (h : t.entry b key = s.entry b key) : t.credit b key = s.credit b key := by
  unfold credit
  rw [h]

theorem credit_setEntry (s : MemorySteps V) (b key : String) (st : Step V) :
    (s.setEntry b key st).credit b key
      = if st.status = .absent ∨ st.status = .ready then 1 else 0 := by
  unfold credit
  rw [entry_setEntry_self]

theorem credit_done {b key : String} {s : MemorySteps V} (h : (s.entry b key).status = .done) :
    s.credit b key = 0 := by
  simp [credit, h]

theorem applyControls_same_or_done (s : MemorySteps V) (b b' key : String)
    (controls : List (String × Option V)) :
    (s.applyControls b' controls).entry b key = s.entry b key ∨
      ((s.applyControls b' controls).entry b key).status = .done := by
  induction controls using List.reverseRecOn with
  | nil => exact Or.inl rfl
  | append_singleton controls item ih =>
    have hlast : ∃ version, s.applyControls b' (controls ++ [item])
        = (s.applyControls b' controls).setEntry b' item.1
          { status := .done, value := item.2, version := version } :=
      ⟨((s.applyControls b' controls).entry b' item.1).version + 1, by
        simp only [applyControls, List.foldl_append, List.foldl_cons, List.foldl_nil]⟩
    obtain ⟨version, hlast⟩ := hlast
    rw [hlast, entry_setEntry]
    split
    · exact Or.inr rfl
    · exact ih

/-- A transition completes a step or leaves it. -/
theorem commitTransition_same_or_done [BEq V] (s : MemorySteps V) (b key : String)
    (transition : ExecutionTransition V) (token : Int) :
    (s.commitTransition b transition token).2.entry b key = s.entry b key ∨
      ((s.commitTransition b transition token).2.entry b key).status = .done := by
  unfold commitTransition
  rcases fenced_cases s b token _ with heq | ⟨_, _, heq⟩
  · rw [heq]
    split
    · exact Or.inl rfl
    · next completed _ =>
      split
      · exact Or.inl rfl
      · dsimp only
        rw [applyInputs_entry]
        rcases applyControls_same_or_done (s.applyCompleted b completed) b b key
          transition.controls.items with hsame | hdone
        · rw [hsame]
          rcases applyCompleted_cases s b b completed key with hleft | ⟨_, _, _, _, hitem⟩
          · exact Or.inl hleft
          · exact Or.inr (by rw [hitem])
        · exact Or.inr hdone
  · rw [heq]
    exact Or.inl rfl

/-- What is neither `start` nor `forget` nor `resolve_effect` completes a step or leaves it. -/
theorem perform_same_or_done [BEq V] (op : LedgerOp V) (now later : ℚ) (s : MemorySteps V)
    (b key : String) (hstart : ∀ b key token, op ≠ .start b key token)
    (hforget : ∀ b key token, op ≠ .forget b key token)
    (hresolve : ∀ b key resolution workersStopped token,
      op ≠ .resolveEffect b key resolution workersStopped token) :
    (op.perform now later s).2.entry b key = s.entry b key ∨
      ((op.perform now later s).2.entry b key).status = .done := by
  -- The method names the step, or leaves it.
  by_cases hop : op.branchId ≠ b ∨ key ∉ op.keys
  · exact Or.inl (perform_entry op now later s hop)
  · obtain ⟨hb, hkey⟩ : op.branchId = b ∧ key ∈ op.keys := by
      simpa only [not_or, not_not] using hop
    -- Three methods are excluded; the other three leave the step as it is, or make it done.
    cases op with
    | start b' key' token => exact absurd rfl (hstart _ _ _)
    | forget b' key' token => exact absurd rfl (hforget _ _ _)
    | resolveEffect b' key' resolution ws token => exact absurd rfl (hresolve _ _ _ _ _)
    | finishEffect b' key' value token =>
      obtain ⟨rfl, rfl⟩ : b' = b ∧ key = key' := by
        simpa [LedgerOp.branchId, LedgerOp.keys] using And.intro hb hkey
      show (s.finishEffect b' key value token).2.entry b' key = _ ∨
        ((s.finishEffect b' key value token).2.entry b' key).status = .done
      rcases finishEffect_cases s b' key value token with ⟨_, heq⟩ | ⟨_, _, heq⟩ | ⟨_, heq⟩
      · rw [heq]; exact Or.inl rfl
      · rw [heq]; exact Or.inl rfl
      · rw [heq, entry_setEntry_self]; exact Or.inr rfl
    | writeControl b' key' value token =>
      obtain ⟨rfl, rfl⟩ : b' = b ∧ key = key' := by
        simpa [LedgerOp.branchId, LedgerOp.keys] using And.intro hb hkey
      show (s.writeControl b' key value token).2.entry b' key = _ ∨
        ((s.writeControl b' key value token).2.entry b' key).status = .done
      rcases writeControl_cases s b' key value token with ⟨_, _, heq⟩ | ⟨_, heq⟩
      · rw [heq]; exact Or.inl rfl
      · rw [heq, entry_setEntry_self]; exact Or.inr rfl
    | commitTransition b' transition token =>
      obtain rfl : b' = b := hb
      exact commitTransition_same_or_done s b' key transition token
    | _ => simp [LedgerOp.keys] at hkey

theorem credit_same_or_done {b key : String} {s t : MemorySteps V}
    (h : t.entry b key = s.entry b key ∨ (t.entry b key).status = .done) :
    t.credit b key ≤ s.credit b key := by
  rcases h with hsame | hdone
  · exact Nat.le_of_eq (credit_congr hsame)
  · rw [credit_done hdone]
    exact Nat.zero_le _

theorem step_credit_other [BEq V] (b key : String) (s : MemorySteps V) (op : LedgerOp V)
    (now later : ℚ) (hstart : ∀ b key token, op ≠ .start b key token)
    (hforget : ∀ b key token, op ≠ .forget b key token)
    (hresolve : ∀ b key resolution workersStopped token,
      op ≠ .resolveEffect b key resolution workersStopped token) :
    startsStep b key s ⟨op, now, later⟩ + (((ledger V).step s ⟨op, now, later⟩).2.credit b key)
      ≤ s.credit b key
        + (clearsStep b key s ⟨op, now, later⟩ + grantsStep b key s ⟨op, now, later⟩) := by
  have hnone : startsStep b key s ⟨op, now, later⟩ = 0 := by
    unfold startsStep
    split
    · next heq => exact absurd heq (hstart _ _ _)
    · rfl
  have hle : (op.perform now later s).2.credit b key ≤ s.credit b key :=
    credit_same_or_done (perform_same_or_done op now later s b key hstart hforget hresolve)
  show startsStep b key s ⟨op, now, later⟩ + (op.perform now later s).2.credit b key ≤ _
  omega

/-- A call about another step starts nothing of this one, and leaves its credit. -/
theorem step_credit_elsewhere [BEq V] {b key : String} (s : MemorySteps V) {op : LedgerOp V}
    (now later : ℚ) (hop : op.branchId ≠ b ∨ key ∉ op.keys) :
    startsStep b key s ⟨op, now, later⟩ + (op.perform now later s).2.credit b key
      = s.credit b key := by
  rw [credit_congr (perform_entry op now later s hop)]
  cases op with
  | start b' key' token =>
    have hnot : ¬ (b' = b ∧ key' = key ∧ (s.start b' key' token).1 = .ok true) := by
      rintro ⟨rfl, rfl, -⟩
      rcases hop with hb | hkey
      · exact hb rfl
      · exact hkey (List.mem_singleton_self _)
    unfold startsStep
    dsimp only
    rw [if_neg hnot, Nat.zero_add]
  | _ => exact Nat.zero_add _

/-- `start`: a start spends the credit of the step. -/
theorem start_credit [BEq V] (s : MemorySteps V) (b key : String) (token : Int) (now later : ℚ) :
    startsStep b key s ⟨.start b key token, now, later⟩ + (s.start b key token).2.credit b key
      ≤ s.credit b key := by
  unfold startsStep
  dsimp only
  rcases start_cases s b key token with ⟨_, heq⟩ | heq | ⟨hrunning, hdone, heq⟩
  · -- refused
    rw [heq]
    simp
  · -- already started
    rw [heq]
    simp
  · -- Begun: the one credit of a startable step is spent.
    have hcredit : s.credit b key = 1 := by
      unfold credit
      cases hstatus : (s.entry b key).status with
      | absent => simp
      | ready => simp
      | running => exact absurd hstatus hrunning
      | done => exact absurd hstatus hdone
    have hspent : (s.start b key token).2.credit b key = 0 := by
      rw [heq]
      dsimp only
      rw [credit_setEntry]
      simp
    rw [hcredit, hspent]
    split <;> omega

/-- `forget`: a step that it gives its credit back was running, and is cleared. -/
theorem forget_credit (s : MemorySteps V) (b key : String) (token : Int) (now later : ℚ) :
    (s.forget b key token).2.credit b key
      ≤ s.credit b key + clearsStep b key s ⟨.forget b key token, now, later⟩ := by
  rcases forget_cases s b key token with ⟨_, heq⟩ | ⟨hrunning, heq⟩ | ⟨_, heq⟩
  · rw [heq]
    exact Nat.le_add_right _ _
  · have hcleared : clearsStep b key s ⟨.forget b key token, now, later⟩ = 1 := by
      unfold clearsStep
      dsimp only
      rw [heq, entry_setEntry_self]
      simp [hrunning]
    rw [hcleared]
    exact (credit_le_one b key _).trans (Nat.le_add_left _ _)
  · rw [heq]
    exact Nat.le_add_right _ _

/-- `resolve_effect`: only a retry decision that was not recorded gives a step credit. -/
theorem resolveEffect_credit [BEq V] (s : MemorySteps V) (b key : String)
    (resolution : EffectResolution V) (workersStopped : Bool) (token : Int) (now later : ℚ) :
    (s.resolveEffect b key resolution workersStopped token).2.credit b key
      ≤ s.credit b key
        + grantsStep b key s
            ⟨.resolveEffect b key resolution workersStopped token, now, later⟩ := by
  rcases resolveEffect_cases s b key resolution workersStopped token with
    ⟨_, heq⟩ | ⟨_, _, _, _, _, heq⟩ | ⟨_, _, hnone, _, _, heq⟩
  · rw [heq]
    exact Nat.le_add_right _ _
  · -- the decision was recorded before
    rw [heq]
    exact Nat.le_add_right _ _
  · cases haction : resolution.action with
    -- A result: the step is done, and has no credit left.
    | complete =>
      have hdone : ((s.resolveEffect b key resolution workersStopped token).2.entry b
          key).status = .done := by
        rw [heq]
        refine (congrArg Step.status (entry_setEntry_self ..)).trans ?_
        simp [resolved, haction]
      rw [credit_done hdone]
      exact Nat.zero_le _
    -- A retry grants the one credit there can be.
    | retry =>
      have hgranted : grantsStep b key s
          ⟨.resolveEffect b key resolution workersStopped token, now, later⟩ = 1 := by
        simp [grantsStep, acceptedRetry, accepts, haction, heq, hnone, Except.isOk,
          Except.toBool]
      rw [hgranted]
      exact (credit_le_one b key _).trans (Nat.le_add_left _ _)

/-- One call: what is started is paid for. -/
theorem step_credit [BEq V] (b key : String) (s : MemorySteps V) (c : LedgerCall V) :
    startsStep b key s c + (((ledger V).step s c).2.credit b key)
      ≤ s.credit b key + (clearsStep b key s c + grantsStep b key s c) := by
  obtain ⟨op, now, later⟩ := c
  show startsStep b key s _ + (op.perform now later s).2.credit b key ≤ _
  by_cases hop : op.branchId ≠ b ∨ key ∉ op.keys
  · rw [step_credit_elsewhere s now later hop]
    exact Nat.le_add_right _ _
  obtain ⟨hb, hkey⟩ : op.branchId = b ∧ key ∈ op.keys := by
    simpa only [not_or, not_not] using hop
  -- three methods move the credit of the step they are about
  cases op with
  | start b' key' token =>
    obtain ⟨rfl, rfl⟩ : b' = b ∧ key = key' := ⟨hb, List.mem_singleton.mp hkey⟩
    exact (start_credit s b' key token now later).trans (Nat.le_add_right _ _)
  | forget b' key' token =>
    obtain ⟨rfl, rfl⟩ : b' = b ∧ key = key' := ⟨hb, List.mem_singleton.mp hkey⟩
    have hcredit := forget_credit s b' key token now later
    show 0 + (s.forget b' key token).2.credit b' key ≤ _
    omega
  | resolveEffect b' key' resolution workersStopped token =>
    obtain ⟨rfl, rfl⟩ : b' = b ∧ key = key' := ⟨hb, List.mem_singleton.mp hkey⟩
    have hcredit := resolveEffect_credit s b' key resolution workersStopped token now later
    show 0 + (s.resolveEffect b' key resolution workersStopped token).2.credit b' key ≤ _
    omega
  | _ =>
    exact step_credit_other b key s _ now later (by simp) (by simp) (by simp)

/-- Whoever accepts a retry decision has it recorded afterwards. -/
theorem recorded_of_acceptedRetry [BEq V] {b key : String} {s : MemorySteps V}
    {c : LedgerCall V} {id : String} (h : acceptedRetry b key s c = some id) :
    (((ledger V).step s c).2.decisions.get? (b, id)).isSome := by
  obtain ⟨op, now, later⟩ := c
  cases op with
  | resolveEffect b' key' resolution workersStopped token =>
    unfold acceptedRetry at h
    dsimp only at h
    split at h
    · next haccepts =>
      obtain ⟨rfl, rfl, _, haccepts⟩ := haccepts
      obtain rfl := Option.some.inj h
      obtain ⟨_, _, _, hget, _⟩ := recorded_of_accepts haccepts
      show ((s.resolveEffect b' key' resolution workersStopped token).2.decisions.get? _).isSome
      rw [hget]
      rfl
    · cases h
  | _ => cases h

/-- Every grant of a run is a retry decision of its own, and is recorded. -/
theorem grants_le_retries [BEq V] (b key : String) (s : MemorySteps V)
    (calls : List (LedgerCall V)) :
    (ledger V).tally (grantsStep b key) s calls ≤ (acceptedRetries b key s calls).toFinset.card ∧
      ∀ id ∈ acceptedRetries b key s calls,
        (((ledger V).after s calls).decisions.get? (b, id)).isSome := by
  -- Induction on the calls, with every accepted id known to the ledger.
  induction calls using List.reverseRecOn with
  | nil => exact ⟨Nat.zero_le _, fun id hid => by simp [acceptedRetries] at hid⟩
  | append_singleton calls c ih =>
    obtain ⟨hcount, hrecorded⟩ := ih
    have hkept : ∀ id ∈ acceptedRetries b key s calls,
        (((ledger V).after s (calls ++ [c])).decisions.get? (b, id)).isSome := by
      intro id hid
      obtain ⟨payload, hpayload⟩ := Option.isSome_iff_exists.mp (hrecorded id hid)
      rw [Machine.after_concat]
      have hstays := perform_decision_kept c.op c.now c.later hpayload
      exact Option.isSome_iff_exists.mpr ⟨payload, hstays⟩
    rw [Machine.tally_concat, acceptedRetries_concat]
    cases hretry : acceptedRetry b key ((ledger V).after s calls) c with
    | none =>
      have hgrant : grantsStep b key ((ledger V).after s calls) c = 0 := by
        simp [grantsStep, hretry]
      simp only [Option.toList_none, List.append_nil]
      exact ⟨by omega, hkept⟩
    | some id =>
      refine ⟨?_, ?_⟩
      · rw [Option.toList_some, List.toFinset_append]
        by_cases hold : id ∈ acceptedRetries b key s calls
        · -- sent again, it grants nothing
          have hsome := hrecorded id hold
          have hgrant : grantsStep b key ((ledger V).after s calls) c = 0 := by
            unfold grantsStep
            rw [hretry]
            simp only [Option.isNone_iff_eq_none]
            rw [if_neg]
            intro hnone
            rw [hnone] at hsome
            cases hsome
          have hsub : (acceptedRetries b key s calls).toFinset
              ⊆ (acceptedRetries b key s calls).toFinset ∪ [id].toFinset :=
            Finset.subset_union_left
          have hcard := Finset.card_le_card hsub
          omega
        · have hgrant : grantsStep b key ((ledger V).after s calls) c ≤ 1 := by
            unfold grantsStep
            rw [hretry]
            dsimp only
            split <;> omega
          -- A new id: one more grant, one more element.
          have hnew : id ∉ (acceptedRetries b key s calls).toFinset := by
            rwa [List.mem_toFinset]
          have hunion : (acceptedRetries b key s calls).toFinset ∪ [id].toFinset
              = insert id (acceptedRetries b key s calls).toFinset := by
            ext x
            simp
          rw [hunion, Finset.card_insert_of_notMem hnew]
          omega
      · intro id' hid'
        rcases List.mem_append.mp hid' with hold | hnew
        · exact hkept id' hold
        · obtain rfl : id' = id := by simpa using hnew
          rw [Machine.after_concat]
          exact recorded_of_acceptedRetry hretry

/-- The starts of a run are paid for. -/
theorem starts_le [BEq V] (b key : String) (s : MemorySteps V) (calls : List (LedgerCall V)) :
    (ledger V).tally (startsStep b key) s calls
      ≤ 1 + (ledger V).tally (clearsStep b key) s calls
        + (acceptedRetries b key s calls).toFinset.card := by
  have hpaid := (ledger V).tally_le (step_credit b key) s calls
  have hgrants := (grants_le_retries b key s calls).1
  have hcredit := s.credit_le_one b key
  have hsum : (ledger V).tally (fun s c => clearsStep b key s c + grantsStep b key s c) s calls
      = (ledger V).tally (clearsStep b key) s calls + (ledger V).tally (grantsStep b key) s calls :=
    (ledger V).tally_add _ _ s calls
  omega

end MemorySteps

/-! ## Section 4: Decisions in a run -/

section decisions

/-- The state of the ledger before call `i` of a run from a fresh one. -/
def before [BEq V] (calls : List (LedgerCall V)) (i : Nat) : MemorySteps V :=
  (ledger V).upTo MemorySteps.init calls i

/-- Before call `j`, a call of the run was accepted with this decision about the step. -/
def AcceptedBefore [BEq V] (calls : List (LedgerCall V)) (b key : String)
    (resolution : EffectResolution V) (j : Nat) : Prop :=
  ∃ i workersStopped token now later, i < j ∧
    calls[i]? = some ⟨.resolveEffect b key resolution workersStopped token, now, later⟩ ∧
    accepts (before calls i) b key resolution workersStopped token = true

/-- Call `i` of the run delivers a decision under this id and changes the ledger. -/
def AppliesAt [BEq V] (calls : List (LedgerCall V)) (b id : String) (i : Nat) : Prop :=
  ∃ key resolution workersStopped token now later,
    calls[i]? = some ⟨.resolveEffect b key resolution workersStopped token, now, later⟩ ∧
    resolution.decisionId = id ∧
    ((before calls i).resolveEffect b key resolution workersStopped token).2 ≠ before calls i

/-- The same key and the same parameters, values compared as the ledger compares them. -/
def SameParameters [BEq V] (key : String) (resolution : EffectResolution V) (key' : String)
    (resolution' : EffectResolution V) : Prop :=
  key' = key ∧ resolution'.action = resolution.action ∧
    resolution'.expectedVersion = resolution.expectedVersion ∧
    resolution'.reason = resolution.reason ∧ (resolution'.value == resolution.value) = true ∧
    resolution'.providerKey = resolution.providerKey

/-- The caller presents no token or one that is not stale. -/
def Unfenced (s : MemorySteps V) (b : String) (token : Int) : Prop :=
  ¬ (token ≠ 0 ∧ token < s.issued b)

/-- The ledger moved nothing but one step and the record of one decision. -/
structure OnlyDecided (s s' : MemorySteps V) (b key id : String) : Prop where
  steps : ∀ b' key', ¬ (b' = b ∧ key' = key) → s'.entry b' key' = s.entry b' key'
  decisions : ∀ b' id', ¬ (b' = b ∧ id' = id) →
    s'.decisions.get? (b', id') = s.decisions.get? (b', id')
  leases : s'.leases = s.leases ∧ s'.tokens = s.tokens
  inputs : s'.inputs = s.inputs ∧ s'.inputSequence = s.inputSequence

/-- What retry authority a branch's decisions give, over a whole run. -/
structure RetryAuthority [BEq V] (calls : List (LedgerCall V)) (b : String) : Prop where
  /-- Starts are paid for by the first authority, by clearing an attempt, and by decisions. -/
  starts : ∀ key, (ledger V).tally (startsStep b key) MemorySteps.init calls
    ≤ 1 + (ledger V).tally (clearsStep b key) MemorySteps.init calls
      + (acceptedRetries b key MemorySteps.init calls).toFinset.card
  /-- A decision is applied at most once. -/
  once : ∀ id i j, i < j → AppliesAt calls b id i → ¬ AppliesAt calls b id j
  /-- Sent again it answers with the step and changes nothing. -/
  redelivered : ∀ key resolution j, AcceptedBefore calls b key resolution j →
    ∀ token, Unfenced (before calls j) b token →
      (before calls j).resolveEffect b key resolution true token
        = (.ok ((before calls j).read b key), before calls j)
  /-- Its id used for anything else is refused. -/
  misused : ∀ key resolution j, AcceptedBefore calls b key resolution j →
    ∀ key' resolution' workersStopped token, resolution'.decisionId = resolution.decisionId →
      ¬ (SameParameters key resolution key' resolution' ∧ workersStopped = true) →
      ∃ e, (before calls j).resolveEffect b key' resolution' workersStopped token
        = (.error e, before calls j)
  /-- A new decision that names another version, or a step that is not running, is refused. -/
  stale : ∀ key resolution j,
    (∀ key' resolution', AcceptedBefore calls b key' resolution' j →
      resolution'.decisionId ≠ resolution.decisionId) →
    ¬ (((before calls j).entry b key).status = .running ∧
      (((before calls j).entry b key).version : Int) = resolution.expectedVersion) →
    ∀ workersStopped token, ∃ e, (before calls j).resolveEffect b key resolution workersStopped token
      = (.error e, before calls j)
  /-- What a decision changes is the running episode it names. -/
  acts : ∀ key resolution workersStopped token j s',
    ((before calls j).resolveEffect b key resolution workersStopped token).2 = s' →
    s' ≠ before calls j →
    ((before calls j).entry b key).status = .running ∧
      (((before calls j).entry b key).version : Int) = resolution.expectedVersion ∧
      OnlyDecided (before calls j) s' b key resolution.decisionId

theorem ResolutionPayload.beq_iff [BEq V] (p q : ResolutionPayload V) :
    (p == q) = true ↔ p.key = q.key ∧ p.action = q.action ∧
      p.expectedVersion = q.expectedVersion ∧ p.reason = q.reason ∧
      (p.value == q.value) = true ∧ p.providerKey = q.providerKey := by
  obtain ⟨key, action, version, reason, value, provider⟩ := p
  obtain ⟨key', action', version', reason', value', provider'⟩ := q
  show instBEqResolutionPayload.beq _ _ = true ↔ _
  simp [instBEqResolutionPayload.beq]

theorem option_beq_symm [BEq V] [EquivBEq V] {v w : Option V} (h : (v == w) = true) :
    (w == v) = true := by
  cases v with
  | none => cases w with
    | none => rfl
    | some w => cases h
  | some v => cases w with
    | none => cases h
    | some w =>
      have hvw : (v == w) = true := by simpa using h
      simpa using BEq.symm hvw

theorem option_beq_trans [BEq V] [EquivBEq V] {u v w : Option V} (h : (u == v) = true)
    (h' : (v == w) = true) : (u == w) = true := by
  cases u with
  | none => cases v with
    | none => exact h'
    | some v => cases h
  | some u => cases v with
    | none => cases h
    | some v => cases w with
      | none => cases h'
      | some w =>
        have huv : (u == v) = true := by simpa using h
        have hvw : (v == w) = true := by simpa using h'
        simpa using BEq.trans huv hvw

/-- Parameters that are recorded alike are the same. -/
theorem sameParameters_of_recorded [BEq V] [EquivBEq V] {key key' : String}
    {resolution resolution' : EffectResolution V} {workersStopped workersStopped' : Bool}
    {payload payload' previous : ResolutionPayload V}
    (hpayload : resolutionPayload key resolution workersStopped = .ok payload)
    (hpayload' : resolutionPayload key' resolution' workersStopped' = .ok payload')
    (hprevious : previous = payload ∨ (previous == payload) = true)
    (hsame : (previous == payload') = true) : SameParameters key resolution key' resolution' := by
  have hmade := MemorySteps.resolutionPayload_ok hpayload
  have hmade' := MemorySteps.resolutionPayload_ok hpayload'
  obtain ⟨hkey', haction', hversion', hreason', hvalue', hprovider'⟩ :=
    (ResolutionPayload.beq_iff _ _).mp hsame
  subst hmade'
  rcases hprevious with rfl | hprevious
  · subst hmade
    exact ⟨hkey'.symm, haction'.symm, hversion'.symm, hreason'.symm, option_beq_symm hvalue',
      hprovider'.symm⟩
  · obtain ⟨hkey, haction, hversion, hreason, hvalue, hprovider⟩ :=
      (ResolutionPayload.beq_iff _ _).mp hprevious
    subst hmade
    exact ⟨hkey'.symm.trans hkey, haction'.symm.trans haction, hversion'.symm.trans hversion,
      hreason'.symm.trans hreason, option_beq_trans (option_beq_symm hvalue') hvalue,
      hprovider'.symm.trans hprovider⟩

theorem workersStopped_of_payload {key : String} {resolution : EffectResolution V}
    {workersStopped : Bool} {payload : ResolutionPayload V}
    (h : resolutionPayload key resolution workersStopped = .ok payload) :
    workersStopped = true := by
  unfold resolutionPayload at h
  by_cases hstopped : workersStopped = true
  · exact hstopped
  · rw [if_pos hstopped] at h
    cases h

/-- The next moment of a run. -/
theorem before_succ [BEq V] {calls : List (LedgerCall V)} {i : Nat} {c : LedgerCall V}
    (h : calls[i]? = some c) :
    before calls (i + 1) = (c.op.perform c.now c.later (before calls i)).2 :=
  (ledger V).upTo_succ MemorySteps.init h

/-- An accepted decision is on record ever after. -/
theorem AcceptedBefore.recorded [BEq V] {calls : List (LedgerCall V)} {b key : String}
    {resolution : EffectResolution V} {j : Nat} (h : AcceptedBefore calls b key resolution j) :
    ∃ payload previous, resolutionPayload key resolution true = .ok payload ∧
      (before calls j).decisions.get? (b, resolution.decisionId) = some previous ∧
      (previous = payload ∨ (previous == payload) = true) := by
  obtain ⟨i, workersStopped, token, now, later, hij, hcall, haccepts⟩ := h
  obtain ⟨payload, previous, hpayload, hget, hsame⟩ := MemorySteps.recorded_of_accepts haccepts
  obtain rfl := workersStopped_of_payload hpayload
  have hnext : (before calls (i + 1)).decisions.get? (b, resolution.decisionId)
      = some previous := by
    rw [before_succ hcall]
    exact hget
  exact ⟨payload, previous, hpayload, MemorySteps.upTo_decision_kept hij hnext, hsame⟩

/-- What is on record was accepted before. -/
theorem acceptedBefore_of_recorded [BEq V] {calls : List (LedgerCall V)} {b id : String}
    {j : Nat} (h : ((before calls j).decisions.get? (b, id)).isSome) :
    ∃ key resolution, AcceptedBefore calls b key resolution j ∧ resolution.decisionId = id := by
  induction j with
  | zero => cases h
  | succ j ih =>
    have hlater : (∃ key resolution, AcceptedBefore calls b key resolution j ∧
        resolution.decisionId = id) →
        ∃ key resolution, AcceptedBefore calls b key resolution (j + 1) ∧
          resolution.decisionId = id := by
      rintro ⟨key, resolution, ⟨i, ws, token, now, later, hij, hcall, haccepts⟩, hid⟩
      exact ⟨key, resolution, ⟨i, ws, token, now, later, by omega, hcall, haccepts⟩, hid⟩
    cases hc : calls[j]? with
    | none =>
      have hsame : before calls (j + 1) = before calls j :=
        (ledger V).upTo_of_none MemorySteps.init hc
      rw [hsame] at h
      exact hlater (ih h)
    | some c =>
      obtain ⟨op, now, later⟩ := c
      rw [before_succ hc] at h
      -- The last call recorded it, or it was recorded before.
      by_cases hresolve : ∃ b key resolution workersStopped token,
          op = .resolveEffect b key resolution workersStopped token
      · obtain ⟨b', key, resolution, workersStopped, token, rfl⟩ := hresolve
        rcases MemorySteps.resolveEffect_cases (before calls j) b' key resolution workersStopped
          token with ⟨_, heq⟩ | ⟨_, _, _, _, _, heq⟩ | ⟨made, _, _, _, _, heq⟩
        · refine hlater (ih ?_)
          have hkept : ((before calls j).resolveEffect b' key resolution workersStopped token).2
              = before calls j := by rw [heq]
          rw [← hkept]
          exact h
        · refine hlater (ih ?_)
          have hkept : ((before calls j).resolveEffect b' key resolution workersStopped token).2
              = before calls j := by rw [heq]
          rw [← hkept]
          exact h
        · -- The decision made now is this one, or another.
          by_cases hid : (b, id) = (b', resolution.decisionId)
          · obtain ⟨rfl, rfl⟩ := Prod.mk.inj hid
            refine ⟨key, resolution, ⟨j, workersStopped, token, now, later, by omega, hc, ?_⟩,
              rfl⟩
            unfold accepts
            rw [heq]
            rfl
          · refine hlater (ih ?_)
            have hget : ((before calls j).resolveEffect b' key resolution workersStopped
                token).2.decisions.get? (b, id) = (before calls j).decisions.get? (b, id) := by
              rw [heq]
              exact Dict.get?_set_ne _ _ hid
            rw [← hget]
            exact h
      · have hkept := MemorySteps.perform_decisions op now later (before calls j)
          fun b key resolution ws token heq => hresolve ⟨b, key, resolution, ws, token, heq⟩
        rw [hkept] at h
        exact hlater (ih h)

/-- A call that changes the ledger applies a decision that was not on record. -/
theorem applied_of_changed [BEq V] {s : MemorySteps V} {b key : String}
    {resolution : EffectResolution V} {workersStopped : Bool} {token : Int}
    (h : (s.resolveEffect b key resolution workersStopped token).2 ≠ s) :
    s.decisions.get? (b, resolution.decisionId) = none ∧
      (s.entry b key).status = .running ∧
      ((s.entry b key).version : Int) = resolution.expectedVersion ∧
      OnlyDecided s (s.resolveEffect b key resolution workersStopped token).2 b key
        resolution.decisionId ∧
      ((s.resolveEffect b key resolution workersStopped token).2.decisions.get?
        (b, resolution.decisionId)).isSome := by
  rcases MemorySteps.resolveEffect_cases s b key resolution workersStopped token with
    ⟨_, heq⟩ | ⟨_, _, _, _, _, heq⟩ | ⟨made, _, hnone, hrunning, hversion, heq⟩
  · rw [heq] at h
    exact absurd rfl h
  · rw [heq] at h
    exact absurd rfl h
  · -- Only the third case changes anything: the step and the decision, and nothing else.
    refine ⟨hnone, hrunning, hversion, ?_, ?_⟩
    · rw [heq]
      refine ⟨?_, ?_, ⟨rfl, rfl⟩, ⟨rfl, rfl⟩⟩
      · intro b' key' hother
        show (s.setEntry b key _).entry b' key' = _
        rw [MemorySteps.entry_setEntry, if_neg hother]
      · intro b' id' hother
        refine Dict.get?_set_ne _ _ ?_
        intro hsame
        exact hother (Prod.mk.inj hsame)
    · rw [heq]
      show ((s.decisions.set (b, resolution.decisionId) made).get? _).isSome
      rw [Dict.get?_set_self]
      rfl

/-- A call that was not fenced looks its decision up. -/
theorem resolveEffect_unfenced [BEq V] {s : MemorySteps V} {b key : String}
    {resolution : EffectResolution V} {token : Int} {payload previous : ResolutionPayload V}
    (hfree : Unfenced s b token) (hpayload : resolutionPayload key resolution true = .ok payload)
    (hget : s.decisions.get? (b, resolution.decisionId) = some previous)
    (hsame : (previous == payload) = true) :
    s.resolveEffect b key resolution true token = (.ok (s.read b key), s) := by
  unfold MemorySteps.resolveEffect MemorySteps.fenced MemorySteps.fence
  rw [if_neg hfree]
  simp only [hpayload, hget, bne, hsame, Bool.not_true, Bool.false_eq_true, if_false]

/-- **Retry authority is granted exactly once per decision**, over every run from a fresh
    ledger: whatever is called, in whatever order, by whatever token. Decisions are compared as the
    ledger does, by `==` of what it records of them, so `==` is asked to be an equivalence. -/
theorem retry_authority_once [BEq V] [EquivBEq V] (calls : List (LedgerCall V)) (b : String) :
    RetryAuthority calls b where
  starts key := MemorySteps.starts_le b key MemorySteps.init calls
  once := by
    rintro id i j hij ⟨key, resolution, ws, token, now, later, hcall, hid, hchanged⟩
      ⟨key', resolution', ws', token', now', later', hcall', hid', hchanged'⟩
    obtain ⟨_, _, _, _, hrecorded⟩ := applied_of_changed hchanged
    have hnone := (applied_of_changed hchanged').1
    obtain ⟨payload, hpayload⟩ := Option.isSome_iff_exists.mp hrecorded
    -- The first application recorded the id, and a recorded id is never free again.
    have hnext : (before calls (i + 1)).decisions.get? (b, resolution.decisionId)
        = some payload := by
      rw [before_succ hcall]
      exact hpayload
    have hstays : (before calls j).decisions.get? (b, resolution.decisionId) = some payload :=
      MemorySteps.upTo_decision_kept hij hnext
    rw [hid', ← hid, hstays] at hnone
    cases hnone
  redelivered := by
    intro key resolution j haccepted token hfree
    obtain ⟨payload, previous, hpayload, hget, hsame⟩ := haccepted.recorded
    have hbeq : (previous == payload) = true := by
      -- Sent again with the same fields: recorded, and answered with what it came to.
      rcases hsame with rfl | hsame
      · refine (ResolutionPayload.beq_iff _ _).mpr ⟨rfl, rfl, rfl, rfl, ?_, rfl⟩
        exact BEq.rfl
      · exact hsame
    exact resolveEffect_unfenced hfree hpayload hget hbeq
  misused := by
    intro key resolution j haccepted key' resolution' ws token hid hother
    obtain ⟨payload, previous, hpayload, hget, hsame⟩ := haccepted.recorded
    rcases MemorySteps.resolveEffect_cases (before calls j) b key' resolution' ws token with
      ⟨e, heq⟩ | ⟨payload', found, hpayload', hfound, hbeq, _⟩ | ⟨_, _, hnone, _⟩
    · exact ⟨e, heq⟩
    · rw [hid, hget] at hfound
      obtain rfl := Option.some.inj hfound
      have hparameters := sameParameters_of_recorded hpayload hpayload' hsame hbeq
      exact absurd ⟨hparameters, workersStopped_of_payload hpayload'⟩ hother
    · rw [hid, hget] at hnone
      cases hnone
  stale := by
    intro key resolution j hnew hstale ws token
    rcases MemorySteps.resolveEffect_cases (before calls j) b key resolution ws token with
      ⟨e, heq⟩ | ⟨_, previous, _, hget, _, _⟩ | ⟨_, _, _, hrunning, hversion, _⟩
    · exact ⟨e, heq⟩
    · have hsome : ((before calls j).decisions.get? (b, resolution.decisionId)).isSome := by
        rw [hget]
        rfl
      obtain ⟨key', resolution', haccepted, hid⟩ := acceptedBefore_of_recorded hsome
      exact absurd hid (hnew key' resolution' haccepted)
    · exact absurd ⟨hrunning, hversion⟩ hstale
  acts := by
    rintro key resolution ws token j s' rfl hchanged
    obtain ⟨_, hrunning, hversion, honly, _⟩ := applied_of_changed hchanged
    exact ⟨hrunning, hversion, honly⟩

/-- An attempt, a decision to retry it that is delivered twice, and another attempt. -/
def retriedOnce : List (LedgerCall Nat) :=
  [⟨.start "b" "k" 0, 0, 0⟩,
    ⟨.resolveEffect "b" "k" ⟨.retry, "d", 1, "lost", none, none⟩ true 0, 0, 0⟩,
    ⟨.resolveEffect "b" "k" ⟨.retry, "d", 1, "lost", none, none⟩ true 0, 0, 0⟩,
    ⟨.start "b" "k" 0, 0, 0⟩]

theorem retry_authority_once_retried :
    (ledger Nat).tally (startsStep "b" "k") MemorySteps.init retriedOnce = 2 ∧
      RetryAuthority retriedOnce "b" :=
  ⟨by decide +kernel, retry_authority_once retriedOnce "b"⟩

end decisions

end Semora
