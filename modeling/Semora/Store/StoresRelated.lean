import Semora.Store.Holding
import Semora.Store.PostgresSerial

/-! # Two Ledgers, One Specification

    `MemorySteps` and `PostgresSteps`, from nothing, through the same calls
    and by the same clock. The simulation relates the four tables with the
    dictionaries they stand for; a call that raises leaves both as they were.

    A released lease is the one place where the ledgers store different
    things: the one ends it now, the other at the beginning of time. Both are
    over by the next reading of the clock. -/

namespace Semora

open ReadCommitted MemorySteps

/-! ## Section 1: What is to be proved -/

section property

variable {V : Type}

/-- A step as the two ledgers return it. -/
structure SameStep (step : Step V) (step' : PgStep V) : Prop where
  status : step.status = step'.status
  value : step.value = step'.value
  version : (step.version : Int) = step'.version

/-- An input without its sequence number. -/
def InputRecord.unnumbered (r : InputRecord V) : String × InputStatus × V :=
  (r.inputId, r.status, r.value)

/-- The replies to a call are the same. -/
def SameReply : (op : LedgerOp V) → op.Reply → op.PgReply → Prop
  | .read .., step, step' => SameStep step step'
  | .start .., started, started' => started = started'
  | .finishEffect .., _, _ => True
  | .resolveEffect .., step, step' => SameStep step step'
  | .writeControl .., _, _ => True
  | .forget .., _, _ => True
  | .acquire .., token, token' => token = token'
  | .release .., _, _ => True
  | .enqueueInput .., inserted, inserted' => inserted = inserted'
  | .listInputs .., queue, queue' =>
      queue.map InputRecord.unnumbered = queue'.map InputRecord.unnumbered
  | .claimInput .., _, _ => True
  | .admitInputs .., _, _ => True
  | .discardInputs .., _, _ => True
  | .commitTransition .., inserted, inserted' => inserted = inserted'

/-- The two ledgers agree. -/
structure Agree (s : MemorySteps V) (t : Tables (PgRow V)) : Prop where
  steps : ∀ b key, SameStep (s.read b key) (PostgresSteps.stepOf (t.rows (.step b key)))
  decisions : ∀ b decisionId, s.decisions.get? (b, decisionId)
    = (t.rows (.decision b decisionId)).map DecisionRow.payload
  /-- The holder and the token of every lease. -/
  leases : ∀ b, (s.leases.get? b).map (fun held => (held.owner, held.token))
    = (t.rows (.lease b)).map fun row => (row.owner, row.token)
  inputs : ∀ b, (s.listInputs b).map InputRecord.unnumbered
    = (PostgresSteps.listInputs t b).map InputRecord.unnumbered

/-- Both ledgers read one clock, which never runs backwards. -/
structure OneClock (calls : List (LedgerCall V)) : Prop where
  ordered : calls.Pairwise fun c d => c.now ≤ d.now
  once : ∀ c ∈ calls, c.later = c.now
  /-- It counts from a time before the first call. -/
  positive : ∀ c ∈ calls, 0 < c.now

/-- No lease is asked for at the instant at which the branch's lease expires. -/
def OffExpiry [BEq V] (calls : List (LedgerCall V)) : Prop :=
  Always (fun before c => ∀ b owner ttl, c.op = .acquire b owner ttl → ∀ row,
    ((postgres V).after .empty before).rows (.lease b) = some row → row.expiresAt ≠ c.now) calls

end property

/-! ## Section 2: The simulation -/

section simulation

variable {V : Type} {s s' : MemorySteps V} {t t' : Tables (PgRow V)} {clock : ℚ}

/-- A step and its row. -/
def StepRel (step : Step V) : Option (StepRow V) → Prop
  | none => step = { status := .absent }
  | some row => step.status = row.status ∧ step.value = row.value ∧
      (step.version : Int) = row.version ∧ (row.status ≠ .done → row.value = none)

/-- The steps are those of `ledger_step`. -/
def StepsRel (s : MemorySteps V) (t : Tables (PgRow V)) : Prop :=
  ∀ b key, StepRel (s.entry b key) (t.rows (.step b key))

/-- The decisions are those of `ledger_effect_decision`, each about a step there is. -/
structure DecisionsRel (s : MemorySteps V) (t : Tables (PgRow V)) : Prop where
  same : ∀ b decisionId, s.decisions.get? (b, decisionId)
    = (t.rows (.decision b decisionId)).map DecisionRow.payload
  known : ∀ b decisionId row, t.rows (.decision b decisionId) = some row →
    row.key = row.payload.key ∧ t.rows (.step b row.key) ≠ none

/-- A lease and its row; `clock` is the last reading. -/
def LeaseRel (clock : ℚ) : Option Lease → Option LeaseRow → Prop
  | none, none => True
  | some held, some row => held.owner = row.owner ∧ held.token = row.token ∧
      (held.expires = row.expiresAt ∨ (held.expires ≤ clock ∧ row.expiresAt = 0))
  | _, _ => False

/-- The leases are those of `ledger_branch_lease`, with the tokens issued. -/
structure LeasesRel (clock : ℚ) (s : MemorySteps V) (t : Tables (PgRow V)) : Prop where
  lease : ∀ b, LeaseRel clock (s.leases.get? b) (t.rows (.lease b))
  issued : ∀ b, s.issued b = PostgresSteps.issuedIn (t.rows (.lease b))

/-- The records found under the keys are numbered in their order, where `P` says so. -/
def InOrder (P : String × String → String × String → Prop) (keys : List (String × String))
    (look : String × String → Option (InputRecord V)) : Prop :=
  keys.Pairwise fun k k' => P k k' → ∀ r r', look k = some r → look k' = some r' →
    r.sequence < r'.sequence

/-- The inputs are those of `ledger_input`, in one order, which the numbers of both follow. -/
structure InputsRel (s : MemorySteps V) (t : Tables (PgRow V)) : Prop where
  same : ∀ b inputId, (s.inputs.get? (b, inputId)).map InputRecord.unnumbered
    = (PostgresSteps.inputRecord t b inputId).map InputRecord.unnumbered
  keys : s.inputs.items.map Prod.fst = PostgresSteps.inputKeys t
  ordered : InOrder (fun k k' => k.1 = k'.1) (PostgresSteps.inputKeys t) s.inputs.get?
  bound : ∀ b inputId r, s.inputs.get? (b, inputId) = some r →
    r.sequence < s.inputSequence.getD b 0
  ordered' : InOrder (fun _ _ => True) (PostgresSteps.inputKeys t)
    fun k => PostgresSteps.inputRecord t k.1 k.2
  bound' : ∀ b inputId r, PostgresSteps.inputRecord t b inputId = some r → r.sequence < t.serial

/-- The relation of the two ledgers. -/
structure LedgerRel (clock : ℚ) (s : MemorySteps V) (t : Tables (PgRow V)) : Prop where
  steps : StepsRel s t
  decisions : DecisionsRel s t
  leases : LeasesRel clock s t
  inputs : InputsRel s t

theorem ledgerRel_init : LedgerRel clock (MemorySteps.init : MemorySteps V) .empty where
  steps _ _ := rfl
  decisions := ⟨fun _ _ => rfl, fun _ _ _ hrow => by cases hrow⟩
  leases := ⟨fun _ => trivial, fun _ => rfl⟩
  inputs := ⟨fun _ _ => rfl, rfl, List.Pairwise.nil, fun _ _ _ hr => (by cases hr),
    List.Pairwise.nil, fun _ _ _ hr => (by cases hr)⟩

/-! ### What it says of the observables -/

theorem StepRel.sameStep {step : Step V} {row : Option (StepRow V)} (h : StepRel step row) :
    SameStep step (PostgresSteps.stepOf row) := by
  cases row with
  | none =>
    obtain rfl : step = { status := .absent } := h
    exact ⟨rfl, rfl, rfl⟩
  | some row =>
    obtain ⟨hstatus, hvalue, hversion, hnone⟩ := h
    unfold PostgresSteps.stepOf
    dsimp only
    by_cases hdone : row.status = .done
    · rw [if_pos hdone]
      exact ⟨hstatus.trans hdone, hvalue, hversion⟩
    · rw [if_neg hdone]
      exact ⟨hstatus, hvalue.trans (hnone hdone), hversion⟩

theorem LeaseRel.same {held : Option Lease} {row : Option LeaseRow} (h : LeaseRel clock held row) :
    held.map (fun held => (held.owner, held.token))
      = row.map fun row => (row.owner, row.token) := by
  cases held with
  | none =>
    cases row with
    | none => rfl
    | some row => exact h.elim
  | some held =>
    cases row with
    | none => exact h.elim
    | some row =>
      obtain ⟨howner, htoken, _⟩ := h
      simp [howner, htoken]

/-- A queue that is in order is not moved by sorting. -/
theorem InOrder.sort {P : String × String → String × String → Prop}
    {look : String × String → Option (InputRecord V)} {keys : List (String × String)}
    (h : InOrder P keys look) (hP : ∀ k ∈ keys, ∀ k' ∈ keys, P k k') :
    (keys.filterMap look).insertionSort (fun a b => a.sequence ≤ b.sequence)
      = keys.filterMap look := by
  refine List.Pairwise.insertionSort_eq ?_
  refine List.pairwise_filterMap.mpr (h.imp_of_mem fun {k k'} hk hk' hlt r hr r' hr' => ?_)
  exact Nat.le_of_lt (hlt (hP k hk k' hk') r r' hr hr')

theorem InputsRel.queues (h : InputsRel s t) (b : String) :
    (s.listInputs b).map InputRecord.unnumbered
      = (PostgresSteps.listInputs t b).map InputRecord.unnumbered := by
  have hmem : s.listInputs b
      = ((PostgresSteps.inputKeys t).filter fun k => k.1 = b).filterMap s.inputs.get? := by
    unfold MemorySteps.listInputs
    rw [s.inputs.map_snd_filter fun k => k.1 = b, h.keys]
    refine InOrder.sort (List.Pairwise.filter _ h.ordered) fun k hk k' hk' => ?_
    have hb : k.1 = b := of_decide_eq_true (List.mem_filter.mp hk).2
    have hb' : k'.1 = b := of_decide_eq_true (List.mem_filter.mp hk').2
    exact hb.trans hb'.symm
  have hpg : PostgresSteps.listInputs t b
      = ((PostgresSteps.inputKeys t).filter fun k => k.1 = b).filterMap
          fun k => PostgresSteps.inputRecord t k.1 k.2 :=
    InOrder.sort (List.Pairwise.filter _ h.ordered') fun _ _ _ _ => trivial
  rw [hmem, hpg, List.map_filterMap, List.map_filterMap]
  exact List.filterMap_congr fun k _ => h.same k.1 k.2

theorem LedgerRel.agree (h : LedgerRel clock s t) : Agree s t where
  steps b key := (h.steps b key).sameStep
  decisions := h.decisions.same
  leases b := (h.leases.lease b).same
  inputs := h.inputs.queues

/-! ### What leaves a table alone -/

theorem StepsRel.frame (h : StepsRel s t) (hentry : ∀ b key, s'.entry b key = s.entry b key)
    (hrows : ∀ b key, t'.rows (.step b key) = t.rows (.step b key)) : StepsRel s' t' := by
  intro b key
  rw [hentry, hrows]
  exact h b key

theorem DecisionsRel.frame (h : DecisionsRel s t) (hdecisions : s'.decisions = s.decisions)
    (hrows : ∀ b decisionId, t'.rows (.decision b decisionId) = t.rows (.decision b decisionId))
    (hsteps : ∀ b key, t.rows (.step b key) ≠ none → t'.rows (.step b key) ≠ none) :
    DecisionsRel s' t' where
  same b decisionId := by
    rw [hdecisions, hrows]
    exact h.same b decisionId
  known b decisionId row hrow := by
    rw [hrows] at hrow
    exact (h.known b decisionId row hrow).imp id (hsteps b row.key)

theorem LeasesRel.frame (h : LeasesRel clock s t) (hsame : SameLeases s s')
    (hrows : ∀ b, t'.rows (.lease b) = t.rows (.lease b)) : LeasesRel clock s' t' where
  lease b := by
    rw [hsame.1, hrows]
    exact h.lease b
  issued b := by
    rw [hsame.issued, hrows]
    exact h.issued b

theorem InputsRel.frame (h : InputsRel s t) (hinputs : s'.inputs = s.inputs)
    (hsequence : s'.inputSequence = s.inputSequence)
    (hkeys : PostgresSteps.inputKeys t' = PostgresSteps.inputKeys t)
    (hrows : ∀ b inputId, t'.rows (.input b inputId) = t.rows (.input b inputId))
    (hserial : t.serial ≤ t'.serial) : InputsRel s' t' := by
  have hrecord : PostgresSteps.inputRecord t' = PostgresSteps.inputRecord t := by
    funext b inputId
    unfold PostgresSteps.inputRecord
    rw [hrows]
  refine ⟨?_, ?_, ?_, ?_, ?_, ?_⟩
  · rw [hinputs, hrecord]
    exact h.same
  · rw [hinputs, hkeys]
    exact h.keys
  · rw [hinputs, hkeys]
    exact h.ordered
  · rw [hinputs, hsequence]
    exact h.bound
  · rw [hkeys, hrecord]
    exact h.ordered'
  · rw [hrecord]
    exact fun b inputId r hr => Nat.lt_of_lt_of_le (h.bound' b inputId r hr) hserial

/-- A row of another table leaves the queue's keys alone. -/
theorem inputKeys_write {k : PgKey} (row : PgRow V k) (hk : k.input? = none) :
    PostgresSteps.inputKeys (t.write k row) = PostgresSteps.inputKeys t := by
  unfold PostgresSteps.inputKeys
  rw [Tables.keys_write]
  unfold Tables.keysWith
  split
  · rfl
  · simp [hk]

/-- Time passes. -/
theorem LeaseRel.later {clock' : ℚ} {held : Option Lease} {row : Option LeaseRow}
    (h : LeaseRel clock held row) (hle : clock ≤ clock') : LeaseRel clock' held row := by
  cases held with
  | none =>
    cases row with
    | none => trivial
    | some row => exact h.elim
  | some held =>
    cases row with
    | none => exact h.elim
    | some row =>
      obtain ⟨howner, htoken, hexpires⟩ := h
      exact ⟨howner, htoken, hexpires.imp id fun ⟨hpast, hzero⟩ => ⟨le_trans hpast hle, hzero⟩⟩

theorem LedgerRel.later {clock' : ℚ} (h : LedgerRel clock s t) (hle : clock ≤ clock') :
    LedgerRel clock' s t where
  steps := h.steps
  decisions := h.decisions
  leases := ⟨fun b => (h.leases.lease b).later hle, h.leases.issued⟩
  inputs := h.inputs

/-- Numbers are drawn, and nothing is written. -/
theorem LedgerRel.serial (h : LedgerRel clock s t) {n : Nat} (hle : t.serial ≤ n) :
    LedgerRel clock s { t with serial := n } where
  steps := h.steps.frame (fun _ _ => rfl) fun _ _ => rfl
  decisions := h.decisions.frame rfl (fun _ _ => rfl) fun _ _ hrow => hrow
  leases := h.leases.frame (SameLeases.refl s) fun _ => rfl
  inputs := h.inputs.frame rfl rfl rfl (fun _ _ => rfl) hle

/-! ### What is written -/

/-- A step is written. -/
theorem LedgerRel.setStep (h : LedgerRel clock s t) {b key : String} {step : Step V}
    {row : StepRow V} (hstep : StepRel step (some row)) :
    LedgerRel clock (s.setEntry b key step) (t.write (.step b key) row) where
  steps b' key' := by
    rw [entry_setEntry]
    by_cases hhere : b' = b ∧ key' = key
    · obtain ⟨rfl, rfl⟩ := hhere
      rw [if_pos ⟨rfl, rfl⟩, Tables.rows_write_self]
      exact hstep
    · have hne : PgKey.step b' key' ≠ .step b key := by
        intro heq
        exact hhere (by simpa using heq)
      rw [if_neg hhere, Tables.rows_write_ne _ _ hne]
      exact h.steps b' key'
  decisions := by
    refine h.decisions.frame rfl (fun _ _ => Tables.rows_write_ne _ _ (by simp)) ?_
    intro b' key' hrow
    by_cases hhere : PgKey.step b' key' = .step b key
    · rw [hhere, Tables.rows_write_self]
      exact Option.some_ne_none _
    · rwa [Tables.rows_write_ne _ _ hhere]
  leases := h.leases.frame ⟨rfl, rfl⟩ fun _ => Tables.rows_write_ne _ _ (by simp)
  inputs := h.inputs.frame rfl rfl (inputKeys_write _ rfl)
    (fun _ _ => Tables.rows_write_ne _ _ (by simp)) (Nat.le_refl _)

/-- A decision about a step there is is recorded. -/
theorem LedgerRel.setDecision (h : LedgerRel clock s t) {b : String} (decisionId : String)
    {payload : ResolutionPayload V} (hknown : t.rows (.step b payload.key) ≠ none) :
    LedgerRel clock { s with decisions := s.decisions.set (b, decisionId) payload }
      (t.write (.decision b decisionId) { key := payload.key, payload := payload }) where
  steps := h.steps.frame (fun _ _ => rfl) fun _ _ => Tables.rows_write_ne _ _ (by simp)
  decisions := by
    refine ⟨fun b' decisionId' => ?_, fun b' decisionId' row hrow => ?_⟩
    · -- Only this decision is new on either side, and its step has a row.
      by_cases hhere : b' = b ∧ decisionId' = decisionId
      · obtain ⟨rfl, rfl⟩ := hhere
        rw [Dict.get?_set_self, Tables.rows_write_self]
        rfl
      · have hne : (b', decisionId') ≠ (b, decisionId) := fun heq => hhere (Prod.mk.inj heq)
        have hne' : PgKey.decision b' decisionId' ≠ .decision b decisionId := by
          intro heq
          exact hhere (by simpa using heq)
        rw [Dict.get?_set_ne _ _ hne, Tables.rows_write_ne _ _ hne']
        exact h.decisions.same b' decisionId'
    · rw [Tables.rows_write_ne _ _ (show PgKey.step b' row.key ≠ .decision b decisionId by simp)]
      by_cases hhere : PgKey.decision b' decisionId' = .decision b decisionId
      · obtain ⟨rfl, rfl⟩ : b' = b ∧ decisionId' = decisionId := by simpa using hhere
        rw [Tables.rows_write_self] at hrow
        obtain rfl := Option.some.inj hrow
        exact ⟨rfl, hknown⟩
      · rw [Tables.rows_write_ne _ _ hhere] at hrow
        exact h.decisions.known b' decisionId' row hrow
  leases := h.leases.frame ⟨rfl, rfl⟩ fun _ => Tables.rows_write_ne _ _ (by simp)
  inputs := h.inputs.frame rfl rfl (inputKeys_write _ rfl)
    (fun _ _ => Tables.rows_write_ne _ _ (by simp)) (Nat.le_refl _)

/-- A lease is written, with the tokens issued. -/
theorem LedgerRel.setLease (h : LedgerRel clock s t) {b : String} {held : Lease} {row : LeaseRow}
    (tokens : Dict String Int) (hlease : LeaseRel clock (some held) (some row))
    (htokens : ∀ b', tokens.getD b' 0 = if b' = b then row.token else s.issued b') :
    LedgerRel clock { s with leases := s.leases.set b held, tokens := tokens }
      (t.write (.lease b) row) where
  steps := h.steps.frame (fun _ _ => rfl) fun _ _ => Tables.rows_write_ne _ _ (by simp)
  decisions := by
    refine h.decisions.frame rfl (fun _ _ => Tables.rows_write_ne _ _ (by simp)) ?_
    intro b' key' hrow
    rwa [Tables.rows_write_ne _ _ (by simp)]
  leases := by
    refine ⟨fun b' => ?_, fun b' => ?_⟩
    · -- Only the lease of `b` changes, and the count of its tokens with it.
      by_cases hb : b' = b
      · subst hb
        rw [Dict.get?_set_self, Tables.rows_write_self]
        exact hlease
      · have hne : PgKey.lease b' ≠ .lease b := by simpa using hb
        rw [Dict.get?_set_ne _ _ hb, Tables.rows_write_ne _ _ hne]
        exact h.leases.lease b'
    · refine (htokens b').trans ?_
      by_cases hb : b' = b
      · subst hb
        rw [if_pos rfl, Tables.rows_write_self]
        rfl
      · have hne : PgKey.lease b' ≠ .lease b := by simpa using hb
        rw [if_neg hb, Tables.rows_write_ne _ _ hne]
        exact h.leases.issued b'
  inputs := h.inputs.frame rfl rfl (inputKeys_write _ rfl)
    (fun _ _ => Tables.rows_write_ne _ _ (by simp)) (Nat.le_refl _)

/-- The queue's record of a key whose row is written, and of every other. -/
theorem inputRecord_write (b inputId : String) (row : InputRow V) (b' inputId' : String) :
    PostgresSteps.inputRecord (t.write (.input b inputId) row) b' inputId' =
      if (b', inputId') = (b, inputId) then
        some ⟨inputId, row.status, row.value, row.sequence⟩
      else PostgresSteps.inputRecord t b' inputId' := by
  unfold PostgresSteps.inputRecord
  by_cases hhere : (b', inputId') = (b, inputId)
  · obtain ⟨rfl, rfl⟩ := Prod.mk.inj hhere
    rw [if_pos rfl, Tables.rows_write_self]
    rfl
  · have hne : PgKey.input b' inputId' ≠ .input b inputId := by
      intro heq
      exact hhere (by simpa using heq)
    rw [if_neg hhere, Tables.rows_write_ne _ _ hne]

theorem record_of_row {b inputId : String} {row : InputRow V}
    (h : t.rows (.input b inputId) = some row) :
    PostgresSteps.inputRecord t b inputId
      = some ⟨inputId, row.status, row.value, row.sequence⟩ := by
  unfold PostgresSteps.inputRecord
  rw [h]
  rfl

theorem record_of_none {b inputId : String} (h : t.rows (.input b inputId) = none) :
    PostgresSteps.inputRecord t b inputId = none := by
  unfold PostgresSteps.inputRecord
  rw [h]
  rfl

section order

variable {P : String × String → String × String → Prop} {keys : List (String × String)}
  {look look' : String × String → Option (InputRecord V)}

/-- Lookups that keep their numbers keep the order. -/
theorem InOrder.same (h : InOrder P keys look)
    (hlook : ∀ k ∈ keys, ∀ r, look' k = some r →
      ∃ r₀, look k = some r₀ ∧ r₀.sequence = r.sequence) : InOrder P keys look' := by
  refine h.imp_of_mem fun {k k'} hk hk' hlt hP r r' hr hr' => ?_
  obtain ⟨r₀, hr₀, heq⟩ := hlook k hk r hr
  obtain ⟨r₀', hr₀', heq'⟩ := hlook k' hk' r' hr'
  rw [← heq, ← heq']
  exact hlt hP r₀ r₀' hr₀ hr₀'

/-- A new key with a higher number than those before it. -/
theorem InOrder.concat (h : InOrder P keys look) {k : String × String}
    (hlast : ∀ k₀ ∈ keys, P k₀ k → ∀ r₀ r, look k₀ = some r₀ → look k = some r →
      r₀.sequence < r.sequence) : InOrder P (keys ++ [k]) look := by
  refine List.pairwise_append.mpr ⟨h, List.pairwise_singleton _ _, ?_⟩
  intro k₀ hk₀ k' hk'
  obtain rfl := List.mem_singleton.mp hk'
  exact hlast k₀ hk₀

end order

/-- An input gets another status. -/
theorem LedgerRel.setInput (h : LedgerRel clock s t) {b inputId : String} {record : InputRecord V}
    {row : InputRow V} (hrecord : s.inputs.get? (b, inputId) = some record)
    (hrow : t.rows (.input b inputId) = some row) (status : InputStatus) :
    LedgerRel clock
      { s with
        inputs := s.inputs.set (b, inputId) ⟨inputId, status, record.value, record.sequence⟩ }
      (t.write (.input b inputId) { row with status := status }) where
  steps := h.steps.frame (fun _ _ => rfl) fun _ _ => Tables.rows_write_ne _ _ (by simp)
  decisions := by
    refine h.decisions.frame rfl (fun _ _ => Tables.rows_write_ne _ _ (by simp)) ?_
    intro b' key' hstep
    rwa [Tables.rows_write_ne _ _ (by simp)]
  leases := h.leases.frame ⟨rfl, rfl⟩ fun _ => Tables.rows_write_ne _ _ (by simp)
  inputs := by
    let written : PgRow V (.input b inputId) := { row with status := status }
    -- The update keeps key and number of the row, so the order on both sides is as before.
    have hkeys : PostgresSteps.inputKeys (t.write (.input b inputId) written)
        = PostgresSteps.inputKeys t := by
      unfold PostgresSteps.inputKeys
      rw [Tables.keys_write, Tables.keysWith_of_some _ hrow]
    -- both keep the number
    have hlook : ∀ k r, (s.inputs.set (b, inputId)
        ⟨inputId, status, record.value, record.sequence⟩).get? k = some r →
          ∃ r₀, s.inputs.get? k = some r₀ ∧ r₀.sequence = r.sequence := by
      intro k r hr
      by_cases hk : k = (b, inputId)
      · subst hk
        rw [Dict.get?_set_self] at hr
        obtain rfl := Option.some.inj hr
        exact ⟨record, hrecord, rfl⟩
      · rw [Dict.get?_set_ne _ _ hk] at hr
        exact ⟨r, hr, rfl⟩
    have hlook' : ∀ (k : String × String) r,
        PostgresSteps.inputRecord (t.write (.input b inputId) written) k.1 k.2 = some r →
          ∃ r₀, PostgresSteps.inputRecord t k.1 k.2 = some r₀ ∧ r₀.sequence = r.sequence := by
      intro k r hr
      rw [inputRecord_write] at hr
      split at hr
      · next hk =>
        obtain ⟨hk₁, hk₂⟩ := Prod.mk.inj hk
        obtain rfl := Option.some.inj hr
        rw [hk₁, hk₂]
        exact ⟨_, record_of_row hrow, rfl⟩
      · exact ⟨r, hr, rfl⟩
    refine ⟨fun b' inputId' => ?_, ?_, ?_, ?_, ?_, ?_⟩
    · rw [inputRecord_write]
      split
      · next hk =>
        have hsame := h.inputs.same b inputId
        rw [hrecord, record_of_row hrow] at hsame
        rw [hk, Dict.get?_set_self]
        simp only [Option.map_some, Option.some.injEq, InputRecord.unnumbered, Prod.mk.injEq]
          at hsame ⊢
        exact ⟨trivial, trivial, hsame.2.2⟩
      · next hk =>
        rw [Dict.get?_set_ne _ _ hk]
        exact h.inputs.same b' inputId'
    · rw [hkeys, Dict.keys_set_of_some hrecord]
      exact h.inputs.keys
    · rw [hkeys]
      exact h.inputs.ordered.same fun k _ => hlook k
    · intro b' inputId' r hr
      obtain ⟨r₀, hr₀, heq⟩ := hlook _ r hr
      rw [← heq]
      exact h.inputs.bound b' inputId' r₀ hr₀
    · rw [hkeys]
      exact h.inputs.ordered'.same fun k _ => hlook' k
    · intro b' inputId' r hr
      obtain ⟨r₀, hr₀, heq⟩ := hlook' (b', inputId') r hr
      rw [← heq]
      exact h.inputs.bound' b' inputId' r₀ hr₀

/-- An input is queued: each ledger gives it the next number of its own. -/
theorem InputsRel.append (h : InputsRel s t) {b inputId : String}
    (hnew : s.inputs.get? (b, inputId) = none) (hnew' : t.rows (.input b inputId) = none)
    (value : V) :
    InputsRel (s.appendInput b inputId value)
      ((t.write (.input b inputId)
        { status := .pending, value := value, sequence := t.serial }).draw 1) := by
  let written : PgRow V (.input b inputId) :=
    { status := .pending, value := value, sequence := t.serial }
  let next := s.inputSequence.getD b 0
  let added : InputRecord V := ⟨inputId, .pending, value, next⟩
  -- The id is new on both sides, so no row and no number moves.
  have hfresh : (b, inputId) ∉ PostgresSteps.inputKeys t := by
    rw [← h.keys]
    exact fun hmem => Dict.get?_ne_none hmem hnew
  have hkeys : PostgresSteps.inputKeys ((t.write (.input b inputId) written).draw 1)
      = PostgresSteps.inputKeys t ++ [(b, inputId)] := by
    unfold PostgresSteps.inputKeys
    rw [Tables.keys_draw, Tables.keys_write, Tables.keysWith_of_none _ hnew', List.filterMap_append]
    rfl
  have hget : ∀ k, (s.appendInput b inputId value).inputs.get? k
      = if k = (b, inputId) then some added else s.inputs.get? k := fun k => Dict.get?_set ..
  have hrecord : ∀ b' inputId', PostgresSteps.inputRecord
      ((t.write (.input b inputId) written).draw 1) b' inputId'
        = if (b', inputId') = (b, inputId) then some ⟨inputId, .pending, value, t.serial⟩
          else PostgresSteps.inputRecord t b' inputId' := inputRecord_write b inputId written
  refine ⟨fun b' inputId' => ?_, ?_, ?_, ?_, ?_, ?_⟩
  · rw [hget, hrecord]
    split
    · rfl
    · exact h.same b' inputId'
  · -- keys: put last by both.
    rw [hkeys, ← h.keys]
    exact Dict.keys_set_of_none hnew _
  · rw [hkeys]
    refine (h.ordered.same fun k hk r hr => ?_).concat fun k hk hb r₀ r hr₀ hr => ?_
    · have hne : k ≠ (b, inputId) := fun heq => hfresh (heq ▸ hk)
      rw [hget, if_neg hne] at hr
      exact ⟨r, hr, rfl⟩
    · have hne : k ≠ (b, inputId) := fun heq => hfresh (heq ▸ hk)
      rw [hget, if_neg hne] at hr₀
      rw [hget, if_pos rfl] at hr
      obtain rfl := Option.some.inj hr
      -- ordered: its number is above every number of the branch.
      have hbound := h.bound k.1 k.2 r₀ hr₀
      rw [hb] at hbound
      exact hbound
  · intro b' inputId' r hr
    show r.sequence < (s.inputSequence.set b (next + 1)).getD b' 0
    rw [Dict.getD_set]
    rw [hget] at hr
    split at hr
    · next hk =>
      obtain ⟨rfl, rfl⟩ := Prod.mk.inj hk
      obtain rfl := Option.some.inj hr
      rw [if_pos rfl]
      exact Nat.lt_succ_self next
    · have hbound := h.bound b' inputId' r hr
      split
      · next hb =>
        rw [hb] at hbound
        exact Nat.lt_succ_of_lt hbound
      · exact hbound
  · rw [hkeys]
    refine (h.ordered'.same fun k hk r hr => ?_).concat fun k hk _ r₀ r hr₀ hr => ?_
    · have hne : (k.1, k.2) ≠ (b, inputId) := fun heq => hfresh (heq ▸ hk)
      rw [hrecord, if_neg hne] at hr
      exact ⟨r, hr, rfl⟩
    · have hne : (k.1, k.2) ≠ (b, inputId) := fun heq => hfresh (heq ▸ hk)
      dsimp only at hr₀ hr
      rw [hrecord, if_neg hne] at hr₀
      rw [hrecord, if_pos rfl] at hr
      obtain rfl := Option.some.inj hr
      exact h.bound' k.1 k.2 r₀ hr₀
  · intro b' inputId' r hr
    show r.sequence < t.serial + 1
    rw [hrecord] at hr
    split at hr
    · obtain rfl := Option.some.inj hr
      exact Nat.lt_succ_self _
    · exact Nat.lt_succ_of_lt (h.bound' b' inputId' r hr)

theorem LedgerRel.addInput (h : LedgerRel clock s t) {b inputId : String}
    (hnew : s.inputs.get? (b, inputId) = none) (hnew' : t.rows (.input b inputId) = none)
    (value : V) :
    LedgerRel clock (s.appendInput b inputId value)
      ((t.write (.input b inputId)
        { status := .pending, value := value, sequence := t.serial }).draw 1) := by
  have hrows : ∀ k, k ≠ .input b inputId →
      ((t.write (.input b inputId)
        { status := .pending, value := value, sequence := t.serial }).draw 1).rows k = t.rows k :=
    fun k hk => Tables.rows_write_ne t _ hk
  refine ⟨?_, ?_, ?_, h.inputs.append hnew hnew' value⟩
  · exact h.steps.frame (fun _ _ => rfl) fun _ _ => hrows _ (by simp)
  · refine h.decisions.frame rfl (fun _ _ => hrows _ (by simp)) fun b' key' hstep => ?_
    rwa [hrows _ (by simp)]
  · exact h.leases.frame ⟨rfl, rfl⟩ fun _ => hrows _ (by simp)

end simulation

end Semora
