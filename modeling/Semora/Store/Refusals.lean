import Semora.Store.StoresAgree
import Semora.Store.Transition

/-! # Two Ledgers, One Refusal

    Which exception a call raises depends on which of its faults is looked at
    first. `MemorySteps` and `PostgresSteps` look in different orders in three
    places: a resolution is validated behind the fence or before it, an empty
    list of inputs meets the fence or not, and the keys of a transition are
    compared while its effects are looked at or before. Where a call has one
    fault only, the two raise alike. -/

namespace Semora

open ReadCommitted MemorySteps

/-! ## Section 1: What is to be proved -/

/-- The types of the exceptions. -/
inductive Refusal where
  | fenced
  | effectConflict
  | valueError
  | uniqueViolation
  deriving DecidableEq, Repr

/-- `type(error)`. -/
def StoreError.refusal : StoreError → Refusal
  | .fenced .. => .fenced
  | .effectConflict .. => .effectConflict
  | .valueError _ => .valueError

/-- `type(error)`. -/
def PgError.refusal : PgError → Refusal
  | .store error => error.refusal
  | .uniqueViolation => .uniqueViolation

/-- What a call raises, if it does. -/
def raised {ε α : Type} (refusal : ε → Refusal) : Except ε α → Option Refusal
  | .ok _ => none
  | .error e => some (refusal e)

section property

variable {V : Type}

/-- The states of the two ledgers agree. -/
structure SameLedgers (s : MemorySteps V) (t : Tables (PgRow V)) : Prop where
  steps : ∀ b key, SameStep (s.read b key) (PostgresSteps.stepOf (t.rows (.step b key)))
  decisions : ∀ b decisionId,
    (s.decisions.get? (b, decisionId)).map (fun payload => (payload.key, payload))
      = (t.rows (.decision b decisionId)).map fun row => (row.key, row.payload)
  tokens : ∀ b, s.issued b = PostgresSteps.issuedIn (t.rows (.lease b))
  inputs : ∀ b, (s.listInputs b).map InputRecord.unnumbered
    = (PostgresSteps.listInputs t b).map InputRecord.unnumbered

/-- Both ledgers return, or both raise and with the same type of exception. -/
def RefuseAlike [BEq V] (s : MemorySteps V) (t : Tables (PgRow V)) (c : LedgerCall V) : Prop :=
  raised StoreError.refusal ((ledger V).reply s c)
    = raised PgError.refusal ((postgres V).reply t c)

/-! ## Section 2: Where they do not -/

/-- A token below the newest one issued. -/
def Outdated (s : MemorySteps V) (b : String) (token : Int) : Prop :=
  token ≠ 0 ∧ token < s.issued b

/-- An effect cannot be completed: another result is there, or the step is not as expected. -/
def Conflicting [BEq V] (s : MemorySteps V) (b : String) (effect : EffectCompletion V) : Prop :=
  ¬ (((s.entry b effect.key).status = .done ∧
      ((s.entry b effect.key).value == effect.value) = true) ∨
    (s.entry b effect.key).status = effect.expected.status)

/-- An effect cannot be completed, and no key has been repeated so far. -/
def ConflictFirst [BEq V] (s : MemorySteps V) (b : String) (effects : List (EffectCompletion V)) :
    Prop :=
  ∃ before effect after, effects = before ++ effect :: after ∧ Conflicting s b effect ∧
    ((before ++ [effect]).map EffectCompletion.key).Nodup

/-- A call has two faults that the ledgers look at in different orders, or repeats a decision
    about a step that one of them has no row of. -/
def Clash [BEq V] (s : MemorySteps V) (t : Tables (PgRow V)) : LedgerOp V → Prop
  | .resolveEffect b key resolution workersStopped token =>
      (Outdated s b token ∧ ∃ e, resolutionPayload key resolution workersStopped = .error e) ∨
      (¬ Outdated s b token ∧ t.rows (.step b key) = none ∧ ∃ payload previous,
        resolutionPayload key resolution workersStopped = .ok payload ∧
        s.decisions.get? (b, resolution.decisionId) = some previous ∧
        (previous == payload) = true)
  | .admitInputs b inputIds token => inputIds = [] ∧ Outdated s b token
  | .discardInputs b inputIds token => inputIds = [] ∧ Outdated s b token
  | .commitTransition b transition token =>
      ¬ Outdated s b token ∧ ConflictFirst s b transition.effects ∧
      (¬ (transition.effects.map EffectCompletion.key).Nodup ∨ overlap transition ≠ [])
  | _ => False

end property

/-! ## Section 3: The fences -/

section proofs

variable {V α β : Type} {s : MemorySteps V} {t : Tables (PgRow V)}

theorem fenced_of_outdated {b : String} {token : Int} (h : Outdated s b token)
    (rest : StoreOutcome V α) :
    raised StoreError.refusal (s.fenced b token rest).1 = some .fenced := by
  unfold MemorySteps.fenced MemorySteps.fence
  rw [if_pos (show token ≠ 0 ∧ token < s.issued b from h)]
  rfl

theorem fenced_of_current {b : String} {token : Int} (h : ¬ Outdated s b token)
    (rest : StoreOutcome V α) : s.fenced b token rest = rest := by
  unfold MemorySteps.fenced MemorySteps.fence
  rw [if_neg (show ¬ (token ≠ 0 ∧ token < s.issued b) from h)]

/-- The reply of a call is what its transaction comes to. -/
theorem alone_reply (x : PgTxn V α) : (x.alone t).1 = (x.eval t).1 := rfl

theorem raised_of_returns {x : PgTxn V α} (hx : x.Returns) :
    raised PgError.refusal (x.alone t).1 = none := by
  obtain ⟨a, t', hx⟩ := hx t
  rw [Txn.alone_of_ok hx]
  rfl

namespace SameLedgers

theorem pgFence_of_outdated (h : SameLedgers s t) {b : String} {token : Int}
    (hstale : Outdated s b token) (f : Unit → PgTxn V α) :
    raised PgError.refusal ((PostgresSteps.fence b token >>= f).alone t).1 = some .fenced := by
  have heval := PostgresSteps.eval_fence (t := t) b token
  rw [← h.tokens, if_pos (show token ≠ 0 ∧ token < s.issued b from hstale)] at heval
  rw [alone_reply, Txn.eval_bind_of_error heval]
  rfl

theorem pgFence_of_current (h : SameLedgers s t) {b : String} {token : Int}
    (hcurrent : ¬ Outdated s b token) (f : Unit → PgTxn V α) :
    ((PostgresSteps.fence b token >>= f).alone t).1 = ((f ()).alone t).1 := by
  have heval := PostgresSteps.eval_fence (t := t) b token
  rw [← h.tokens, if_neg (show ¬ (token ≠ 0 ∧ token < s.issued b) from hcurrent)] at heval
  rw [alone_reply, Txn.eval_bind_of_ok heval]
  rfl

/-- Behind the same fence, the rest decides. -/
theorem fenced (h : SameLedgers s t) (b : String) (token : Int) {rest : StoreOutcome V α}
    {f : Unit → PgTxn V β}
    (hrest : ¬ Outdated s b token →
      raised StoreError.refusal rest.1 = raised PgError.refusal ((f ()).alone t).1) :
    raised StoreError.refusal (s.fenced b token rest).1
      = raised PgError.refusal ((PostgresSteps.fence b token >>= f).alone t).1 := by
  by_cases hstale : Outdated s b token
  · rw [fenced_of_outdated hstale, h.pgFence_of_outdated hstale]
  · rw [fenced_of_current hstale, h.pgFence_of_current hstale]
    exact hrest hstale

/-- Behind the same fence, neither raises. -/
theorem returns (h : SameLedgers s t) (b : String) (token : Int) {rest : StoreOutcome V α}
    {f : Unit → PgTxn V β} (hrest : raised StoreError.refusal rest.1 = none)
    (hf : (f ()).Returns) :
    raised StoreError.refusal (s.fenced b token rest).1
      = raised PgError.refusal ((PostgresSteps.fence b token >>= f).alone t).1 :=
  h.fenced b token fun _ => hrest.trans (raised_of_returns hf).symm

end SameLedgers

/-! ## Section 4: Completed effects -/

theorem stepOf_status (row : Option (StepRow V)) :
    (PostgresSteps.stepOf row).status = PostgresSteps.rowStatus row := by
  cases row with
  | none => rfl
  | some row =>
    unfold PostgresSteps.stepOf
    dsimp only
    split
    · next hdone => exact hdone.symm
    · rfl

/-- One effect is completed, or refused with a conflict, as the step of the other ledger says. -/
theorem completeEffect_raises [BEq V] {b : String} {effect : EffectCompletion V}
    (hsame : SameStep (s.read b effect.key)
      (PostgresSteps.stepOf (t.rows (.step b effect.key)))) :
    let r := (PostgresSteps.completeEffect b effect.key effect.value effect.expected).eval t
    (Conflicting s b effect → ∃ e, e.refusal = .effectConflict ∧ r = (.error e, t)) ∧
    (¬ Conflicting s b effect → ∃ t', r = (.ok (), t') ∧
      ∀ key, key ≠ effect.key → t'.rows (.step b key) = t.rows (.step b key)) := by
  intro r
  have hstatus : (s.entry b effect.key).status
      = PostgresSteps.rowStatus (t.rows (.step b effect.key)) :=
    hsame.status.trans (stepOf_status _)
  have hcompleted := PostgresSteps.eval_completeRow (t := t) b effect.key effect.value
    effect.expected
  rw [← hstatus] at hcompleted
  unfold Conflicting
  -- In the expected status the update finds its row, and only that row changes.
  by_cases hexpected : (s.entry b effect.key).status = effect.expected.status
  · rw [if_pos hexpected] at hcompleted
    refine ⟨fun hconflict => absurd (Or.inr hexpected) hconflict, fun _ => ?_⟩
    refine ⟨_, Txn.eval_bind_of_ok hcompleted _, fun key hkey => ?_⟩
    exact Tables.rows_write_ne _ _ (by simpa using hkey)
  · rw [if_neg hexpected] at hcompleted
    have hr : r = _ := Txn.eval_bind_of_ok hcompleted _
    rw [if_neg (by decide), Txn.eval_bind_of_ok (Txn.eval_select ..)] at hr
    -- Else the row is read back: nothing there is a conflict, and so is anything but the same
    -- value.
    cases hrow : t.rows (.step b effect.key) with
    | none =>
      rw [hrow] at hr hstatus
      refine ⟨fun _ => ⟨_, rfl, hr⟩, fun hfree => absurd ?_ hfree⟩
      rintro (⟨hdone, _⟩ | heq)
      · rw [hstatus] at hdone
        cases hdone
      · exact hexpected heq
    | some row =>
      rw [hrow] at hr hstatus
      have hrowStatus : (s.entry b effect.key).status = row.status := hstatus
      dsimp only at hr
      by_cases hdone : row.status = .done
      · -- A row that is done is read with its value.
        have hvalue : (s.entry b effect.key).value = row.value := by
          have hread := hsame.value
          rw [hrow] at hread
          unfold PostgresSteps.stepOf at hread
          dsimp only at hread
          rw [if_pos hdone] at hread
          exact hread
        rw [if_pos hdone, ← hvalue] at hr
        by_cases heq : ((s.entry b effect.key).value == effect.value) = true
        · rw [if_pos heq] at hr
          refine ⟨fun hconflict => absurd (Or.inl ⟨hrowStatus.trans hdone, heq⟩) hconflict,
            fun _ => ⟨t, hr, fun _ _ => rfl⟩⟩
        · rw [if_neg heq] at hr
          refine ⟨fun _ => ⟨_, rfl, hr⟩, fun hfree => absurd ?_ hfree⟩
          rintro (⟨_, hequal⟩ | hstill)
          · exact heq hequal
          · exact hexpected hstill
      · rw [if_neg hdone] at hr
        refine ⟨fun _ => ⟨_, rfl, hr⟩, fun hfree => absurd ?_ hfree⟩
        rintro (⟨hyes, _⟩ | hstill)
        · exact hdone (hrowStatus.symm.trans hyes)
        · exact hexpected hstill

theorem finishEffect_alike [BEq V] (h : SameLedgers s t) (b key : String) (value : Option V)
    (token : Int) :
    raised StoreError.refusal (s.finishEffect b key value token).1
      = raised PgError.refusal ((PostgresSteps.finishEffect b key value token).alone t).1 := by
  refine h.fenced b token fun _ => ?_
  -- Both refuse exactly when the completion conflicts with the step.
  let effect : EffectCompletion V := { key := key, value := value, expected := .running }
  have hsame : SameStep (s.read b effect.key)
      (PostgresSteps.stepOf (t.rows (.step b effect.key))) := h.steps b key
  have heffect := completeEffect_raises hsame
  dsimp only
  rw [alone_reply]
  by_cases hconflict : Conflicting s b effect
  · obtain ⟨e, hrefusal, heval⟩ := heffect.1 hconflict
    have hdone : ¬ ((s.entry b key).status = .done ∧ ((s.entry b key).value == value) = true) :=
      fun hyes => hconflict (Or.inl hyes)
    have hrunning : (s.entry b key).status ≠ .running := fun hyes => hconflict (Or.inr hyes)
    rw [show (PostgresSteps.completeEffect b key value .running).eval t = _ from heval]
    show _ = some e.refusal
    rw [hrefusal]
    by_cases hyes : (s.entry b key).status = .done
    · rw [if_pos hyes, if_neg (fun heq => hdone ⟨hyes, heq⟩)]
      rfl
    · rw [if_neg hyes, if_pos hrunning]
      rfl
  · obtain ⟨t', heval, _⟩ := heffect.2 hconflict
    rw [show (PostgresSteps.completeEffect b key value .running).eval t = _ from heval]
    show _ = none
    rcases not_not.mp hconflict with ⟨hdone, heq⟩ | hrunning
    · rw [if_pos (show (s.entry b key).status = .done from hdone),
        if_pos (show ((s.entry b key).value == value) = true from heq)]
      rfl
    · have hrunning : (s.entry b key).status = .running := hrunning
      rw [if_neg (by rw [hrunning]; decide), if_neg (not_not.mpr hrunning)]
      rfl

/-- Effects under different keys: one of them is refused, or all are completed. -/
theorem effects_raise [BEq V] {b : String} {effects : List (EffectCompletion V)}
    (hsame : ∀ effect ∈ effects, SameStep (s.read b effect.key)
      (PostgresSteps.stepOf (t.rows (.step b effect.key))))
    (hdistinct : (effects.map EffectCompletion.key).Nodup) :
    let r := (effects.forM fun effect => PostgresSteps.completeEffect b effect.key effect.value
      effect.expected).eval t
    ((∃ effect ∈ effects, Conflicting s b effect) →
      ∃ e t', e.refusal = .effectConflict ∧ r = (.error e, t')) ∧
    ((∀ effect ∈ effects, ¬ Conflicting s b effect) → ∃ t', r = (.ok (), t')) := by
  -- Induction on the effects: the first that conflicts decides; one that does not leaves the other
  -- keys.
  induction effects generalizing t with
  | nil =>
    refine ⟨fun ⟨effect, hmem, _⟩ => absurd hmem List.not_mem_nil, fun _ => ⟨t, rfl⟩⟩
  | cons effect effects ih =>
    intro r
    rw [List.map_cons, List.nodup_cons] at hdistinct
    obtain ⟨hconflict, hfree⟩ := completeEffect_raises (hsame effect List.mem_cons_self)
    by_cases hhere : Conflicting s b effect
    · obtain ⟨e, hrefusal, heval⟩ := hconflict hhere
      exact ⟨fun _ => ⟨e, t, hrefusal, Txn.eval_bind_of_error heval _⟩,
        fun hall => absurd hhere (hall effect List.mem_cons_self)⟩
    · obtain ⟨t₁, heval, hframe⟩ := hfree hhere
      -- The others have other keys, and are read as before.
      have hrest : ∀ other ∈ effects, SameStep (s.read b other.key)
          (PostgresSteps.stepOf (t₁.rows (.step b other.key))) := by
        intro other hother
        have hne : other.key ≠ effect.key :=
          fun heq => hdistinct.1 (heq ▸ List.mem_map_of_mem hother)
        rw [hframe other.key hne]
        exact hsame other (List.mem_cons_of_mem _ hother)
      obtain ⟨hsome, hnone⟩ := ih hrest hdistinct.2
      refine ⟨fun ⟨other, hother, hconflicting⟩ => ?_, fun hall => ?_⟩
      · rcases List.mem_cons.mp hother with rfl | hother
        · exact absurd hconflicting hhere
        · obtain ⟨e, t', hrefusal, hforM⟩ := hsome ⟨other, hother, hconflicting⟩
          exact ⟨e, t', hrefusal, (Txn.eval_bind_of_ok heval _).trans hforM⟩
      · obtain ⟨t', hforM⟩ := hnone fun other hother => hall other (List.mem_cons_of_mem _ hother)
        exact ⟨t', (Txn.eval_bind_of_ok heval _).trans hforM⟩

/-! ## Section 5: Transitions -/

/-- No key occurs twice, or among those of `seen`. -/
theorem repeatedKey_eq_none {keys seen : List String} :
    PostgresSteps.repeatedKey keys seen = none ↔ keys.Nodup ∧ ∀ key ∈ keys, key ∉ seen := by
  induction keys generalizing seen with
  | nil => simp [PostgresSteps.repeatedKey]
  | cons key keys ih =>
    unfold PostgresSteps.repeatedKey
    by_cases hseen : key ∈ seen
    · rw [if_pos hseen]
      refine iff_of_false (by simp) fun hall => hall.2 key List.mem_cons_self hseen
    · rw [if_neg hseen, ih, List.nodup_cons]
      refine ⟨fun ⟨hnodup, hunseen⟩ => ⟨⟨fun hmem => ?_, hnodup⟩, fun other hother => ?_⟩,
        fun ⟨⟨hnew, hnodup⟩, hunseen⟩ => ⟨hnodup, fun other hother => ?_⟩⟩
      · exact hunseen key hmem List.mem_cons_self
      · rcases List.mem_cons.mp hother with rfl | hother
        · exact hseen
        · exact fun hmem => hunseen other hother (List.mem_cons_of_mem _ hmem)
      · rw [List.mem_cons, not_or]
        exact ⟨fun heq => hnew (heq ▸ hother), hunseen other (List.mem_cons_of_mem _ hother)⟩

/-- `ConflictFirst`, behind effects with the keys of `seen`. -/
def ConflictAfter [BEq V] (s : MemorySteps V) (b : String) (effects : List (EffectCompletion V))
    (seen : List String) : Prop :=
  ∃ before effect after, effects = before ++ effect :: after ∧ Conflicting s b effect ∧
    PostgresSteps.repeatedKey ((before ++ [effect]).map EffectCompletion.key) seen = none

theorem conflictAfter_nil [BEq V] {b : String} {effects : List (EffectCompletion V)} :
    ConflictAfter s b effects [] ↔ ConflictFirst s b effects := by
  unfold ConflictAfter ConflictFirst
  simp only [repeatedKey_eq_none, List.not_mem_nil, not_false_eq_true, implies_true, and_true]

theorem conflictAfter_cons [BEq V] {b : String} {effect : EffectCompletion V}
    {effects : List (EffectCompletion V)} {seen : List String} (hnew : effect.key ∉ seen) :
    ConflictAfter s b (effect :: effects) seen ↔
      Conflicting s b effect ∨ ConflictAfter s b effects (effect.key :: seen) := by
  have hcons : ∀ keys, PostgresSteps.repeatedKey (effect.key :: keys) seen
      = PostgresSteps.repeatedKey keys (effect.key :: seen) := fun keys => if_neg hnew
  constructor
  · rintro ⟨before, other, after, heq, hconflict, hdistinct⟩
    -- The conflict is with the first effect, or after it.
    cases before with
    | nil =>
      obtain ⟨rfl, _⟩ := List.cons.inj heq
      exact Or.inl hconflict
    | cons first before =>
      obtain ⟨rfl, rfl⟩ := List.cons.inj heq
      rw [List.cons_append, List.map_cons, hcons] at hdistinct
      exact Or.inr ⟨before, other, after, rfl, hconflict, hdistinct⟩
  · rintro (hconflict | ⟨before, other, after, rfl, hconflict, hdistinct⟩)
    · refine ⟨[], effect, effects, rfl, hconflict, ?_⟩
      show PostgresSteps.repeatedKey (effect.key :: []) seen = none
      rw [hcons]
      rfl
    · refine ⟨effect :: before, other, after, rfl, hconflict, ?_⟩
      rw [List.cons_append, List.map_cons, hcons]
      exact hdistinct

/-- What the first pass over the effects raises: the first fault it comes to. -/
theorem planEffects_raises [BEq V] (b : String) (effects : List (EffectCompletion V))
    (seen : List String) :
    (ConflictAfter s b effects seen →
      ∃ e, e.refusal = .effectConflict ∧ s.planEffects b effects seen = .error e) ∧
    (¬ ConflictAfter s b effects seen →
      PostgresSteps.repeatedKey (effects.map EffectCompletion.key) seen ≠ none →
        ∃ e, e.refusal = .valueError ∧ s.planEffects b effects seen = .error e) ∧
    (¬ ConflictAfter s b effects seen →
      PostgresSteps.repeatedKey (effects.map EffectCompletion.key) seen = none →
        ∃ completed, s.planEffects b effects seen = .ok completed) := by
  -- Induction on the effects: a repeated key, a conflict here, or neither, in the order the plan
  -- checks.
  induction effects generalizing seen with
  | nil =>
    refine ⟨fun ⟨before, effect, after, heq, _⟩ => ?_, fun _ hrepeated => absurd rfl hrepeated,
      fun _ _ => ⟨[], rfl⟩⟩
    cases before <;> cases heq
  | cons effect effects ih =>
    rw [List.map_cons]
    by_cases hseen : effect.key ∈ seen
    · have hplan : s.planEffects b (effect :: effects) seen
          = .error (.valueError (.repeatedEffect effect.key)) := if_pos hseen
      have hrepeated : PostgresSteps.repeatedKey (effect.key :: effects.map EffectCompletion.key)
          seen = some effect.key := if_pos hseen
      refine ⟨fun ⟨before, other, after, heq, _, hdistinct⟩ => ?_, fun _ _ => ⟨_, rfl, hplan⟩,
        fun _ hnone => by rw [hrepeated] at hnone; cases hnone⟩
      -- A conflict later on would have a plan without repeats up to it, and this key repeats.
      have hhead : effect.key ∈ (before ++ [other]).map EffectCompletion.key := by
        cases before with
        | nil =>
          obtain ⟨rfl, _⟩ := List.cons.inj heq
          exact List.mem_cons_self
        | cons first before =>
          obtain ⟨rfl, _⟩ := List.cons.inj heq
          exact List.mem_cons_self
      exact absurd hseen ((repeatedKey_eq_none.mp hdistinct).2 _ hhead)
    · obtain ⟨hconflict, hrepeat, hok⟩ := ih (effect.key :: seen)
      have hrest : PostgresSteps.repeatedKey (effect.key :: effects.map EffectCompletion.key) seen
          = PostgresSteps.repeatedKey (effects.map EffectCompletion.key) (effect.key :: seen) :=
        if_neg hseen
      rw [conflictAfter_cons hseen, hrest]
      unfold MemorySteps.planEffects
      rw [if_neg hseen]
      dsimp only
      -- A new key: it conflicts, or the plan goes on with it among the seen.
      by_cases hhere : Conflicting s b effect
      · have hdone : ¬ ((s.entry b effect.key).status = .done ∧
            ((s.entry b effect.key).value == effect.value) = true) :=
          fun hyes => hhere (Or.inl hyes)
        have hexpected : (s.entry b effect.key).status ≠ effect.expected.status :=
          fun hyes => hhere (Or.inr hyes)
        refine ⟨fun _ => ?_, fun hno => absurd (Or.inl hhere) hno,
          fun hno => absurd (Or.inl hhere) hno⟩
        -- Which of the two texts it is depends on the status; both are conflicts.
        by_cases hyes : (s.entry b effect.key).status = .done
        · rw [if_pos hyes, if_pos (by simpa [bne] using fun heq => hdone ⟨hyes, heq⟩)]
          exact ⟨_, rfl, rfl⟩
        · rw [if_neg hyes, if_pos hexpected]
          exact ⟨_, rfl, rfl⟩
      · rw [or_iff_right hhere]
        rcases not_not.mp hhere with ⟨hdone, heq⟩ | hexpected
        · rw [if_pos hdone, if_neg (by simp [bne, heq])]
          exact ⟨hconflict, hrepeat, hok⟩
        · have hdone : (s.entry b effect.key).status ≠ .done := by
            rw [hexpected]
            exact Expected.status_ne_done _
          rw [if_neg hdone, if_neg (not_not.mpr hexpected)]
          refine ⟨fun hyes => ?_, fun hno hrepeated => ?_, fun hno hnone => ?_⟩
          · obtain ⟨e, hrefusal, hplan⟩ := hconflict hyes
            rw [hplan]
            exact ⟨e, hrefusal, rfl⟩
          · obtain ⟨e, hrefusal, hplan⟩ := hrepeat hno hrepeated
            rw [hplan]
            exact ⟨e, hrefusal, rfl⟩
          · obtain ⟨completed, hplan⟩ := hok hno hnone
            rw [hplan]
            exact ⟨_, rfl⟩

theorem conflictFirst_of_distinct [BEq V] {b : String} {effects : List (EffectCompletion V)}
    (hdistinct : (effects.map EffectCompletion.key).Nodup) :
    ConflictFirst s b effects ↔ ∃ effect ∈ effects, Conflicting s b effect := by
  constructor
  · rintro ⟨before, effect, after, rfl, hconflict, _⟩
    exact ⟨effect, List.mem_append_right _ List.mem_cons_self, hconflict⟩
  · rintro ⟨effect, hmem, hconflict⟩
    obtain ⟨before, after, rfl⟩ := List.append_of_mem hmem
    refine ⟨before, effect, after, rfl, hconflict, ?_⟩
    rw [List.append_cons, List.map_append] at hdistinct
    exact (List.nodup_append.mp hdistinct).1

theorem returns_setControl (b key : String) (value : Option V) :
    (PostgresSteps.setControl b key value).Returns :=
  (Txn.returns_exec _).bind fun _ => Txn.returns_pure _

theorem returns_enqueueInput (b inputId : String) (value : V) :
    (PostgresSteps.enqueueInput b inputId value).Returns :=
  (Txn.returns_exec _).bind fun _ => Txn.returns_pure _

theorem returns_insertInputs (b : String) (inputs : List (String × V)) :
    (PostgresSteps.insertInputs b inputs).Returns := by
  induction inputs with
  | nil => exact Txn.returns_pure _
  | cons item inputs ih =>
    exact (returns_enqueueInput b item.1 item.2).bind fun _ => ih.bind fun _ => Txn.returns_pure _

theorem returns_setInputStatus (b inputId : String) (status : InputStatus)
    (allowed : InputStatus → Bool) :
    (PostgresSteps.setInputStatus b inputId status allowed : PgTxn V Unit).Returns :=
  (Txn.returns_exec _).bind fun _ => Txn.returns_pure _

/-- What the durable ledger raises behind the fence: a bad key first, then a conflict. -/
theorem applyTransition_raises [BEq V] (h : SameLedgers s t) (b : String)
    (transition : ExecutionTransition V) :
    let r := raised PgError.refusal
      ((PostgresSteps.applyTransition b transition).alone t).1
    let bad := ¬ (transition.effects.map EffectCompletion.key).Nodup ∨ overlap transition ≠ []
    (bad → r = some .valueError) ∧
    (¬ bad → ConflictFirst s b transition.effects → r = some .effectConflict) ∧
    (¬ bad → ¬ ConflictFirst s b transition.effects → r = none) := by
  intro r bad
  have hr : r = raised PgError.refusal ((PostgresSteps.applyTransition b transition).eval t).1 :=
    rfl
  unfold PostgresSteps.applyTransition at hr
  cases hrepeated : PostgresSteps.repeatedKey (transition.effects.map EffectCompletion.key) [] with
  -- A repeated key is found before anything is written.
  | some key =>
    rw [hrepeated] at hr
    have hbad : bad := by
      refine Or.inl fun hnodup => ?_
      rw [repeatedKey_eq_none.mpr ⟨hnodup, fun _ _ => List.not_mem_nil⟩] at hrepeated
      cases hrepeated
    exact ⟨fun _ => hr, fun hgood => absurd hbad hgood, fun hgood => absurd hbad hgood⟩
  | none =>
    rw [hrepeated] at hr
    have hdistinct := (repeatedKey_eq_none.mp hrepeated).1
    dsimp only at hr
    -- Then the overlap, and only then the effects.
    by_cases hoverlap : overlap transition = []
    · have hgood : ¬ bad := by
        rintro (hrepeats | hshared)
        · exact hrepeats hdistinct
        · exact hshared hoverlap
      rw [if_neg (not_not.mpr hoverlap)] at hr
      obtain ⟨hconflict, hfree⟩ := effects_raise (t := t)
        (fun effect _ => h.steps b effect.key) hdistinct
      refine ⟨fun hbad => absurd hbad hgood, fun _ hfirst => ?_, fun _ hfirst => ?_⟩
      · obtain ⟨e, t', hrefusal, heval⟩ :=
          hconflict ((conflictFirst_of_distinct hdistinct).mp hfirst)
        rw [Txn.eval_bind_of_error heval] at hr
        rw [hr]
        exact congrArg some hrefusal
      · obtain ⟨t', heval⟩ := hfree fun effect hmem hconflicting =>
          hfirst ((conflictFirst_of_distinct hdistinct).mpr ⟨effect, hmem, hconflicting⟩)
        rw [Txn.eval_bind_of_ok heval] at hr
        -- Past the effects nothing raises: controls and inputs are written unconditionally.
        have hreturns : ((transition.controls.items.forM fun item =>
            PostgresSteps.setControl b item.1 item.2) >>= fun _ =>
              PostgresSteps.insertInputs b transition.inputs).Returns :=
          (Txn.returns_forM (fun item : String × Option V => returns_setControl b item.1 item.2)
            _).bind
            fun _ => returns_insertInputs b transition.inputs
        exact hr.trans (raised_of_returns hreturns)
    · rw [if_pos hoverlap] at hr
      exact ⟨fun _ => hr, fun hgood => absurd (Or.inr hoverlap) hgood,
        fun hgood => absurd (Or.inr hoverlap) hgood⟩

theorem commitTransition_alike [BEq V] (h : SameLedgers s t) (b : String)
    (transition : ExecutionTransition V) (token : Int) :
    raised StoreError.refusal (s.commitTransition b transition token).1
        = raised PgError.refusal
          ((PostgresSteps.commitTransition b transition token).alone t).1 ↔
      ¬ (¬ Outdated s b token ∧ ConflictFirst s b transition.effects ∧
        (¬ (transition.effects.map EffectCompletion.key).Nodup ∨ overlap transition ≠ [])) := by
  unfold MemorySteps.commitTransition PostgresSteps.commitTransition
  -- Both fence first.
  by_cases hstale : Outdated s b token
  · rw [fenced_of_outdated hstale, h.pgFence_of_outdated hstale]
    exact iff_of_true rfl fun hall => hall.1 hstale
  rw [fenced_of_current hstale, h.pgFence_of_current hstale]
  obtain ⟨hbad, hconflict, hgood⟩ := applyTransition_raises h b transition
  obtain ⟨hplanConflict, hplanRepeat, hplanOk⟩ := planEffects_raises (s := s) b
    transition.effects []
  rw [conflictAfter_nil] at hplanConflict hplanRepeat hplanOk
  -- The dictionaries plan the effects before they look for an overlap, PostgreSQL after: with both
  -- a conflict and a bad transition the refusals differ.
  by_cases hfirst : ConflictFirst s b transition.effects
  · obtain ⟨e, hrefusal, hplan⟩ := hplanConflict hfirst
    rw [hplan]
    show some e.refusal = _ ↔ _
    rw [hrefusal]
    by_cases hboth : ¬ (transition.effects.map EffectCompletion.key).Nodup ∨
        overlap transition ≠ []
    · rw [hbad hboth]
      exact iff_of_false (by decide) fun hno => hno ⟨hstale, hfirst, hboth⟩
    · rw [hconflict hboth hfirst]
      exact iff_of_true rfl fun hall => hboth hall.2.2
  · -- No conflict: each store finds the same fault, or none.
    refine iff_of_true ?_ fun hall => hfirst hall.2.1
    cases hrepeated : PostgresSteps.repeatedKey (transition.effects.map EffectCompletion.key)
        [] with
    | some key =>
      have hrepeats : ¬ (transition.effects.map EffectCompletion.key).Nodup := by
        intro hnodup
        rw [repeatedKey_eq_none.mpr ⟨hnodup, fun _ _ => List.not_mem_nil⟩] at hrepeated
        cases hrepeated
      obtain ⟨e, hrefusal, hplan⟩ := hplanRepeat hfirst (by rw [hrepeated]; simp)
      rw [hplan, hbad (Or.inl hrepeats)]
      exact congrArg some hrefusal
    | none =>
      obtain ⟨completed, hplan⟩ := hplanOk hfirst hrepeated
      rw [hplan]
      dsimp only
      by_cases hoverlap : overlap transition = []
      · have hneither : ¬ (¬ (transition.effects.map EffectCompletion.key).Nodup ∨
            overlap transition ≠ []) := by
          rintro (hrepeats | hshared)
          · exact hrepeats (repeatedKey_eq_none.mp hrepeated).1
          · exact hshared hoverlap
        rw [if_neg (not_not.mpr hoverlap), hgood hneither hfirst]
        rfl
      · rw [if_pos hoverlap, hbad (Or.inr hoverlap)]
        rfl

/-! ## Section 6: Decisions -/

theorem resolutionPayload_refusal {key : String} {resolution : EffectResolution V}
    {workersStopped : Bool} {e : StoreError}
    (h : resolutionPayload key resolution workersStopped = .error e) :
    e.refusal = .valueError := by
  unfold resolutionPayload at h
  split_ifs at h <;> cases h <;> rfl

/-- Behind the fence, and with a valid decision: the ledgers differ on the repetition of a
    decision about a step that the durable one has no row of. -/
theorem applyResolution_alike [BEq V] (h : SameLedgers s t) {b key : String}
    {resolution : EffectResolution V} {workersStopped : Bool} {token : Int}
    {payload : ResolutionPayload V} (hcurrent : ¬ Outdated s b token)
    (hpayload : resolutionPayload key resolution workersStopped = .ok payload) :
    raised StoreError.refusal (s.resolveEffect b key resolution workersStopped token).1
        = raised PgError.refusal
          ((PostgresSteps.applyResolution b key resolution payload).alone t).1 ↔
      ¬ (t.rows (.step b key) = none ∧ ∃ previous,
        s.decisions.get? (b, resolution.decisionId) = some previous ∧
        (previous == payload) = true) := by
  have hkey : payload.key = key := by rw [resolutionPayload_ok hpayload]
  have hsame := h.steps b key
  have hdecision := h.decisions b resolution.decisionId
  have heval : (PostgresSteps.applyResolution b key resolution payload).eval t = _ :=
    Txn.eval_bind_of_ok (Txn.eval_selectForUpdate ..) _
  unfold MemorySteps.resolveEffect
  rw [fenced_of_current hcurrent, hpayload, alone_reply]
  dsimp only
  -- PostgreSQL looks for the row first, the dictionaries for the decision.
  cases hrow : t.rows (.step b key) with
  | none =>
    rw [hrow] at hsame heval
    have habsent : (s.entry b key).status = .absent := hsame.status
    rw [heval]
    cases hprevious : s.decisions.get? (b, resolution.decisionId) with
    | none =>
      dsimp only
      rw [if_pos (Or.inl (by rw [habsent]; decide))]
      refine iff_of_true rfl ?_
      rintro ⟨_, previous, hsome, _⟩
      cases hsome
    | some previous =>
      dsimp only
      -- Without a row a decision sent again is let pass here and refused there: the one difference.
      by_cases heq : (previous == payload) = true
      · rw [if_neg (by simp [bne, heq])]
        exact iff_of_false (by simp [raised]) fun hno => hno ⟨rfl, previous, rfl, heq⟩
      · rw [if_pos (by simp [bne, heq])]
        refine iff_of_true rfl ?_
        rintro ⟨_, other, hsome, hequal⟩
        obtain rfl := Option.some.inj hsome
        exact heq hequal
  -- With a row both look for the decision, then at status and version.
  | some row =>
    rw [hrow] at hsame heval
    have hstatus : (s.entry b key).status = row.status := hsame.status.trans (stepOf_status _)
    have hversion : ((s.entry b key).version : Int) = row.version := by
      refine hsame.version.trans ?_
      unfold PostgresSteps.stepOf
      dsimp only
      split <;> rfl
    refine iff_of_true ?_ fun hall => by cases hall.1
    have heval := heval.trans (Txn.eval_bind_of_ok (Txn.eval_select ..) _)
    cases hprevious : t.rows (.decision b resolution.decisionId) with
    | none =>
      rw [hprevious] at heval hdecision
      have hnone : s.decisions.get? (b, resolution.decisionId) = none :=
        Option.map_eq_none_iff.mp hdecision
      rw [hnone]
      dsimp only at heval ⊢
      rw [hstatus, hversion]
      -- A new decision: stale for both, or applied by both.
      by_cases hstale : row.status ≠ .running ∨ row.version ≠ resolution.expectedVersion
      · rw [if_pos hstale] at heval ⊢
        rw [heval]
        rfl
      · rw [if_neg hstale, eval_applyResolution_settled payload hrow hprevious hstale]
        rfl
    | some previous =>
      rw [hprevious] at heval hdecision
      obtain ⟨found, hfound, hpair⟩ := Option.map_eq_some_iff.mp hdecision
      obtain ⟨hpk, rfl⟩ := Prod.mk.inj hpair
      rw [hfound]
      dsimp only at heval ⊢
      -- A decision sent again: the same payload passes, another is a misuse.
      by_cases heq : (previous.payload == payload) = true
      · have hprevkey : previous.key = key := by
          rw [← hpk, ResolutionPayload.key_of_beq heq, hkey]
        rw [if_neg (by simp [hprevkey, bne, heq])] at heval
        rw [if_neg (by simp [bne, heq]), heval]
        rfl
      · rw [if_pos (Or.inr (by simp [bne, heq]))] at heval
        rw [if_pos (by simp [bne, heq]), heval]
        rfl

theorem resolveEffect_alike [BEq V] (h : SameLedgers s t) (b key : String)
    (resolution : EffectResolution V) (workersStopped : Bool) (token : Int) :
    raised StoreError.refusal (s.resolveEffect b key resolution workersStopped token).1
        = raised PgError.refusal
          ((PostgresSteps.resolveEffect b key resolution workersStopped token).alone t).1 ↔
      ¬ Clash s t (.resolveEffect b key resolution workersStopped token) := by
  unfold Clash PostgresSteps.resolveEffect
  cases hpayload : resolutionPayload key resolution workersStopped with
  -- A malformed resolution is refused before the fence by PostgreSQL, after it by the dictionaries.
  | error e =>
    have hrefusal := resolutionPayload_refusal hpayload
    have hpg : raised PgError.refusal ((throw (.store e) : PgTxn V (PgStep V)).alone t).1
        = some .valueError := congrArg some hrefusal
    dsimp only
    rw [hpg]
    unfold MemorySteps.resolveEffect
    by_cases hstale : Outdated s b token
    · rw [fenced_of_outdated hstale]
      exact iff_of_false (by decide) fun hno => hno (Or.inl ⟨hstale, e, hpayload⟩)
    · rw [fenced_of_current hstale, hpayload]
      refine iff_of_true (congrArg some hrefusal) ?_
      rintro (⟨hyes, _⟩ | ⟨_, _, payload, _, hok, _⟩)
      · exact hstale hyes
      · cases hok
  -- A well-formed one meets the fence first in both.
  | ok payload =>
    dsimp only
    by_cases hstale : Outdated s b token
    · rw [h.pgFence_of_outdated hstale]
      unfold MemorySteps.resolveEffect
      rw [fenced_of_outdated hstale]
      refine iff_of_true rfl ?_
      rintro (⟨_, e, herror⟩ | ⟨hno, _⟩)
      · rw [hpayload] at herror
        cases herror
      · exact hno hstale
    · rw [h.pgFence_of_current hstale, applyResolution_alike h hstale hpayload]
      refine not_congr ⟨fun ⟨hrow, previous, hprevious, heq⟩ => Or.inr
        ⟨hstale, hrow, payload, previous, hpayload, hprevious, heq⟩, ?_⟩
      rintro (⟨hyes, _⟩ | ⟨_, hrow, payload', previous, hok, hprevious, heq⟩)
      · exact absurd hyes hstale
      · obtain rfl := Except.ok.inj (hpayload.symm.trans hok)
        exact ⟨hrow, previous, hprevious, heq⟩

/-! ## Section 7: Every call -/

/-- Several inputs are made terminal: the fence is in front of the empty list in one ledger
    only. -/
theorem terminal_alike (h : SameLedgers s t) (b : String) (inputIds : List String) (token : Int)
    (status : InputStatus) (allowed : InputStatus → Bool) (s' : MemorySteps V) :
    raised StoreError.refusal (s.fenced b token (.ok (), s')).1
        = raised PgError.refusal (Txn.alone (ε := PgError) (if inputIds = [] then pure ()
          else do
            PostgresSteps.fence b token
            inputIds.forM fun inputId => PostgresSteps.setInputStatus b inputId status allowed)
          t).1 ↔
      ¬ (inputIds = [] ∧ Outdated s b token) := by
  by_cases hempty : inputIds = []
  · rw [if_pos hempty]
    by_cases hstale : Outdated s b token
    · rw [fenced_of_outdated hstale]
      exact iff_of_false (by simp [alone_reply, raised]) fun hno => hno ⟨hempty, hstale⟩
    · rw [fenced_of_current hstale]
      exact iff_of_true rfl fun hboth => hstale hboth.2
  · rw [if_neg hempty]
    refine iff_of_true (h.returns b token rfl ?_) fun hboth => hempty hboth.1
    exact Txn.returns_forM (fun inputId => returns_setInputStatus b inputId status allowed) _

/-- **The ledgers refuse alike, one fault at a time**: in states that agree, a call raises in the
    one ledger exactly when it raises in the other, and the same type of exception, if and only if
    it does not combine two faults that they look at in different orders. Values, identifiers and
    times to live are ones that PostgreSQL can store: text without a null character, JSON that
    `jsonb` takes, intervals in range. What it refuses beyond that is not the ledger's doing. -/
theorem refuse_alike_iff [BEq V] (h : SameLedgers s t) (c : LedgerCall V) :
    RefuseAlike s t c ↔ ¬ Clash s t c.op := by
  obtain ⟨op, now, later⟩ := c
  unfold RefuseAlike
  show raised _ (op.perform now later s).1 = raised _ (op.performPg now t).1 ↔ _
  -- Only `resolve_effect` and `commit_transition` can differ; the rest refuse nothing past the
  -- fence, or the same.
  cases op with
  | read b key =>
    refine iff_of_true ?_ id
    show _ = raised _ ((PostgresSteps.read b key).alone t).1
    rw [alone_reply, PostgresSteps.eval_read]
    rfl
  | start b key token =>
    refine iff_of_true (h.returns b token ?_ (Txn.returns_exec _ |>.bind fun _ =>
      Txn.returns_pure _)) id
    dsimp only
    split <;> rfl
  | finishEffect b key value token => exact iff_of_true (finishEffect_alike h b key value token) id
  | resolveEffect b key resolution workersStopped token =>
    exact resolveEffect_alike h b key resolution workersStopped token
  | writeControl b key value token =>
    exact iff_of_true (h.returns b token rfl (returns_setControl b key value)) id
  | forget b key token =>
    refine iff_of_true (h.returns b token ?_ (Txn.returns_exec _ |>.bind fun _ =>
      Txn.returns_pure _)) id
    dsimp only
    split <;> rfl
  | acquire b owner ttl =>
    refine iff_of_true (raised_of_returns ?_).symm id
    refine (Txn.returns_exec _).bind fun row => ?_
    cases row <;> exact Txn.returns_pure _
  | release b owner =>
    exact iff_of_true (raised_of_returns
      ((Txn.returns_exec _).bind fun _ => Txn.returns_pure _)).symm id
  | enqueueInput b inputId value =>
    exact iff_of_true (raised_of_returns (returns_enqueueInput b inputId value)).symm id
  | listInputs b => exact iff_of_true rfl id
  | claimInput b inputId token =>
    exact iff_of_true (h.returns b token rfl (returns_setInputStatus b inputId _ _)) id
  | admitInputs b inputIds token => exact terminal_alike h b inputIds token .admitted _ _
  | discardInputs b inputIds token => exact terminal_alike h b inputIds token .discarded _ _
  | commitTransition b transition token => exact commitTransition_alike h b transition token

/-- Related ledgers agree. -/
theorem LedgerRel.sameLedgers {clock : ℚ} (h : LedgerRel clock s t) : SameLedgers s t where
  steps := h.agree.steps
  decisions b decisionId := by
    rw [h.decisions.same, Option.map_map]
    cases hrow : t.rows (.decision b decisionId) with
    | none => rfl
    | some row =>
      have hkey := (h.decisions.known b decisionId row hrow).1
      simp [hkey]
  tokens := h.leases.issued
  inputs := h.inputs.queues

end proofs

/-- The ledgers once the branch's lease has changed hands: the newest token is two. -/
theorem handover_same : SameLedgers ((ledger Nat).upTo .init handover 7)
    ((postgres Nat).upTo .empty handover 7) := by
  obtain ⟨clock, hrel, _⟩ := ledgers_related handover_clock handover_off 7
  exact hrel.sameLedgers

/-- An empty list and a token that is outdated: the one ledger raises, the other returns. -/
theorem refusals_differ :
    SameLedgers ((ledger Nat).upTo .init handover 7) ((postgres Nat).upTo .empty handover 7) ∧
      ¬ RefuseAlike ((ledger Nat).upTo .init handover 7) ((postgres Nat).upTo .empty handover 7)
        ⟨.admitInputs "mail" [] 1, 8, 8⟩ := by
  refine ⟨handover_same, fun halike => ?_⟩
  have hmemory : raised StoreError.refusal
      ((ledger Nat).reply ((ledger Nat).upTo .init handover 7) ⟨.admitInputs "mail" [] 1, 8, 8⟩)
        = some .fenced := by
    decide +kernel
  have hpg : raised PgError.refusal ((postgres Nat).reply
      ((postgres Nat).upTo .empty handover 7) ⟨.admitInputs "mail" [] 1, 8, 8⟩) = none := by
    decide +kernel
  exact absurd (hmemory.symm.trans (halike.trans hpg)) (by decide)

theorem refuse_alike_handover :
    RefuseAlike ((ledger Nat).upTo .init handover 7) ((postgres Nat).upTo .empty handover 7)
        ⟨.start "mail" "send" 1, 8, 8⟩ ↔
      ¬ Clash ((ledger Nat).upTo .init handover 7) ((postgres Nat).upTo .empty handover 7)
        (.start "mail" "send" 1) :=
  refuse_alike_iff handover_same ⟨.start "mail" "send" 1, 8, 8⟩

end Semora
