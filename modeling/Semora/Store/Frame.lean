import Semora.Store.Operations

/-! # One Branch of the Ledger

    Every table of the ledger is keyed by branch first, and every method
    works on one branch. Two facts follow, and everything about separate
    branches rests on them:

    * frame: a call leaves every other branch's rows as they were;
    * congruence: stores with the same rows for a branch answer a call on
      it alike, and still have the same rows for it afterwards. -/

namespace Semora

open Machine

namespace MemorySteps

variable {V : Type}

/-- The same rows for branch `b` in every table. -/
structure AgreeOn (b : String) (s t : MemorySteps V) : Prop where
  entries : ∀ key, s.entries.get? (b, key) = t.entries.get? (b, key)
  lease : s.leases.get? b = t.leases.get? b
  token : s.tokens.get? b = t.tokens.get? b
  /-- The branch's queue, in the order the dictionary holds it. -/
  queue : s.inputs.items.filter (fun item => item.1.1 = b)
    = t.inputs.items.filter (fun item => item.1.1 = b)
  sequence : s.inputSequence.get? b = t.inputSequence.get? b
  decisions : ∀ decisionId, s.decisions.get? (b, decisionId) = t.decisions.get? (b, decisionId)

namespace AgreeOn

variable {b : String} {s t u : MemorySteps V}

theorem refl (b : String) (s : MemorySteps V) : AgreeOn b s s :=
  ⟨fun _ => rfl, rfl, rfl, rfl, rfl, fun _ => rfl⟩

theorem symm (h : AgreeOn b s t) : AgreeOn b t s :=
  ⟨fun key => (h.entries key).symm, h.lease.symm, h.token.symm, h.queue.symm,
    h.sequence.symm, fun d => (h.decisions d).symm⟩

theorem trans (h₁ : AgreeOn b s t) (h₂ : AgreeOn b t u) : AgreeOn b s u :=
  ⟨fun key => (h₁.entries key).trans (h₂.entries key), h₁.lease.trans h₂.lease,
    h₁.token.trans h₂.token, h₁.queue.trans h₂.queue, h₁.sequence.trans h₂.sequence,
    fun d => (h₁.decisions d).trans (h₂.decisions d)⟩

/-! ## What agreeing stores have in common -/

theorem entry (h : AgreeOn b s t) (key : String) : s.entry b key = t.entry b key := by
  simp only [MemorySteps.entry, Dict.getD, h.entries]

theorem read (h : AgreeOn b s t) (key : String) : s.read b key = t.read b key := by
  simp only [MemorySteps.read, h.entry]

theorem issued (h : AgreeOn b s t) : s.issued b = t.issued b := by
  simp only [MemorySteps.issued, Dict.getD, h.token]

theorem input (h : AgreeOn b s t) (inputId : String) :
    s.inputs.get? (b, inputId) = t.inputs.get? (b, inputId) := by
  have hb : decide ((b, inputId).1 = b) = true := by simp
  have hs := Dict.find_filter (fun k => decide (k.1 = b)) hb s.inputs.items
  have ht := Dict.find_filter (fun k => decide (k.1 = b)) hb t.inputs.items
  unfold Dict.get?
  rw [← hs, ← ht, h.queue]

theorem listInputs (h : AgreeOn b s t) : s.listInputs b = t.listInputs b := by
  simp only [MemorySteps.listInputs, h.queue]

/-! ## Writing the same row on both sides -/

theorem setEntry (h : AgreeOn b s t) (key : String) (step : Step V) :
    AgreeOn b (s.setEntry b key step) (t.setEntry b key step) where
  entries key' := by simp only [MemorySteps.setEntry, Dict.get?_set, h.entries]
  lease := h.lease
  token := h.token
  queue := h.queue
  sequence := h.sequence
  decisions := h.decisions

theorem setDecision (h : AgreeOn b s t) (decisionId : String) (payload : ResolutionPayload V) :
    AgreeOn b { s with decisions := s.decisions.set (b, decisionId) payload }
      { t with decisions := t.decisions.set (b, decisionId) payload } where
  entries := h.entries
  lease := h.lease
  token := h.token
  queue := h.queue
  sequence := h.sequence
  decisions d := by simp only [Dict.get?_set, h.decisions]

theorem setLease (h : AgreeOn b s t) (lease : Lease) :
    AgreeOn b { s with leases := s.leases.set b lease }
      { t with leases := t.leases.set b lease } where
  entries := h.entries
  lease := by simp only [Dict.get?_set_self]
  token := h.token
  queue := h.queue
  sequence := h.sequence
  decisions := h.decisions

theorem setToken (h : AgreeOn b s t) (token : Int) :
    AgreeOn b { s with tokens := s.tokens.set b token }
      { t with tokens := t.tokens.set b token } where
  entries := h.entries
  lease := h.lease
  token := by simp only [Dict.get?_set_self]
  queue := h.queue
  sequence := h.sequence
  decisions := h.decisions

theorem setInput (h : AgreeOn b s t) (inputId : String) (record : InputRecord V) :
    AgreeOn b { s with inputs := s.inputs.set (b, inputId) record }
      { t with inputs := t.inputs.set (b, inputId) record } where
  entries := h.entries
  lease := h.lease
  token := h.token
  queue := by
    have hb : decide ((b, inputId).1 = b) = true := by simp
    have hs := Dict.filter_put_of_mem (fun k => decide (k.1 = b)) record hb s.inputs.items
    have ht := Dict.filter_put_of_mem (fun k => decide (k.1 = b)) record hb t.inputs.items
    simp only [Dict.set]
    rw [hs, ht, h.queue]
  sequence := h.sequence
  decisions := h.decisions

theorem setSequence (h : AgreeOn b s t) (n : Nat) :
    AgreeOn b { s with inputSequence := s.inputSequence.set b n }
      { t with inputSequence := t.inputSequence.set b n } where
  entries := h.entries
  lease := h.lease
  token := h.token
  queue := h.queue
  sequence := by simp only [Dict.get?_set_self]
  decisions := h.decisions

theorem appendInput (h : AgreeOn b s t) (inputId : String) (value : V) :
    AgreeOn b (s.appendInput b inputId value) (t.appendInput b inputId value) := by
  have hseq : s.inputSequence.getD b 0 = t.inputSequence.getD b 0 := by
    simp only [Dict.getD, h.sequence]
  unfold MemorySteps.appendInput
  rw [hseq]
  exact (h.setInput inputId _).setSequence _

theorem setInputStatus (h : AgreeOn b s t) (inputId : String) (status : InputStatus)
    (allowed : InputStatus → Bool) :
    AgreeOn b (s.setInputStatus b inputId status allowed)
      (t.setInputStatus b inputId status allowed) := by
  unfold MemorySteps.setInputStatus
  rw [h.input inputId]
  split
  · split
    · exact h.setInput inputId _
    · exact h
  · exact h

/-! ## Writing elsewhere -/

theorem setEntry_frame {b' : String} (hb : b' ≠ b) (s : MemorySteps V) (key : String)
    (step : Step V) : AgreeOn b s (s.setEntry b' key step) where
  entries key' := by simp [MemorySteps.setEntry, Ne.symm hb]
  lease := rfl
  token := rfl
  queue := rfl
  sequence := rfl
  decisions _ := rfl

theorem setDecision_frame {b' : String} (hb : b' ≠ b) (s : MemorySteps V) (decisionId : String)
    (payload : ResolutionPayload V) :
    AgreeOn b s { s with decisions := s.decisions.set (b', decisionId) payload } where
  entries _ := rfl
  lease := rfl
  token := rfl
  queue := rfl
  sequence := rfl
  decisions d := by simp [Ne.symm hb]

theorem setLease_frame {b' : String} (hb : b' ≠ b) (s : MemorySteps V) (lease : Lease) :
    AgreeOn b s { s with leases := s.leases.set b' lease } where
  entries _ := rfl
  lease := by simp [Ne.symm hb]
  token := rfl
  queue := rfl
  sequence := rfl
  decisions _ := rfl

theorem setToken_frame {b' : String} (hb : b' ≠ b) (s : MemorySteps V) (token : Int) :
    AgreeOn b s { s with tokens := s.tokens.set b' token } where
  entries _ := rfl
  lease := rfl
  token := by simp [Ne.symm hb]
  queue := rfl
  sequence := rfl
  decisions _ := rfl

theorem setInput_frame {b' : String} (hb : b' ≠ b) (s : MemorySteps V) (inputId : String)
    (record : InputRecord V) :
    AgreeOn b s { s with inputs := s.inputs.set (b', inputId) record } where
  entries _ := rfl
  lease := rfl
  token := rfl
  queue := by
    have hb' : decide ((b', inputId).1 = b) = false := by simp [hb]
    exact (Dict.filter_put (fun k => decide (k.1 = b)) record hb' s.inputs.items).symm
  sequence := rfl
  decisions _ := rfl

theorem setSequence_frame {b' : String} (hb : b' ≠ b) (s : MemorySteps V) (n : Nat) :
    AgreeOn b s { s with inputSequence := s.inputSequence.set b' n } where
  entries _ := rfl
  lease := rfl
  token := rfl
  queue := rfl
  sequence := by simp [Ne.symm hb]
  decisions _ := rfl

theorem appendInput_frame {b' : String} (hb : b' ≠ b) (s : MemorySteps V) (inputId : String)
    (value : V) : AgreeOn b s (s.appendInput b' inputId value) :=
  (setInput_frame hb s inputId _).trans (setSequence_frame hb _ _)

theorem setInputStatus_frame {b' : String} (hb : b' ≠ b) (s : MemorySteps V)
    (inputId : String) (status : InputStatus) (allowed : InputStatus → Bool) :
    AgreeOn b s (s.setInputStatus b' inputId status allowed) := by
  unfold MemorySteps.setInputStatus
  split
  · split
    · exact setInput_frame hb s inputId _
    · exact refl b s
  · exact refl b s

/-! ## Loops -/

theorem foldl {ι : Type} {g : MemorySteps V → ι → MemorySteps V}
    (hg : ∀ s t i, AgreeOn b s t → AgreeOn b (g s i) (g t i)) (h : AgreeOn b s t)
    (items : List ι) : AgreeOn b (items.foldl g s) (items.foldl g t) := by
  induction items generalizing s t with
  | nil => exact h
  | cons i items ih => exact ih (hg s t i h)

theorem foldl_frame {ι : Type} {g : MemorySteps V → ι → MemorySteps V}
    (hg : ∀ s i, AgreeOn b s (g s i)) (s : MemorySteps V) (items : List ι) :
    AgreeOn b s (items.foldl g s) := by
  induction items generalizing s with
  | nil => exact refl b s
  | cons i items ih => exact (hg s i).trans (ih (g s i))

end AgreeOn

/-! ## Methods: congruence -/

/-- The same outcome, and the same rows for `b` left behind. -/
def SameOn {α : Type} (b : String) (x y : StoreOutcome V α) : Prop :=
  x.1 = y.1 ∧ AgreeOn b x.2 y.2

variable {b : String} {s t : MemorySteps V}

theorem AgreeOn.fenced {α : Type} (h : AgreeOn b s t) (token : Int) {rest rest' : StoreOutcome V α}
    (hrest : SameOn b rest rest') : SameOn b (s.fenced b token rest) (t.fenced b token rest') := by
  simp only [MemorySteps.fenced, MemorySteps.fence, h.issued]
  split
  · next heq =>
    split at heq
    · cases heq
      exact ⟨rfl, h⟩
    · cases heq
  · exact hrest

theorem AgreeOn.resolveEffect [BEq V] (h : AgreeOn b s t) (key : String)
    (resolution : EffectResolution V) (workersStopped : Bool) (token : Int) :
    SameOn b (s.resolveEffect b key resolution workersStopped token)
      (t.resolveEffect b key resolution workersStopped token) := by
  unfold MemorySteps.resolveEffect
  refine h.fenced token ?_
  split
  · exact ⟨rfl, h⟩
  · next payload _ =>
    rw [h.decisions]
    split
    · split
      · exact ⟨rfl, h⟩
      · exact ⟨by rw [h.read], h⟩
    · dsimp only
      rw [h.entry]
      split
      · exact ⟨rfl, h⟩
      · refine ⟨congrArg Except.ok (AgreeOn.read ?_ key), ?_⟩
        · exact (h.setEntry key _).setDecision resolution.decisionId payload
        · exact (h.setEntry key _).setDecision resolution.decisionId payload

theorem AgreeOn.planEffects [BEq V] (h : AgreeOn b s t) (effects : List (EffectCompletion V))
    (seen : List String) : s.planEffects b effects seen = t.planEffects b effects seen := by
  induction effects generalizing seen with
  | nil => rfl
  | cons effect rest ih => simp only [MemorySteps.planEffects, h.entry, ih]

theorem AgreeOn.applyInputs (h : AgreeOn b s t) (inputs : List (String × V)) :
    (s.applyInputs b inputs).1 = (t.applyInputs b inputs).1 ∧
      AgreeOn b (s.applyInputs b inputs).2 (t.applyInputs b inputs).2 := by
  induction inputs generalizing s t with
  | nil => exact ⟨rfl, h⟩
  | cons item rest ih =>
    unfold MemorySteps.applyInputs
    rw [h.input]
    split
    · exact ih h
    · have hrest := ih (h.appendInput item.1 item.2)
      exact ⟨congrArg (item.1 :: ·) hrest.1, hrest.2⟩

theorem AgreeOn.commitTransition [BEq V] (h : AgreeOn b s t) (transition : ExecutionTransition V)
    (token : Int) :
    SameOn b (s.commitTransition b transition token) (t.commitTransition b transition token) := by
  unfold MemorySteps.commitTransition
  refine h.fenced token ?_
  rw [h.planEffects]
  split
  · exact ⟨rfl, h⟩
  · split
    · exact ⟨rfl, h⟩
    · next completed _ _ =>
      have hcompleted : AgreeOn b (s.applyCompleted b completed) (t.applyCompleted b completed) :=
        AgreeOn.foldl (fun _ _ item h => h.setEntry item.1 _) h completed
      have hcontrols := AgreeOn.foldl (g := fun s item => s.setEntry b item.1
          { status := .done, value := item.2, version := (s.entry b item.1).version + 1 })
        (fun s t item h => by
          rw [h.entry]
          exact h.setEntry item.1 _) hcompleted transition.controls.items
      have hinputs := hcontrols.applyInputs transition.inputs
      exact ⟨congrArg Except.ok hinputs.1, hinputs.2⟩

theorem AgreeOn.acquire (h : AgreeOn b s t) (owner : String) (ttl now later : ℚ) :
    (s.acquire b owner ttl now later).1 = (t.acquire b owner ttl now later).1 ∧
      AgreeOn b (s.acquire b owner ttl now later).2 (t.acquire b owner ttl now later).2 := by
  have hgrant : (MemorySteps.acquire.grant s b owner ttl later).1
        = (MemorySteps.acquire.grant t b owner ttl later).1 ∧
      AgreeOn b (MemorySteps.acquire.grant s b owner ttl later).2
        (MemorySteps.acquire.grant t b owner ttl later).2 := by
    unfold MemorySteps.acquire.grant
    rw [h.issued]
    exact ⟨rfl, (h.setToken _).setLease _⟩
  unfold MemorySteps.acquire
  rw [h.lease]
  split
  · split
    · exact ⟨rfl, h.setLease _⟩
    · split
      · exact ⟨rfl, h⟩
      · exact hgrant
  · exact hgrant

/-- **Congruence.** The rows of its branch determine what a call answers and does to them. -/
theorem perform_congr [BEq V] (op : LedgerOp V) (now later : ℚ)
    (h : AgreeOn op.branchId s t) :
    SameOn op.branchId (op.perform now later s) (op.perform now later t) := by
  -- One case a method: what it reads and writes of the branch is the same in both states.
  cases op with
  | read b key => exact ⟨congrArg Except.ok (h.read key), h⟩
  | start b key token =>
    refine h.fenced token ?_
    dsimp only [LedgerOp.branchId] at h ⊢
    rw [h.entry]
    split
    · exact ⟨rfl, h⟩
    · exact ⟨rfl, h.setEntry key _⟩
  | finishEffect b key value token =>
    refine h.fenced token ?_
    dsimp only [LedgerOp.branchId] at h ⊢
    rw [h.entry]
    split
    · split <;> exact ⟨rfl, h⟩
    · split
      · exact ⟨rfl, h⟩
      · exact ⟨rfl, h.setEntry key _⟩
  | resolveEffect b key resolution workersStopped token =>
    exact h.resolveEffect key resolution workersStopped token
  | writeControl b key value token =>
    refine h.fenced token ?_
    dsimp only [LedgerOp.branchId] at h ⊢
    rw [h.entry]
    exact ⟨rfl, h.setEntry key _⟩
  | forget b key token =>
    refine h.fenced token ?_
    dsimp only [LedgerOp.branchId] at h ⊢
    rw [h.entry]
    split
    · exact ⟨rfl, h.setEntry key _⟩
    · exact ⟨rfl, h⟩
  | acquire b owner ttl =>
    have hacq := h.acquire owner ttl now later
    exact ⟨congrArg Except.ok hacq.1, hacq.2⟩
  | release b owner =>
    refine ⟨rfl, ?_⟩
    simp only [LedgerOp.perform, LedgerOp.branchId, MemorySteps.release] at h ⊢
    rw [h.lease]
    split
    · split
      · exact h.setLease _
      · exact h
    · exact h
  | enqueueInput b inputId value =>
    simp only [LedgerOp.perform, LedgerOp.branchId, MemorySteps.enqueueInput] at h ⊢
    rw [h.input]
    split
    · exact ⟨rfl, h⟩
    · exact ⟨rfl, h.appendInput inputId value⟩
  | listInputs b => exact ⟨congrArg Except.ok h.listInputs, h⟩
  | claimInput b inputId token =>
    refine h.fenced token ⟨rfl, ?_⟩
    dsimp only [LedgerOp.branchId] at h ⊢
    exact h.setInputStatus inputId .claimed _
  | admitInputs b inputIds token =>
    exact h.fenced token ⟨rfl, AgreeOn.foldl (fun _ _ id h => h.setInputStatus id _ _) h inputIds⟩
  | discardInputs b inputIds token =>
    exact h.fenced token ⟨rfl, AgreeOn.foldl (fun _ _ id h => h.setInputStatus id _ _) h inputIds⟩
  | commitTransition b transition token => exact h.commitTransition transition token

/-! ## Methods: frame -/

theorem fenced_frame {α : Type} {b' : String} {token : Int} {rest : StoreOutcome V α}
    (hrest : AgreeOn b s rest.2) : AgreeOn b s (s.fenced b' token rest).2 := by
  unfold fenced
  split
  · exact AgreeOn.refl b s
  · exact hrest

theorem applyInputs_frame {b' : String} (hb : b' ≠ b) (s : MemorySteps V)
    (inputs : List (String × V)) : AgreeOn b s (s.applyInputs b' inputs).2 := by
  induction inputs generalizing s with
  | nil => exact AgreeOn.refl b s
  | cons item rest ih =>
    unfold applyInputs
    split
    · exact ih s
    · exact (AgreeOn.appendInput_frame hb s item.1 item.2).trans (ih _)

theorem applyCompleted_frame {b' : String} (hb : b' ≠ b) (s : MemorySteps V)
    (completed : List (String × Option V × Nat)) :
    AgreeOn b s (s.applyCompleted b' completed) :=
  AgreeOn.foldl_frame (fun s _ => AgreeOn.setEntry_frame hb s _ _) s completed

theorem applyControls_frame {b' : String} (hb : b' ≠ b) (s : MemorySteps V)
    (controls : List (String × Option V)) : AgreeOn b s (s.applyControls b' controls) :=
  AgreeOn.foldl_frame (fun s _ => AgreeOn.setEntry_frame hb s _ _) s controls

theorem commitTransition_frame [BEq V] {b' : String} (hb : b' ≠ b) (s : MemorySteps V)
    (transition : ExecutionTransition V) (token : Int) :
    AgreeOn b s (s.commitTransition b' transition token).2 := by
  refine fenced_frame ?_
  split
  · exact AgreeOn.refl b s
  · split
    · exact AgreeOn.refl b s
    · next completed _ _ =>
      have hcompleted := applyCompleted_frame hb s completed
      have hcontrols := applyControls_frame hb (s.applyCompleted b' completed)
        transition.controls.items
      exact (hcompleted.trans hcontrols).trans (applyInputs_frame hb _ transition.inputs)

/-- **Frame.** A call leaves every other branch's rows as they were. -/
theorem perform_frame [BEq V] (op : LedgerOp V) (now later : ℚ) (s : MemorySteps V)
    (hb : op.branchId ≠ b) : AgreeOn b s (op.perform now later s).2 := by
  -- One case a method: whatever it writes, it writes on its own branch.
  cases op with
  | read b' key => exact AgreeOn.refl b s
  | listInputs b' => exact AgreeOn.refl b s
  | start b' key token =>
    refine fenced_frame ?_
    dsimp only
    split
    · exact AgreeOn.refl b s
    · exact AgreeOn.setEntry_frame hb s key _
  | finishEffect b' key value token =>
    refine fenced_frame ?_
    dsimp only
    split
    · split <;> exact AgreeOn.refl b s
    · split
      · exact AgreeOn.refl b s
      · exact AgreeOn.setEntry_frame hb s key _
  | resolveEffect b' key resolution workersStopped token =>
    refine fenced_frame ?_
    split
    · exact AgreeOn.refl b s
    · split
      · split <;> exact AgreeOn.refl b s
      · dsimp only
        split
        · exact AgreeOn.refl b s
        · exact (AgreeOn.setEntry_frame hb s key _).trans (AgreeOn.setDecision_frame hb _ _ _)
  | writeControl b' key value token => exact fenced_frame (AgreeOn.setEntry_frame hb s key _)
  | forget b' key token =>
    refine fenced_frame ?_
    dsimp only
    split
    · exact AgreeOn.setEntry_frame hb s key _
    · exact AgreeOn.refl b s
  | acquire b' owner ttl =>
    have hgrant : AgreeOn b s (MemorySteps.acquire.grant s b' owner ttl later).2 :=
      (AgreeOn.setToken_frame hb s _).trans (AgreeOn.setLease_frame hb _ _)
    simp only [LedgerOp.perform, acquire]
    split
    · split
      · exact AgreeOn.setLease_frame hb s _
      · split
        · exact AgreeOn.refl b s
        · exact hgrant
    · exact hgrant
  | release b' owner =>
    simp only [LedgerOp.perform, release]
    split
    · split
      · exact AgreeOn.setLease_frame hb s _
      · exact AgreeOn.refl b s
    · exact AgreeOn.refl b s
  | enqueueInput b' inputId value =>
    simp only [LedgerOp.perform, enqueueInput]
    split
    · exact AgreeOn.refl b s
    · exact AgreeOn.appendInput_frame hb s inputId value
  | claimInput b' inputId token =>
    refine fenced_frame ?_
    dsimp only
    exact AgreeOn.setInputStatus_frame hb s inputId .claimed _
  | admitInputs b' inputIds token =>
    exact fenced_frame (AgreeOn.foldl_frame
      (fun s id => AgreeOn.setInputStatus_frame hb s id _ _) s inputIds)
  | discardInputs b' inputIds token =>
    exact fenced_frame (AgreeOn.foldl_frame
      (fun s id => AgreeOn.setInputStatus_frame hb s id _ _) s inputIds)
  | commitTransition b' transition token => exact commitTransition_frame hb s transition token

end MemorySteps

end Semora
