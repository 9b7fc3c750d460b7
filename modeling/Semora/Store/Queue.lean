import Semora.Framework.Lists
import Semora.Store.Effects

/-! # The Input Queue

    What a call can do to the queue of a branch: append inputs whose ids are
    new, under the next sequence numbers, and move inputs towards their end.
    The properties of the queue are derived from that.

    * `QueueMoves`: what happens to the queues, one input after another.
    * `perform_queue`: a call makes such moves.
    * `Numbered`: every number is below the branch's counter. -/

namespace Semora

/-! ## Section 1: Moves -/

/-- How far an input has come. -/
def InputStatus.rank : InputStatus → Nat
  | .pending => 0
  | .claimed => 1
  | .admitted => 2
  | .discarded => 3

namespace MemorySteps

variable {V : Type} {s s' s'' : MemorySteps V}

/-- What happens to the queues, one input after another. -/
inductive QueueMoves : MemorySteps V → MemorySteps V → Prop
  /-- Nothing more happens to them. -/
  | same {s s' : MemorySteps V} (inputs : s'.inputs = s.inputs)
      (sequence : s'.inputSequence = s.inputSequence) : QueueMoves s s'
  /-- An input whose id is new is appended. -/
  | append {s s' : MemorySteps V} (b inputId : String) (value : V)
      (new : s.inputs.get? (b, inputId) = none)
      (more : QueueMoves (s.appendInput b inputId value) s') : QueueMoves s s'
  /-- An input gets a later status. -/
  | status {s s' : MemorySteps V} (b inputId : String) (record : InputRecord V)
      (status : InputStatus) (found : s.inputs.get? (b, inputId) = some record)
      (later : record.status.rank ≤ status.rank)
      (more : QueueMoves
        { s with
          inputs := s.inputs.set (b, inputId) ⟨inputId, status, record.value, record.sequence⟩ }
        s') : QueueMoves s s'

theorem QueueMoves.refl (s : MemorySteps V) : QueueMoves s s := .same rfl rfl

theorem QueueMoves.of_eq {t t' : MemorySteps V} (h : QueueMoves t t')
    (hinputs : t.inputs = s.inputs)
    (hsequence : t.inputSequence = s.inputSequence) : QueueMoves s t' := by
  induction h generalizing s with
  | same inputs sequence => exact .same (inputs.trans hinputs) (sequence.trans hsequence)
  | append b inputId value new more ih =>
    refine .append b inputId value (hinputs ▸ new) (ih ?_ ?_)
    · simp only [appendInput, hinputs, hsequence]
    · simp only [appendInput, hsequence]
  | status b inputId record status found later more ih =>
    refine .status b inputId record status (hinputs ▸ found) later (ih ?_ hsequence)
    simp only [hinputs]

theorem QueueMoves.trans (h : QueueMoves s s') (h' : QueueMoves s' s'') : QueueMoves s s'' := by
  induction h with
  | same inputs sequence => exact h'.of_eq inputs sequence
  | append b inputId value new more ih => exact .append b inputId value new (ih h')
  | status b inputId record status found later more ih =>
    exact .status b inputId record status found later (ih h')

/-! ## Section 2: Calls -/

theorem setInputStatus_queue (s : MemorySteps V) (b inputId : String) (status : InputStatus)
    {allowed : InputStatus → Bool} (h : ∀ old, allowed old = true → old.rank ≤ status.rank) :
    QueueMoves s (s.setInputStatus b inputId status allowed) := by
  unfold setInputStatus
  cases hrecord : s.inputs.get? (b, inputId) with
  | none => exact .refl s
  | some record =>
    dsimp only
    split
    · next hallowed => exact .status b inputId record status hrecord (h _ hallowed) (.refl _)
    · exact .refl s

theorem setInputStatuses_queue (b : String) (inputIds : List String) (status : InputStatus)
    {allowed : InputStatus → Bool} (h : ∀ old, allowed old = true → old.rank ≤ status.rank)
    (s : MemorySteps V) : QueueMoves s
      (inputIds.foldl (fun s inputId => s.setInputStatus b inputId status allowed) s) := by
  induction inputIds generalizing s with
  | nil => exact .refl s
  | cons inputId rest ih => exact (setInputStatus_queue s b inputId status h).trans (ih _)

theorem applyInputs_queue (s : MemorySteps V) (b : String) (inputs : List (String × V)) :
    QueueMoves s (s.applyInputs b inputs).2 := by
  induction inputs generalizing s with
  | nil => exact .refl s
  | cons item rest ih =>
    obtain ⟨inputId, value⟩ := item
    unfold applyInputs
    cases hrecord : s.inputs.get? (b, inputId) with
    | some record => exact ih s
    | none => exact .append b inputId value hrecord (ih _)

/-- Steps that are written leave the queues alone. -/
theorem applyCompleted_queue (s : MemorySteps V) (b : String)
    (completed : List (String × Option V × Nat)) :
    (s.applyCompleted b completed).inputs = s.inputs ∧
      (s.applyCompleted b completed).inputSequence = s.inputSequence := by
  induction completed generalizing s with
  | nil => exact ⟨rfl, rfl⟩
  | cons item rest ih => exact ih (s.setEntry b item.1 _)

theorem applyControls_queue (s : MemorySteps V) (b : String)
    (controls : List (String × Option V)) :
    (s.applyControls b controls).inputs = s.inputs ∧
      (s.applyControls b controls).inputSequence = s.inputSequence := by
  induction controls generalizing s with
  | nil => exact ⟨rfl, rfl⟩
  | cons item rest ih => exact ih (s.setEntry b item.1 _)

theorem fenced_queue {α : Type} {b : String} {token : Int} {rest : StoreOutcome V α}
    (h : QueueMoves s rest.2) : QueueMoves s (s.fenced b token rest).2 := by
  rcases fenced_cases s b token rest with heq | ⟨_, _, heq⟩
  · rwa [heq]
  · rw [heq]
    exact .refl s

theorem commitTransition_queue [BEq V] (s : MemorySteps V) (b : String)
    (transition : ExecutionTransition V) (token : Int) :
    QueueMoves s (s.commitTransition b transition token).2 := by
  refine fenced_queue ?_
  split
  · exact .refl s
  · next completed _ =>
    split
    · exact .refl s
    · have hcompleted := applyCompleted_queue s b completed
      have hcontrols := applyControls_queue (s.applyCompleted b completed) b
        transition.controls.items
      exact (applyInputs_queue _ b transition.inputs).of_eq (hcontrols.1.trans hcompleted.1)
        (hcontrols.2.trans hcompleted.2)

/-- **One call**: every method makes moves of the queues. -/
theorem perform_queue [BEq V] (op : LedgerOp V) (now later : ℚ) (s : MemorySteps V) :
    QueueMoves s (op.perform now later s).2 := by
  -- One case a method: three move statuses forward, two append, the rest leave the queue.
  cases op with
  | read b key => exact .refl s
  | listInputs b => exact .refl s
  | start b key token =>
    rcases start_cases s b key token with ⟨_, heq⟩ | heq | ⟨_, _, heq⟩
    all_goals
      rw [LedgerOp.perform, heq]
      exact .same rfl rfl
  | finishEffect b key value token =>
    rcases finishEffect_cases s b key value token with ⟨_, heq⟩ | ⟨_, _, heq⟩ | ⟨_, heq⟩
    all_goals
      rw [LedgerOp.perform, heq]
      exact .same rfl rfl
  | resolveEffect b key resolution workersStopped token =>
    rcases resolveEffect_cases s b key resolution workersStopped token with
      ⟨_, heq⟩ | ⟨_, _, _, _, _, heq⟩ | ⟨_, _, _, _, _, heq⟩
    all_goals
      rw [LedgerOp.perform, heq]
      exact .same rfl rfl
  | writeControl b key value token => exact fenced_queue (.same rfl rfl)
  | forget b key token =>
    rcases forget_cases s b key token with ⟨_, heq⟩ | ⟨_, heq⟩ | ⟨_, heq⟩
    all_goals
      rw [LedgerOp.perform, heq]
      exact .same rfl rfl
  | acquire b owner ttl =>
    rcases acquire_cases s b owner ttl now later with ⟨_, _, _, heq⟩ | ⟨_, _, _, _, heq⟩ | ⟨_, heq⟩
    all_goals
      rw [LedgerOp.perform, heq]
      exact .same rfl rfl
  | release b owner =>
    dsimp only [LedgerOp.perform]
    unfold release
    split
    · split <;> exact .same rfl rfl
    · exact .refl s
  | enqueueInput b inputId value =>
    dsimp only [LedgerOp.perform]
    unfold enqueueInput
    cases hrecord : s.inputs.get? (b, inputId) with
    | some record => exact .refl s
    | none => exact .append b inputId value hrecord (.refl _)
  | claimInput b inputId token =>
    have hforward : ∀ old : InputStatus, decide (old ≠ .admitted ∧ old ≠ .discarded) = true →
        old.rank ≤ InputStatus.claimed.rank := by
      intro old
      cases old <;> decide
    exact fenced_queue (setInputStatus_queue s b inputId .claimed hforward)
  | admitInputs b inputIds token =>
    have hforward : ∀ old : InputStatus, decide (old ≠ .discarded) = true →
        old.rank ≤ InputStatus.admitted.rank := by
      intro old
      cases old <;> decide
    exact fenced_queue (setInputStatuses_queue b inputIds .admitted hforward s)
  | discardInputs b inputIds token =>
    have hforward : ∀ old : InputStatus, true = true →
        old.rank ≤ InputStatus.discarded.rank := by
      intro old _
      cases old <;> decide
    exact fenced_queue (setInputStatuses_queue b inputIds .discarded hforward s)
  | commitTransition b transition token => exact commitTransition_queue s b transition token

/-- What the queue has once, it keeps. -/
theorem QueueMoves.known (h : QueueMoves s s') {key : String × String}
    (hknown : (s.inputs.get? key).isSome) : (s'.inputs.get? key).isSome := by
  induction h with
  | same inputs _ => rwa [inputs]
  | append b inputId value new more ih =>
    refine ih ?_
    unfold appendInput
    dsimp only
    rw [Dict.get?_set]
    split
    · exact rfl
    · exact hknown
  | status b inputId record status found later more ih =>
    refine ih ?_
    dsimp only
    rw [Dict.get?_set]
    split
    · exact rfl
    · exact hknown

/-! ## Section 3: Numbers -/

/-- Every number is below the counter of the branch. -/
def Numbered (s : MemorySteps V) : Prop :=
  ∀ b inputId r, s.inputs.get? (b, inputId) = some r → r.sequence < s.inputSequence.getD b 0

theorem QueueMoves.numbered (h : QueueMoves s s') (hs : Numbered s) : Numbered s' := by
  -- Induction on the moves: a new input takes the next number, and no other number changes.
  induction h with
  | same inputs sequence =>
    unfold Numbered
    rw [inputs, sequence]
    exact hs
  | append b inputId value new more ih =>
    refine ih fun b' inputId' r hr => ?_
    show r.sequence < (Dict.set _ b _).getD b' 0
    rw [Dict.getD_set]
    have hget := hr
    rw [appendInput, Dict.get?_set] at hget
    split at hget
    · next hk =>
      obtain ⟨rfl, rfl⟩ := Prod.mk.inj hk
      obtain rfl := Option.some.inj hget
      rw [if_pos rfl]
      exact Nat.lt_succ_self _
    · have hlt := hs b' inputId' r hget
      split
      · next hb =>
        subst hb
        exact Nat.lt_succ_of_lt hlt
      · exact hlt
  | status b inputId record status found later more ih =>
    refine ih fun b' inputId' r hr => ?_
    rw [Dict.get?_set] at hr
    split at hr
    · next hk =>
      obtain ⟨rfl, rfl⟩ := Prod.mk.inj hk
      obtain rfl := Option.some.inj hr
      exact hs b' inputId' record found
    · exact hs b' inputId' r hr

/-- Records numbered from the branch's counter on come last in its queue. -/
theorem Numbered.listInputs_append (hs : Numbered s) {b : String} {records : List (InputRecord V)}
    (hitems : s'.inputs.items = s.inputs.items ++
      records.map fun record => ((b, record.inputId), record))
    (hordered : records.Pairwise fun r r' => r.sequence ≤ r'.sequence)
    (hnumbers : ∀ record ∈ records, s.inputSequence.getD b 0 ≤ record.sequence) :
    s'.listInputs b = s.listInputs b ++ records := by
  have hnew : ((records.map fun record => ((b, record.inputId), record)).filter
      fun item => item.1.1 = b).map Prod.snd = records := by
    rw [List.filter_eq_self.mpr (by simp), List.map_map]
    exact List.map_id records
  unfold listInputs
  rw [hitems, List.filter_append, List.map_append, hnew]
  refine List.insertionSort_append _ hordered fun old hold new hmem => ?_
  obtain ⟨⟨k, record⟩, hitem, rfl⟩ := List.mem_map.mp hold
  obtain ⟨hitem, hb⟩ := List.mem_filter.mp hitem
  have hlt := hs k.1 k.2 record (Dict.get?_of_mem hitem)
  rw [show k.1 = b from of_decide_eq_true hb] at hlt
  exact Nat.le_trans (Nat.le_of_lt hlt) (hnumbers new hmem)

/-- A state that calls lead to from the fresh store. -/
def Reached [BEq V] (s : MemorySteps V) : Prop := ∃ calls, s = (ledger V).after .init calls

theorem Reached.numbered [BEq V] (h : Reached s) : Numbered s := by
  obtain ⟨calls, rfl⟩ := h
  refine (ledger V).after_invariant (I := Numbered) (fun s c hs => ?_) ?_ calls
  · exact (perform_queue c.op c.now c.later s).numbered hs
  · intro b inputId r hr
    cases hr

end MemorySteps

end Semora
