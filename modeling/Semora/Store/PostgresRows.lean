import Semora.Framework.Footprints
import Semora.Store.PostgresSteps

/-! # The Rows of a Call

    Which rows the methods of `PostgresSteps` may lock or write, and which of
    them may leave a step unfinished. The methods are walked through once:
    what a call has no statement for, none of its statements do. -/

namespace Semora

open ReadCommitted PostgresSteps

section rows

variable {V : Type}

/-! ## Section 1: Statement -/

/-- The rows that a call may lock or write. -/
def PgOp.Touches : PgOp V → PgKey → Prop
  | .read .., _ => False
  | .start b key _, k => k = .step b key
  | .finishEffect b key _ _, k => k = .step b key
  | .resolveEffect b key resolution _ _, k =>
      k = .step b key ∨ k = .decision b resolution.decisionId
  | .writeControl b key _ _, k => k = .step b key
  | .forget b key _, k => k = .step b key
  | .acquire b _ _, k => k = .lease b
  | .release b _, k => k = .lease b
  | .enqueueInput b inputId _, k => k = .input b inputId
  | .claimInput b inputId _, k => k = .input b inputId
  | .admitInputs b _ _, k => ∃ inputId, k = .input b inputId
  | .discardInputs b _ _, k => ∃ inputId, k = .input b inputId
  | .commitTransition b _ _, k => (∃ key, k = .step b key) ∨ ∃ inputId, k = .input b inputId

/-- The calls that may leave a step unfinished. -/
def PgOp.Unfinishes : PgOp V → Prop
  | .start .. => True
  | .forget .. => True
  | .resolveEffect _ _ resolution _ _ => resolution.action = .retry
  | _ => False

/-- The row is not an unfinished step. -/
def Finished : (k : PgKey) → PgRow V k → Prop
  | .step .., row => row.status = .done
  | _, _ => True

/-- A plain select, or a statement about a row in `keys`, which only writes rows that are finished,
    unless it may write others. -/
inductive Tame (keys : PgKey → Prop) (unfinishes : Prop) : Sql (PgRow V) → Prop
  | select (k : PgKey) : Tame keys unfinishes (.select k)
  | about {stmt : Sql (PgRow V)} (hkey : keys stmt.key)
      (hwrites : unfinishes ∨ stmt.Writes Finished) : Tame keys unfinishes stmt

/-! ## Section 2: The methods -/

variable {keys : PgKey → Prop} {unfinishes : Prop}

theorem tame_fence (b : String) (token : Int) :
    (PostgresSteps.fence b token : PgTxn V Unit).All (Tame keys unfinishes) := by
  unfold PostgresSteps.fence
  split
  · exact Txn.all_pure _
  · refine Txn.all_bind (Txn.all_exec (.select _)) fun row => ?_
    split
    · exact Txn.all_throw _
    · exact Txn.all_pure _

theorem writes_finished_update {b key : String} {p : StepRow V → Prop} [DecidablePred p]
    {new : StepRow V → StepRow V} (hnew : ∀ row, Finished (.step b key) (new row)) :
    (Sql.update (.step b key) fun row => if p row then some (new row) else none :
      Sql (PgRow V)).Writes Finished := by
  refine Sql.writes_update fun old row h => ?_
  split at h
  · rw [← Option.some.inj h]
    exact hnew old
  · cases h

theorem writes_finished_upsert {b key : String} {fresh : StepRow V} {p : StepRow V → Prop}
    [DecidablePred p] {new : StepRow V → StepRow V} (hfresh : Finished (.step b key) fresh)
    (hnew : ∀ row, Finished (.step b key) (new row)) :
    (Sql.upsert (.step b key) fresh fun row => if p row then some (new row) else none :
      Sql (PgRow V)).Writes Finished := by
  refine Sql.writes_upsert hfresh fun old row h => ?_
  split at h
  · rw [← Option.some.inj h]
    exact hnew old
  · cases h

theorem tame_completeEffect [BEq V] {b key : String} (hkey : keys (.step b key))
    (value : Option V) (expected : Expected) :
    (PostgresSteps.completeEffect b key value expected).All (Tame keys unfinishes) := by
  unfold PostgresSteps.completeEffect
  refine Txn.all_bind ?_ fun completed => ?_
  · cases expected with
    | absent =>
      refine Txn.all_bind (Txn.all_exec (.about hkey (Or.inr ?_))) fun _ => Txn.all_pure _
      exact writes_finished_upsert rfl fun _ => rfl
    | running =>
      refine Txn.all_bind (Txn.all_exec (.about hkey (Or.inr ?_))) fun _ => Txn.all_pure _
      exact writes_finished_update fun _ => rfl
  · split
    · exact Txn.all_pure _
    · refine Txn.all_bind (Txn.all_exec (.select _)) fun row => ?_
      split
      · split
        · split
          · exact Txn.all_pure _
          · exact Txn.all_throw _
        · exact Txn.all_throw _
      · exact Txn.all_throw _

theorem tame_applyResolution [BEq V] {b key : String} (hkey : keys (.step b key))
    {resolution : EffectResolution V} (hdecision : keys (.decision b resolution.decisionId))
    (hretry : resolution.action = .retry → unfinishes) (payload : ResolutionPayload V) :
    (PostgresSteps.applyResolution b key resolution payload).All (Tame keys unfinishes) := by
  unfold PostgresSteps.applyResolution
  refine Txn.all_bind (Txn.all_exec (.about hkey (Or.inr Sql.writes_selectForUpdate))) fun row => ?_
  split
  · exact Txn.all_throw _
  · refine Txn.all_bind (Txn.all_exec (.select _)) fun previous => ?_
    split
    · split
      · exact Txn.all_throw _
      · exact Txn.all_pure _
    · split
      · exact Txn.all_throw _
      · refine Txn.all_bind (Txn.all_exec (.about hkey ?_)) fun _ => ?_
        · -- A result leaves the row done; a retry unfinishes it, which only a retry may.
          cases haction : resolution.action with
          | complete =>
            refine Or.inr (Sql.writes_update fun old new h => ?_)
            rw [← Option.some.inj h]
            exact rfl
          | retry => exact Or.inl (hretry haction)
        · have hinsert : (Sql.insert (.decision b resolution.decisionId) ⟨key, payload⟩ :
              Sql (PgRow V)).Writes Finished := Sql.writes_insert trivial
          refine Txn.all_bind (Txn.all_exec (.about hdecision (Or.inr hinsert))) fun inserted => ?_
          split
          · exact Txn.all_throw _
          · exact Txn.all_pure _

theorem tame_setControl {b key : String} (hkey : keys (.step b key)) (value : Option V) :
    (PostgresSteps.setControl b key value).All (Tame keys unfinishes) := by
  refine Txn.all_bind (Txn.all_exec (.about hkey (Or.inr ?_))) fun _ => Txn.all_pure _
  refine Sql.writes_upsert rfl fun old new h => ?_
  rw [← Option.some.inj h]
  exact rfl

theorem tame_setInputStatus {b inputId : String} (hkey : keys (.input b inputId))
    (status : InputStatus) (allowed : InputStatus → Bool) :
    (PostgresSteps.setInputStatus b inputId status allowed : PgTxn V Unit).All
      (Tame keys unfinishes) :=
  Txn.all_bind (Txn.all_exec (.about hkey (Or.inr (Sql.writes_update fun _ _ _ => trivial))))
    fun _ => Txn.all_pure _

theorem tame_enqueueInput {b inputId : String} (hkey : keys (.input b inputId)) (value : V) :
    (PostgresSteps.enqueueInput b inputId value).All (Tame keys unfinishes) :=
  Txn.all_bind (Txn.all_exec (.about hkey (Or.inr (Sql.writes_insertSerial fun _ => trivial))))
    fun _ => Txn.all_pure _

theorem tame_insertInputs {b : String} (hkeys : ∀ inputId, keys (.input b inputId))
    (inputs : List (String × V)) :
    (PostgresSteps.insertInputs b inputs).All (Tame keys unfinishes) := by
  induction inputs with
  | nil => exact Txn.all_pure _
  | cons item rest ih =>
    refine Txn.all_bind (tame_enqueueInput (hkeys _) _) fun _ => ?_
    exact Txn.all_bind ih fun _ => Txn.all_pure _

theorem tame_applyTransition [BEq V] {b : String} (hsteps : ∀ key, keys (.step b key))
    (hinputs : ∀ inputId, keys (.input b inputId)) (transition : ExecutionTransition V) :
    (PostgresSteps.applyTransition b transition).All (Tame keys unfinishes) := by
  unfold PostgresSteps.applyTransition
  split
  · exact Txn.all_throw _
  · split
    · exact Txn.all_throw _
    · refine Txn.all_bind (Txn.all_forM (fun _ => tame_completeEffect (hsteps _) ..) _) fun _ => ?_
      refine Txn.all_bind (Txn.all_forM (fun _ => tame_setControl (hsteps _) _) _) fun _ => ?_
      exact tame_insertInputs hinputs transition.inputs

/-- **A call keeps to its rows**, and only some calls make a step startable. -/
theorem tame_body [BEq V] (call : PgCall V) :
    call.body.All (Tame call.op.Touches call.op.Unfinishes) := by
  obtain ⟨op, now⟩ := call
  -- One case a method: each statement is about a row that the method names, or only reads.
  cases op with
  | read b key =>
    refine Txn.all_bind (Txn.all_exec (.select _)) fun row => ?_
    split
    · exact Txn.all_pure _
    · split <;> exact Txn.all_pure _
  | start b key token =>
    refine Txn.all_bind (tame_fence b token) fun _ => ?_
    exact Txn.all_bind (Txn.all_exec (.about rfl (Or.inl trivial))) fun _ => Txn.all_pure _
  | finishEffect b key value token =>
    exact Txn.all_bind (tame_fence b token) fun _ => tame_completeEffect (by exact rfl) ..
  | resolveEffect b key resolution workersStopped token =>
    change (PostgresSteps.resolveEffect b key resolution workersStopped token).All _
    unfold PostgresSteps.resolveEffect
    split
    · exact Txn.all_throw _
    · refine Txn.all_bind (tame_fence b token) fun _ => ?_
      exact tame_applyResolution (Or.inl rfl) (Or.inr rfl) (fun h => h) _
  | writeControl b key value token =>
    exact Txn.all_bind (tame_fence b token) fun _ => tame_setControl (by exact rfl) _
  | forget b key token =>
    refine Txn.all_bind (tame_fence b token) fun _ => ?_
    exact Txn.all_bind (Txn.all_exec (.about rfl (Or.inl trivial))) fun _ => Txn.all_pure _
  | acquire b owner ttl =>
    have hwrites : (Sql.upsert (.lease b) { owner := owner, expiresAt := now + ttl }
        (PostgresSteps.takeover owner ttl now) : Sql (PgRow V)).Writes Finished :=
      Sql.writes_upsert trivial fun _ _ _ => trivial
    refine Txn.all_bind (Txn.all_exec (.about rfl (Or.inr hwrites))) fun row => ?_
    split <;> exact Txn.all_pure _
  | release b owner =>
    exact Txn.all_bind (Txn.all_exec (.about rfl (Or.inr (Sql.writes_update fun _ _ _ => trivial))))
      fun _ => Txn.all_pure _
  | enqueueInput b inputId value => exact tame_enqueueInput (by exact rfl) value
  | claimInput b inputId token =>
    exact Txn.all_bind (tame_fence b token) fun _ => tame_setInputStatus (by exact rfl) ..
  | admitInputs b inputIds token =>
    change (PostgresSteps.admitInputs b inputIds token).All _
    unfold PostgresSteps.admitInputs
    split
    · exact Txn.all_pure _
    · refine Txn.all_bind (tame_fence b token) fun _ => ?_
      exact Txn.all_forM (fun _ => tame_setInputStatus ⟨_, rfl⟩ ..) inputIds
  | discardInputs b inputIds token =>
    change (PostgresSteps.discardInputs b inputIds token).All _
    unfold PostgresSteps.discardInputs
    split
    · exact Txn.all_pure _
    · refine Txn.all_bind (tame_fence b token) fun _ => ?_
      exact Txn.all_forM (fun _ => tame_setInputStatus ⟨_, rfl⟩ ..) inputIds
  | commitTransition b transition token =>
    refine Txn.all_bind (tame_fence b token) fun _ => ?_
    exact tame_applyTransition (fun _ => Or.inl ⟨_, rfl⟩) (fun _ => Or.inr ⟨_, rfl⟩) transition

/-! ## Section 3: Their footprints -/

theorem Tame.away {stmt : Sql (PgRow V)} (h : Tame keys unfinishes stmt) {k : PgKey}
    (hk : ¬ keys k) : stmt.Away k := by
  intro hkey
  cases h with
  | select k' => exact ⟨k', rfl⟩
  | about hkeys _ =>
    subst hkey
    exact absurd hkeys hk

/-- **A call leaves every other row alone.** -/
theorem leaves_untouched [BEq V] (call : PgCall V) :
    call.body.Leaves .nothing fun _ f => ∀ k, ¬ call.op.Touches k → f k = none := by
  refine Txn.leaves_of_all (fun stmt hstmt f serial row hf k hk => ?_) (tame_body call)
    fun k _ => rfl
  rw [(hstmt.away hk).after]
  exact hf k hk

/-- What a call writes that leaves no step unfinished, is finished. -/
theorem leaves_finished [BEq V] (call : PgCall V) (hcall : ¬ call.op.Unfinishes) :
    call.body.Leaves .nothing fun _ f => f.Written Finished := by
  refine Txn.leaves_of_all (fun stmt hstmt f serial row hf => ?_) (tame_body call)
    fun k new h => nomatch h
  cases hstmt with
  | select k =>
    rw [f.after_read _ _ rfl rfl]
    exact hf
  | about _ hwrites => exact (hwrites.resolve_left hcall).after f serial row hf

end rows

end Semora
