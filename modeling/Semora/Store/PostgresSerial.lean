import Semora.Framework.OneAtATime
import Semora.Store.PostgresSteps

/-! # PostgresSteps, One Call at a Time

    The methods of `PostgresSteps` as calls of a machine: each is one
    transaction that nobody overlaps. `list_inputs` is among them: it reads
    the rows of a branch in the order of their serial number. -/

namespace Semora

open ReadCommitted

/-! ## Section 1: The queue -/

/-- The branch and the id of an input's key. -/
def PgKey.input? : PgKey → Option (String × String)
  | .input branchId inputId => some (branchId, inputId)
  | _ => none

namespace PostgresSteps

variable {V : Type}

/-- A row of `ledger_input` as `list_inputs` returns it. -/
def inputRecord (t : Tables (PgRow V)) (branchId inputId : String) : Option (InputRecord V) :=
  (t.rows (.input branchId inputId)).map fun row =>
    ⟨inputId, row.status, row.value, row.sequence⟩

/-- The keys of `ledger_input`, by branch and id. -/
def inputKeys (t : Tables (PgRow V)) : List (String × String) := t.keys.filterMap PgKey.input?

/-- `select … from ledger_input where branch_id = … order by sequence`. -/
def listInputs (t : Tables (PgRow V)) (branchId : String) : List (InputRecord V) :=
  (((inputKeys t).filter fun key => key.1 = branchId).filterMap
    fun key => inputRecord t key.1 key.2).insertionSort fun a b => a.sequence ≤ b.sequence

end PostgresSteps

/-! ## Section 2: The machine -/

namespace LedgerOp

variable {V : Type}

/-- What a method of `PostgresSteps` returns when it does not raise. -/
def PgReply : LedgerOp V → Type
  | .read .. => PgStep V
  | .start .. => Bool
  | .finishEffect .. => Unit
  | .resolveEffect .. => PgStep V
  | .writeControl .. => Unit
  | .forget .. => Unit
  | .acquire .. => Int
  | .release .. => Unit
  | .enqueueInput .. => Bool
  | .listInputs .. => List (InputRecord V)
  | .claimInput .. => Unit
  | .admitInputs .. => Unit
  | .discardInputs .. => Unit
  | .commitTransition .. => List String

/-- A call of `PostgresSteps`: one transaction, which begins at `now`. -/
def performPg [BEq V] (op : LedgerOp V) (now : ℚ) (t : Tables (PgRow V)) :
    Except PgError op.PgReply × Tables (PgRow V) :=
  match op with
  | .read b key => (PostgresSteps.read b key).alone t
  | .start b key token => (PostgresSteps.start b key token).alone t
  | .finishEffect b key value token => (PostgresSteps.finishEffect b key value token).alone t
  | .resolveEffect b key resolution workersStopped token =>
      (PostgresSteps.resolveEffect b key resolution workersStopped token).alone t
  | .writeControl b key value token => (PostgresSteps.writeControl b key value token).alone t
  | .forget b key token => (PostgresSteps.forget b key token).alone t
  | .acquire b owner ttl => (PostgresSteps.acquire b owner ttl now).alone t
  | .release b owner => (PostgresSteps.release b owner).alone t
  | .enqueueInput b inputId value => (PostgresSteps.enqueueInput b inputId value).alone t
  | .listInputs b => (.ok (PostgresSteps.listInputs t b), t)
  | .claimInput b inputId token => (PostgresSteps.claimInput b inputId token).alone t
  | .admitInputs b inputIds token => (PostgresSteps.admitInputs b inputIds token).alone t
  | .discardInputs b inputIds token => (PostgresSteps.discardInputs b inputIds token).alone t
  | .commitTransition b transition token =>
      (PostgresSteps.commitTransition b transition token).alone t

end LedgerOp

/-- The durable ledger: calls are answered one at a time. -/
def postgres (V : Type) [BEq V] : Machine (Tables (PgRow V)) (LedgerCall V)
    fun c => Except PgError c.op.PgReply where
  step t c := c.op.performPg c.now t

section world

variable {V : Type} [BEq V] {t : Tables (PgRow V)} {w : PgWorld V}

/-- A call of the machine is what the world of all transactions does with the call, when no other
    is open. -/
theorem alone_in_world (h : Idle t w) (call : PgCall V) :
    ∃ n, Idle (call.body.alone t).2 (World.after PgCall.body w
      (.begin call :: List.replicate n (.run w.begun) ++ [.finish w.begun])) :=
  after_alone h call

end world

/-! ## Section 3: What the methods do -/

namespace PostgresSteps

variable {V : Type} {t : Tables (PgRow V)}

theorem eval_fence (b : String) (token : Int) :
    (fence b token : PgTxn V Unit).eval t =
      if token ≠ 0 ∧ token < issuedIn (t.rows (.lease b)) then
        (.error (.store (.fenced b token (issuedIn (t.rows (.lease b))))), t)
      else (.ok (), t) := by
  unfold fence
  by_cases hzero : token = 0
  · rw [if_pos hzero, if_neg (by simp [hzero])]
    rfl
  · rw [if_neg hzero, Txn.eval_bind, Txn.eval_select]
    dsimp only
    by_cases hlt : token < issuedIn (t.rows (.lease b))
    · rw [if_pos hlt, if_pos ⟨hzero, hlt⟩]
      rfl
    · rw [if_neg hlt, if_neg (by simp [hlt])]
      rfl

/-- What `read` returns. -/
def stepOf : Option (StepRow V) → PgStep V
  | none => { status := .absent }
  | some row =>
    if row.status = .done then { status := .done, value := row.value, version := row.version }
    else { status := row.status, version := row.version }

theorem eval_read (b key : String) :
    (read b key : PgTxn V (PgStep V)).eval t = (.ok (stepOf (t.rows (.step b key))), t) := by
  unfold read
  rw [Txn.eval_bind, Txn.eval_select]
  dsimp only
  cases t.rows (.step b key) with
  | none => rfl
  | some row =>
    unfold stepOf
    dsimp only
    split <;> rfl

/-- The status of a step, going by its row. -/
def rowStatus (row : Option (StepRow V)) : Status := row.elim .absent StepRow.status

/-- How often a step was written, going by its row. -/
def rowVersion (row : Option (StepRow V)) : Int := row.elim 0 StepRow.version

theorem eval_completeRow (b key : String) (value : Option V) (expected : Expected) :
    (completeRow b key value expected).eval t =
      if rowStatus (t.rows (.step b key)) = expected.status then
        (.ok true, t.write (.step b key)
          { status := .done, value := value, version := rowVersion (t.rows (.step b key)) + 1 })
      else (.ok false, t) := by
  -- An absent step may have no row, so it is upserted; a running one has a row to update.
  cases expected with
  | absent =>
    refine (Txn.eval_bind_of_ok (Txn.eval_upsert ..) _).trans ?_
    cases t.rows (.step b key) with
    | none => rfl
    | some row =>
      by_cases habsent : row.status = .absent
      · rw [if_pos (show rowStatus (some row) = Expected.absent.status from habsent)]
        dsimp only [Option.elim]
        rw [if_pos habsent]
        rfl
      · rw [if_neg (show ¬ rowStatus (some row) = Expected.absent.status from habsent)]
        dsimp only [Option.elim]
        rw [if_neg habsent]
        rfl
  | running =>
    refine (Txn.eval_bind_of_ok (Txn.eval_update ..) _).trans ?_
    cases t.rows (.step b key) with
    | none => rfl
    | some row =>
      by_cases hrunning : row.status = .running
      · rw [if_pos (show rowStatus (some row) = Expected.running.status from hrunning)]
        dsimp only [Option.bind]
        rw [if_pos hrunning]
        rfl
      · rw [if_neg (show ¬ rowStatus (some row) = Expected.running.status from hrunning)]
        dsimp only [Option.bind]
        rw [if_neg hrunning]
        rfl

end PostgresSteps

end Semora
