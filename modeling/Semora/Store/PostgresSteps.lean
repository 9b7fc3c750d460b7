import Semora.Framework.ReadCommitted
import Semora.Store.Operations

/-! # PostgresSteps

    `semora_store_pg.postgres.PostgresSteps`. A method borrows a connection,
    and everything it does on it is one transaction: it commits when the
    method returns and is rolled back when it raises. The statements are those
    of the source, one by one; `now()` is the time the transaction began.

    `list_inputs` is the one method without a transaction here: it reads a
    whole branch of the queue, and it neither writes nor presents a token. -/

namespace Semora

open ReadCommitted

/-! ## Section 1: The schema -/

/-- The primary keys of the four tables. `ledger_input` is unique by branch and input id. -/
inductive PgKey where
  | step (branchId key : String)
  | decision (branchId decisionId : String)
  | lease (branchId : String)
  | input (branchId inputId : String)
  deriving DecidableEq

/-- A row of `ledger_step`. -/
structure StepRow (V : Type) where
  status : Status
  value : Option V := none
  version : Int := 1

/-- A row of `ledger_effect_decision`. -/
structure DecisionRow (V : Type) where
  key : String
  payload : ResolutionPayload V

/-- A row of `ledger_branch_lease`. -/
structure LeaseRow where
  owner : String
  token : Int := 1
  expiresAt : ℚ

/-- A row of `ledger_input`; `sequence` is a `bigserial`. -/
structure InputRow (V : Type) where
  status : InputStatus
  value : V
  sequence : Nat

/-- The row stored under a key. -/
@[reducible] def PgRow (V : Type) : PgKey → Type
  | .step .. => StepRow V
  | .decision .. => DecisionRow V
  | .lease .. => LeaseRow
  | .input .. => InputRow V

/-- What a method raises. -/
inductive PgError where
  | store (error : StoreError)
  /-- `psycopg.errors.UniqueViolation`. -/
  | uniqueViolation

/-- A step as a method returns it, with the version as the database counts it. -/
structure PgStep (V : Type) where
  status : Status
  value : Option V := none
  version : Int := 0

/-- One transaction of a method. -/
abbrev PgTxn (V α : Type) := Txn (PgRow V) PgError α

namespace PostgresSteps

variable {V : Type}

/-! ## Section 2: Methods -/

/-- `conn.execute`. -/
abbrev exec (stmt : Sql (PgRow V)) : PgTxn V stmt.Reply := Txn.exec stmt

/-- The newest token issued, going by the lease row. -/
def issuedIn : Option LeaseRow → Int
  | some row => row.token
  | none => 0

/-- `_fence`: reject stale lease holders within the caller's transaction. -/
def fence (branchId : String) (token : Int) : PgTxn V Unit :=
  if token = 0 then pure ()
  else do
    let row ← exec (.select (.lease branchId))
    if token < issuedIn row then throw (.store (.fenced branchId token (issuedIn row)))
    else pure ()

/-- The stored step or an absent state. -/
def read (branchId key : String) : PgTxn V (PgStep V) := do
  let row ← exec (.select (.step branchId key))
  match row with
  | none => pure { status := .absent }
  | some row =>
    if row.status = .done then
      pure { status := .done, value := row.value, version := row.version }
    else pure { status := row.status, version := row.version }

/-- Record new running intent after validating the fencing token. -/
def start (branchId key : String) (token : Int) : PgTxn V Bool := do
  fence branchId token
  let row ← exec (.upsert (.step branchId key) { status := .running }
    fun row =>
      if row.status = .absent ∨ row.status = .ready then
        some { status := .running, version := row.version + 1 }
      else none)
  pure row.isSome

/-- The conditional write of `_complete_effect`, and whether it found its row as expected. -/
def completeRow (branchId key : String) (value : Option V) : Expected → PgTxn V Bool
  | .absent => do
    let row ← exec (.upsert (.step branchId key)
      { status := .done, value := value }
      fun row =>
        if row.status = .absent then
          some { status := .done, value := value, version := row.version + 1 }
        else none)
    pure row.isSome
  | .running => do
    let row ← exec (.update (.step branchId key) fun row =>
      if row.status = .running then
        some { status := .done, value := value, version := row.version + 1 }
      else none)
    pure row.isSome

/-- `_complete_effect`: one conditional effect completion inside the caller's transaction. -/
def completeEffect [BEq V] (branchId key : String) (value : Option V) (expected : Expected) :
    PgTxn V Unit := do
  let completed ← completeRow branchId key value expected
  if completed then pure ()
  else
    let row ← exec (.select (.step branchId key))
    match row with
    | some row =>
      if row.status = .done then
        if row.value == value then pure ()
        else throw (.store
          (.effectConflict branchId key "a different result is already committed"))
      else throw (.store (.effectConflict branchId key
        ("expected " ++ expected.status.repr ++ ", found " ++ row.status.repr)))
    | none => throw (.store (.effectConflict branchId key
        ("expected " ++ expected.status.repr ++ ", found " ++ Status.absent.repr)))

/-- Complete a running effect without replacing a committed result. -/
def finishEffect [BEq V] (branchId key : String) (value : Option V) (token : Int) :
    PgTxn V Unit := do
  fence branchId token
  completeEffect branchId key value .running

/-- The part of `resolve_effect` inside the transaction. -/
def applyResolution [BEq V] (branchId key : String) (resolution : EffectResolution V)
    (payload : ResolutionPayload V) : PgTxn V (PgStep V) := do
  let row ← exec (.selectForUpdate (.step branchId key))
  match row with
  | none => throw (.store (.effectConflict branchId key "unknown effect"))
  | some row =>
    let previous ← exec (.select (.decision branchId resolution.decisionId))
    match previous with
    | some previous =>
      if previous.key ≠ key ∨ previous.payload != payload then
        throw (.store (.effectConflict branchId key
          "decision id was used with different parameters"))
      else pure { status := row.status, value := row.value, version := row.version }
    | none =>
      if row.status ≠ .running ∨ row.version ≠ resolution.expectedVersion then
        throw (.store (.effectConflict branchId key
          "stale version or effect is not unresolved"))
      else
        let status : Status := match resolution.action with
          | .complete => .done
          | .retry => .ready
        let value : Option V := match resolution.action with
          | .complete => resolution.value
          | .retry => none
        let _ ← exec (.update (.step branchId key) fun row =>
          some { status := status, value := value, version := row.version + 1 })
        let inserted ← exec
          (.insert (.decision branchId resolution.decisionId) { key := key, payload := payload })
        if inserted.isNone then throw .uniqueViolation
        else pure { status := status, value := value, version := row.version + 1 }

/-- Apply one version-bound external reconciliation decision atomically. -/
def resolveEffect [BEq V] (branchId key : String) (resolution : EffectResolution V)
    (workersStopped : Bool) (token : Int) : PgTxn V (PgStep V) :=
  match resolutionPayload key resolution workersStopped with
  | .error e => throw (.store e)
  | .ok payload => do
    fence branchId token
    applyResolution branchId key resolution payload

/-- The upsert of `write_control`. -/
def setControl (branchId key : String) (value : Option V) : PgTxn V Unit := do
  let _ ← exec (.upsert (.step branchId key)
    { status := .done, value := value }
    fun row => some { status := .done, value := value, version := row.version + 1 })

/-- Upsert mutable framework control state. -/
def writeControl (branchId key : String) (value : Option V) (token : Int) : PgTxn V Unit := do
  fence branchId token
  setControl branchId key value

/-- Remove an unfinished step after validating the fencing token. -/
def forget (branchId key : String) (token : Int) : PgTxn V Unit := do
  fence branchId token
  let _ ← exec (.update (.step branchId key) fun row =>
    if row.status = .running then some { status := .absent, version := row.version + 1 }
    else none)

/-- The row `acquire` writes over a held lease, when its condition lets it. -/
def takeover (owner : String) (ttlSeconds now : ℚ) (row : LeaseRow) : Option LeaseRow :=
  if row.owner = owner ∨ row.expiresAt < now then
    some { owner := owner, expiresAt := now + ttlSeconds,
           token := row.token + if row.owner ≠ owner then 1 else 0 }
  else none

/-- Acquire or renew a run lease: the fencing token, or zero on contention. -/
def acquire (branchId owner : String) (ttlSeconds now : ℚ) : PgTxn V Int := do
  let row ← exec (.upsert (.lease branchId)
    { owner := owner, expiresAt := now + ttlSeconds } (takeover owner ttlSeconds now))
  match row with
  | some row => pure row.token
  | none => pure 0

/-- Expire an owned lease without resetting its fencing token. -/
def release (branchId owner : String) : PgTxn V Unit := do
  let _ ← exec (.update (.lease branchId) fun row =>
    if row.owner = owner then some { owner := "", token := row.token, expiresAt := 0 } else none)

/-- Append an input unless its identifier already exists. -/
def enqueueInput (branchId inputId : String) (value : V) : PgTxn V Bool := do
  let inserted ← exec (.insertSerial (.input branchId inputId)
    fun sequence => { status := .pending, value := value, sequence := sequence })
  pure inserted.isSome

/-- Give an input a new status when its present one allows it. -/
def setInputStatus (branchId inputId : String) (status : InputStatus)
    (allowed : InputStatus → Bool) : PgTxn V Unit := do
  let _ ← exec (.update (.input branchId inputId) fun row =>
    if allowed row.status then some { row with status := status } else none)

/-- Mark an input as claimed unless it is already terminal. -/
def claimInput (branchId inputId : String) (token : Int) : PgTxn V Unit := do
  fence branchId token
  setInputStatus branchId inputId .claimed fun status => status ≠ .admitted ∧ status ≠ .discarded

/-- Mark the selected inputs as admitted. The one statement updates its rows one after another. -/
def admitInputs (branchId : String) (inputIds : List String) (token : Int) : PgTxn V Unit :=
  if inputIds = [] then pure ()
  else do
    fence branchId token
    inputIds.forM fun inputId =>
      setInputStatus branchId inputId .admitted fun status => status ≠ .discarded

/-- Make screened-out inputs terminal without deleting their idempotency keys. -/
def discardInputs (branchId : String) (inputIds : List String) (token : Int) : PgTxn V Unit :=
  if inputIds = [] then pure ()
  else do
    fence branchId token
    inputIds.forM fun inputId => setInputStatus branchId inputId .discarded fun _ => true

/-- The first key that occurs twice. -/
def repeatedKey : List String → List String → Option String
  | [], _ => none
  | key :: rest, seen => if key ∈ seen then some key else repeatedKey rest (key :: seen)

/-- The inputs of a transition, and the ids that were new. -/
def insertInputs (branchId : String) : List (String × V) → PgTxn V (List String)
  | [] => pure []
  | (inputId, value) :: rest => do
    let fresh ← enqueueInput branchId inputId value
    let inserted ← insertInputs branchId rest
    pure (if fresh then inputId :: inserted else inserted)

/-- The part of `commit_transition` behind the fence. -/
def applyTransition [BEq V] (branchId : String) (transition : ExecutionTransition V) :
    PgTxn V (List String) :=
  match repeatedKey (transition.effects.map EffectCompletion.key) [] with
  | some key => throw (.store (.valueError (.repeatedEffect key)))
  | none =>
    if MemorySteps.overlap transition ≠ [] then
      throw (.store (.valueError (.effectAndControl (MemorySteps.overlap transition))))
    else do
      transition.effects.forM fun effect =>
        completeEffect branchId effect.key effect.value effect.expected
      transition.controls.items.forM fun item => setControl branchId item.1 item.2
      insertInputs branchId transition.inputs

/-- Atomically apply typed effect, control, and input changes. -/
def commitTransition [BEq V] (branchId : String) (transition : ExecutionTransition V)
    (token : Int) : PgTxn V (List String) := do
  fence branchId token
  applyTransition branchId transition

end PostgresSteps

/-! ## Section 3: Methods as calls -/

/-- A call of one `PostgresSteps` method. -/
inductive PgOp (V : Type) where
  | read (branchId key : String)
  | start (branchId key : String) (token : Int)
  | finishEffect (branchId key : String) (value : Option V) (token : Int)
  | resolveEffect (branchId key : String) (resolution : EffectResolution V)
      (workersStopped : Bool) (token : Int)
  | writeControl (branchId key : String) (value : Option V) (token : Int)
  | forget (branchId key : String) (token : Int)
  | acquire (branchId owner : String) (ttlSeconds : ℚ)
  | release (branchId owner : String)
  | enqueueInput (branchId inputId : String) (value : V)
  | claimInput (branchId inputId : String) (token : Int)
  | admitInputs (branchId : String) (inputIds : List String) (token : Int)
  | discardInputs (branchId : String) (inputIds : List String) (token : Int)
  | commitTransition (branchId : String) (transition : ExecutionTransition V) (token : Int)

namespace PgOp

variable {V : Type}

/-- What a method returns when it does not raise. -/
def Reply : PgOp V → Type
  | .read .. => PgStep V
  | .start .. => Bool
  | .finishEffect .. => Unit
  | .resolveEffect .. => PgStep V
  | .writeControl .. => Unit
  | .forget .. => Unit
  | .acquire .. => Int
  | .release .. => Unit
  | .enqueueInput .. => Bool
  | .claimInput .. => Unit
  | .admitInputs .. => Unit
  | .discardInputs .. => Unit
  | .commitTransition .. => List String

/-- The transaction of a call that begins at `now`. -/
def perform [BEq V] (now : ℚ) : (op : PgOp V) → PgTxn V op.Reply
  | .read b key => PostgresSteps.read b key
  | .start b key token => PostgresSteps.start b key token
  | .finishEffect b key value token => PostgresSteps.finishEffect b key value token
  | .resolveEffect b key resolution workersStopped token =>
      PostgresSteps.resolveEffect b key resolution workersStopped token
  | .writeControl b key value token => PostgresSteps.writeControl b key value token
  | .forget b key token => PostgresSteps.forget b key token
  | .acquire b owner ttl => PostgresSteps.acquire b owner ttl now
  | .release b owner => PostgresSteps.release b owner
  | .enqueueInput b inputId value => PostgresSteps.enqueueInput b inputId value
  | .claimInput b inputId token => PostgresSteps.claimInput b inputId token
  | .admitInputs b inputIds token => PostgresSteps.admitInputs b inputIds token
  | .discardInputs b inputIds token => PostgresSteps.discardInputs b inputIds token
  | .commitTransition b transition token => PostgresSteps.commitTransition b transition token

end PgOp

/-- A call and the time its transaction begins. -/
structure PgCall (V : Type) where
  op : PgOp V
  now : ℚ

/-- The transaction of a call. -/
def PgCall.body {V : Type} [BEq V] (call : PgCall V) : PgTxn V call.op.Reply :=
  call.op.perform call.now

/-- The world of a PostgreSQL ledger and the workers that use it. -/
abbrev PgWorld (V : Type) := World (PgRow V) PgError fun call : PgCall V => call.op.Reply

/-- The freshly created schema. -/
def PgWorld.init {V : Type} : PgWorld V := { db := fun _ => none }

end Semora
