import Semora.Agent.Operations

/-! # EffectJournal

    `semora.journal`: the durable transitions of model and tool effects. -/

namespace Semora

/-- `EffectJournal`, for one fenced attempt. -/
structure EffectJournal where
  store : Store
  branchId : String
  token : Int
  retryRunning : Bool

/-- The record a stored value is read as. `record["ok"]` raises on anything else. -/
def asToolRecord : Option Record → Code ToolRecord
  | some (.tool record) => pure record
  | _ => throw .keyError

/-- `_RESPONSE.validate_python(step.value["response"])`. -/
def asResponse : Option Record → Code ModelResponse
  | some (.model response) => pure response
  | _ => throw .keyError

namespace EffectJournal

variable (j : EffectJournal)

/-- Whether this branch already holds the call's completed effect. -/
def recorded (callId : String) : Code Bool := do
  let step ← j.store.read j.branchId (stepKey callId)
  pure (step.status = .done)

/-- A step left running, or started by someone else: clear it if repeating is allowed. -/
def reclaim (key : String) (step : Step Record) : Code Unit :=
  if step.status = .running then
    if ¬ j.retryRunning then throw (.indeterminate j.branchId key step.version)
    else j.store.forget j.branchId key j.token
  else pure ()

/-- Record running intent, or report that another attempt has. -/
def begin_ (key : String) : Code Unit := do
  if ← j.store.start j.branchId key j.token then pure ()
  else
    let current ← j.store.read j.branchId key
    throw (.indeterminate j.branchId key current.version)

/-- `model`: execute or replay one model request as a durable step. -/
def model (key : String) (handler : Code ModelResponse) : Code ModelResponse := do
  let step ← j.store.read j.branchId key
  if step.status = .done then asResponse step.value
  else
    j.reclaim key step
    j.begin_ key
    let response ← Code.catch_ handler fun e =>
      if e = .cancelled then throw e
      else do
        j.store.forget j.branchId key j.token
        throw e
    j.store.finishEffect j.branchId key (some (.model response)) j.token
    pure response

/-- Commit the record of a tool that has returned or failed. -/
def commit (key : String) (record : ToolRecord) : Code (Option Record) := do
  j.store.finishEffect j.branchId key (some (.tool record)) j.token
  pure (some (.tool record))

/-- `_execute`. -/
def execute (key : String) (handler : Code Json) : Code (Option Record) := do
  let outcome ← Code.attempt handler
  match outcome with
  | .error e =>
    if e.nothingHappened then do
      -- nothing went out: the call can run again
      j.store.forget j.branchId key j.token
      throw e
    else if e.passesThrough then throw e
    else j.commit key (.failed e.text)
  | .ok value => j.commit key (.ok value)

/-- `tool`: replay, reject ambiguity, or execute and commit one tool effect. -/
def tool (callId : String) (handler : Code Json) : Code (Option Record) := do
  let key := stepKey callId
  let step ← j.store.read j.branchId key
  if step.status = .done then pure step.value
  else
    j.reclaim key step
    j.begin_ key
    j.execute key handler

/-- `project_once`: run post-tool policy once and replay its model-visible projection. -/
def projectOnce (callId : String) (record : Option Record)
    (project : Option (ToolRecord → Code ToolRecord)) : Code (Option Record) := do
  let key := afterKey callId
  let journal ← j.store.read j.branchId key
  if journal.status = .done then
    match journal.value with
    | some (.after projection) => pure (some (.tool projection))
    | _ => throw (.valueError "journal completion has no recorded model-visible result")
  else
    match project with
    | none => pure record
    | some project => do
      let committed ← asToolRecord record
      let projected ← project committed
      j.store.writeControl j.branchId key (some (.after projected)) j.token
      pure (some (.tool projected))

end EffectJournal

end Semora
