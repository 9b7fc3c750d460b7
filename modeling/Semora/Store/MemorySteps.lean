import Semora.Store.Step

/-! # MemorySteps

    `semora_store.ledger.MemorySteps`: the step ledger over process-local
    dictionaries. Each method runs without suspending, so it is one atomic
    operation on the store.

    A method is a function from the store to an outcome and a store. When a
    method raises, the store it hands back is the one at the raise: nothing
    rolls a dictionary back. -/

namespace Semora

/-- An entry of `_leases`: `(owner, token, expiry)`. -/
structure Lease where
  owner : String
  token : Int
  expires : ℚ
  deriving DecidableEq

/-- `MemorySteps`. -/
structure MemorySteps (V : Type) where
  /-- `_entries`, by branch and key. -/
  entries : Dict (String × String) (Step V) := Dict.empty
  /-- `_leases`, by branch. -/
  leases : Dict String Lease := Dict.empty
  /-- `_tokens`: the newest token issued for each branch. -/
  tokens : Dict String Int := Dict.empty
  /-- `_inputs`, by branch and input id. -/
  inputs : Dict (String × String) (InputRecord V) := Dict.empty
  /-- `_input_sequence`, by branch. -/
  inputSequence : Dict String Nat := Dict.empty
  /-- `_decisions`, by branch and decision id. -/
  decisions : Dict (String × String) (ResolutionPayload V) := Dict.empty

/-- What a method leaves behind: its result or the exception it raised, and the store. -/
abbrev StoreOutcome (V α : Type) := Except StoreError α × MemorySteps V

/-- `_resolution_payload`. -/
def resolutionPayload {V : Type} (key : String) (resolution : EffectResolution V)
    (workersStopped : Bool) : Except StoreError (ResolutionPayload V) :=
  if workersStopped ≠ true then .error (.valueError .workersNotStopped)
  else if blank key then .error (.valueError .emptyKey)
  else if blank resolution.decisionId then .error (.valueError .emptyDecisionId)
  else if resolution.expectedVersion < 1 then .error (.valueError .versionNotPositive)
  else if blank resolution.reason then .error (.valueError .emptyReason)
  else if resolution.action = .retry ∧ resolution.value.isSome then
    .error (.valueError .retryWithValue)
  else if resolution.providerKey.any blank then .error (.valueError .emptyProviderKey)
  else
    .ok { key := key, action := resolution.action,
          expectedVersion := resolution.expectedVersion, reason := resolution.reason,
          value := resolution.value, providerKey := resolution.providerKey }

namespace MemorySteps

variable {V : Type}

/-- The store a fresh process has. -/
def init : MemorySteps V := {}

/-! ## Reading -/

/-- `_entries.get((branch_id, key), Step("absent"))`. -/
def entry (s : MemorySteps V) (branchId key : String) : Step V :=
  s.entries.getD (branchId, key) { status := .absent }

/-- `_tokens.get(branch_id, 0)`. -/
def issued (s : MemorySteps V) (branchId : String) : Int := s.tokens.getD branchId 0

/-- The stored step or an absent state. -/
def read (s : MemorySteps V) (branchId key : String) : Step V :=
  let record := s.entry branchId key
  { status := record.status, value := record.value, version := record.version }

/-- `_entries[branch_id, key] = step`. -/
def setEntry (s : MemorySteps V) (branchId key : String) (step : Step V) : MemorySteps V :=
  { s with entries := s.entries.set (branchId, key) step }

/-- `_fence`: reject stale lease holders while allowing unleased writes with token zero. -/
def fence (s : MemorySteps V) (branchId : String) (token : Int) : Except StoreError Unit :=
  if token ≠ 0 ∧ token < s.issued branchId then
    .error (.fenced branchId token (s.issued branchId))
  else .ok ()

/-- `self._fence(branch_id, token)` in front of the rest of a method. -/
def fenced {α : Type} (s : MemorySteps V) (branchId : String) (token : Int)
    (rest : StoreOutcome V α) : StoreOutcome V α :=
  match s.fence branchId token with
  | .error e => (.error e, s)
  | .ok () => rest

/-! ## Steps -/

/-- Record running intent only when the step is absent. -/
def start (s : MemorySteps V) (branchId key : String) (token : Int) : StoreOutcome V Bool :=
  s.fenced branchId token <|
    let record := s.entry branchId key
    if record.status ≠ .absent ∧ record.status ≠ .ready then (.ok false, s)
    else
      (.ok true,
        s.setEntry branchId key { status := .running, version := record.version + 1 })

/-- Complete a running effect while preserving an existing result. -/
def finishEffect [BEq V] (s : MemorySteps V) (branchId key : String) (value : Option V)
    (token : Int) : StoreOutcome V Unit :=
  s.fenced branchId token <|
    let record := s.entry branchId key
    if record.status = .done then
      if record.value == value then (.ok (), s)
      else
        (.error (.effectConflict branchId key "a different result is already committed"), s)
    else if record.status ≠ .running then
      (.error (.effectConflict branchId key
        ("expected 'running', found " ++ record.status.repr)), s)
    else
      (.ok (), s.setEntry branchId key
        { status := .done, value := value, version := record.version + 1 })

/-- Apply one externally reconciled decision without granting it twice. -/
def resolveEffect [BEq V] (s : MemorySteps V) (branchId key : String)
    (resolution : EffectResolution V) (workersStopped : Bool) (token : Int) :
    StoreOutcome V (Step V) :=
  s.fenced branchId token <|
    match resolutionPayload key resolution workersStopped with
    | .error e => (.error e, s)
    | .ok payload =>
      match s.decisions.get? (branchId, resolution.decisionId) with
      | some previous =>
        if previous != payload then
          (.error (.effectConflict branchId key
            "decision id was used with different parameters"), s)
        else (.ok (s.read branchId key), s)
      | none =>
        let record := s.entry branchId key
        if record.status ≠ .running ∨ (record.version : Int) ≠ resolution.expectedVersion then
          (.error (.effectConflict branchId key
            "stale version or effect is not unresolved"), s)
        else
          let updated : Step V :=
            match resolution.action with
            | .complete =>
              { status := .done, value := resolution.value, version := record.version + 1 }
            | .retry => { status := .ready, version := record.version + 1 }
          let s' : MemorySteps V :=
            { s.setEntry branchId key updated with
              decisions := s.decisions.set (branchId, resolution.decisionId) payload }
          (.ok (s'.read branchId key), s')

/-- Upsert mutable process-local control state. -/
def writeControl (s : MemorySteps V) (branchId key : String) (value : Option V)
    (token : Int) : StoreOutcome V Unit :=
  s.fenced branchId token <|
    let record := s.entry branchId key
    (.ok (), s.setEntry branchId key
      { status := .done, value := value, version := record.version + 1 })

/-- Remove unfinished step intent while preserving completed results. -/
def forget (s : MemorySteps V) (branchId key : String) (token : Int) : StoreOutcome V Unit :=
  s.fenced branchId token <|
    let record := s.entry branchId key
    if record.status = .running then
      (.ok (), s.setEntry branchId key { status := .absent, version := record.version + 1 })
    else (.ok (), s)

/-! ## Leases

    `monotonic()` is read twice, once to judge the expiry of the held lease
    and once to set the next one; `now` and `later` are the two readings. -/

/-- Acquire or renew a run lease: the fencing token, or `0` when another owner holds it. -/
def acquire (s : MemorySteps V) (branchId owner : String) (ttlSeconds now later : ℚ) :
    Int × MemorySteps V :=
  match s.leases.get? branchId with
  | some held =>
    if held.owner = owner then
      -- the holder renewing keeps its token, whether or not its lease ran out
      (held.token,
        { s with leases := s.leases.set branchId ⟨owner, held.token, later + ttlSeconds⟩ })
    else if ¬ held.expires ≤ now then (0, s)
    else grant
  | none => grant
where
  /-- A new lease or a takeover: the token moves, so a previous holder is fenced. -/
  grant : Int × MemorySteps V :=
    let token := s.issued branchId + 1
    (token,
      { s with
        tokens := s.tokens.set branchId token
        leases := s.leases.set branchId ⟨owner, token, later + ttlSeconds⟩ })

/-- Expire an owned lease without resetting its fencing token. -/
def release (s : MemorySteps V) (branchId owner : String) (now : ℚ) : MemorySteps V :=
  match s.leases.get? branchId with
  | some held =>
    if held.owner = owner then
      { s with leases := s.leases.set branchId ⟨"", held.token, now⟩ }
    else s
  | none => s

/-! ## Inputs -/

/-- Append an input under a fresh sequence number. -/
def appendInput (s : MemorySteps V) (branchId inputId : String) (value : V) : MemorySteps V :=
  let sequence := s.inputSequence.getD branchId 0
  { s with
    inputSequence := s.inputSequence.set branchId (sequence + 1)
    inputs := s.inputs.set (branchId, inputId) ⟨inputId, .pending, value, sequence⟩ }

/-- Append an input unless its identifier already exists. -/
def enqueueInput (s : MemorySteps V) (branchId inputId : String) (value : V) :
    Bool × MemorySteps V :=
  if (s.inputs.get? (branchId, inputId)).isSome then (false, s)
  else (true, s.appendInput branchId inputId value)

/-- The run's inputs in submission order. -/
def listInputs (s : MemorySteps V) (branchId : String) : List (InputRecord V) :=
  ((s.inputs.items.filter fun item => item.1.1 = branchId).map Prod.snd).insertionSort
    fun a b => a.sequence ≤ b.sequence

/-- Give an input a new status when its present one allows it. An unknown id is a no-op. -/
def setInputStatus (s : MemorySteps V) (branchId inputId : String) (status : InputStatus)
    (allowed : InputStatus → Bool) : MemorySteps V :=
  match s.inputs.get? (branchId, inputId) with
  | some record =>
    if allowed record.status then
      { s with
        inputs := s.inputs.set (branchId, inputId)
          ⟨inputId, status, record.value, record.sequence⟩ }
    else s
  | none => s

/-- Mark an input as claimed unless it is already terminal. -/
def claimInput (s : MemorySteps V) (branchId inputId : String) (token : Int) :
    StoreOutcome V Unit :=
  s.fenced branchId token
    (.ok (), s.setInputStatus branchId inputId .claimed
      fun status => status ≠ .admitted ∧ status ≠ .discarded)

/-- Mark the selected inputs as admitted. -/
def admitInputs (s : MemorySteps V) (branchId : String) (inputIds : List String)
    (token : Int) : StoreOutcome V Unit :=
  s.fenced branchId token
    (.ok (), inputIds.foldl
      (fun s inputId => s.setInputStatus branchId inputId .admitted
        fun status => status ≠ .discarded) s)

/-- Make screened-out inputs terminal without deleting their idempotency keys. -/
def discardInputs (s : MemorySteps V) (branchId : String) (inputIds : List String)
    (token : Int) : StoreOutcome V Unit :=
  s.fenced branchId token
    (.ok (), inputIds.foldl
      (fun s inputId => s.setInputStatus branchId inputId .discarded fun _ => true) s)

/-! ## Transitions -/

/-- The first pass over the effects: which of them still have to be
    completed, with their value and their next version. -/
def planEffects [BEq V] (s : MemorySteps V) (branchId : String) :
    List (EffectCompletion V) → List String →
      Except StoreError (List (String × Option V × Nat))
  | [], _ => .ok []
  | effect :: rest, seen =>
    if effect.key ∈ seen then .error (.valueError (.repeatedEffect effect.key))
    else
      let record := s.entry branchId effect.key
      if record.status = .done then
        if record.value != effect.value then
          .error (.effectConflict branchId effect.key "a different result is already committed")
        else planEffects s branchId rest (effect.key :: seen)
      else if record.status ≠ effect.expected.status then
        .error (.effectConflict branchId effect.key
          ("expected " ++ effect.expected.status.repr ++ ", found " ++ record.status.repr))
      else
        match planEffects s branchId rest (effect.key :: seen) with
        | .error e => .error e
        | .ok completed => .ok ((effect.key, effect.value, record.version + 1) :: completed)

/-- `sorted(seen.intersection(transition.controls))`. -/
def overlap (transition : ExecutionTransition V) : List String :=
  ((transition.controls.items.map Prod.fst).filter
    fun key => key ∈ transition.effects.map EffectCompletion.key).insertionSort (· ≤ ·)

/-- The second pass: completed effects. -/
def applyCompleted (s : MemorySteps V) (branchId : String)
    (completed : List (String × Option V × Nat)) : MemorySteps V :=
  completed.foldl
    (fun s item => s.setEntry branchId item.1
      { status := .done, value := item.2.1, version := item.2.2 }) s

/-- The second pass: control state. -/
def applyControls (s : MemorySteps V) (branchId : String)
    (controls : List (String × Option V)) : MemorySteps V :=
  controls.foldl
    (fun s item => s.setEntry branchId item.1
      { status := .done, value := item.2, version := (s.entry branchId item.1).version + 1 }) s

/-- The second pass: queued inputs, and the ids that were new. -/
def applyInputs (s : MemorySteps V) (branchId : String) :
    List (String × V) → List String × MemorySteps V
  | [] => ([], s)
  | (inputId, value) :: rest =>
    if (s.inputs.get? (branchId, inputId)).isSome then applyInputs s branchId rest
    else
      let (inserted, s') := applyInputs (s.appendInput branchId inputId value) branchId rest
      (inputId :: inserted, s')

/-- Atomically apply a process-local control transition. -/
def commitTransition [BEq V] (s : MemorySteps V) (branchId : String)
    (transition : ExecutionTransition V) (token : Int) : StoreOutcome V (List String) :=
  s.fenced branchId token <|
    match s.planEffects branchId transition.effects [] with
    | .error e => (.error e, s)
    | .ok completed =>
      if overlap transition ≠ [] then
        (.error (.valueError (.effectAndControl (overlap transition))), s)
      else
        let (inserted, s') :=
          ((s.applyCompleted branchId completed).applyControls branchId
            transition.controls.items).applyInputs branchId transition.inputs
        (.ok inserted, s')

end MemorySteps

end Semora
