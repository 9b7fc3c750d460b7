import Semora.Agent.Runtime

/-! # Host Commands

    `semora.dispatch`: the transition table behind `AgentRuntime.dispatch`. A
    router matches on the command first and observes the run's state at most
    once; a row that raises `Contended` hands the command to the next one.

    A host may build a router of its own, with rows that return what they
    like. The preset has five rows; for each kind of command its table comes
    down to a few lines, which the `_eq` lemmas of the last section give. -/

namespace Semora

/-- `Command`. -/
inductive Command where
  | prompt (text : Json) (promptId : Option String)
  | answer (pendingId : String) (payload : Answer)
  | recover
  deriving DecidableEq

/-- What a row of the preset returns. -/
inductive Dispatched where
  | outcome (outcome : Outcome)
  | enqueued (inputId : Option String)
  deriving DecidableEq

/-- `Transition`: one row of a router's table. What it returns is its own affair. -/
structure Transition (ρ : Type) where
  /-- The observed states the row accepts; `none` accepts every state. -/
  states : Option (List String)
  applies : Command → Bool
  apply : Command → Option String → Code ρ

/-- `isinstance(error, LookupError) and not isinstance(error, KeyError)`. -/
def Raised.isLookupError : Raised → Bool
  | .lookupError _ => true
  | .indexError => true
  | _ => false

/-- `isinstance(error, Contended)`. -/
def Raised.isContended : Raised → Bool
  | .contended _ => true
  | _ => false

/-! ## Section 1: The router -/

section router

variable {ρ : Type} (runtime : AgentRuntime) (execution : ExecutionContext) (command : Command)

/-- The row does not accept the observed state. -/
def Transition.rejects (row : Transition ρ) (state : Option String) : Bool :=
  match row.states with
  | none => false
  | some states => !state.any (· ∈ states)

theorem Transition.rejects_some (row : Transition ρ) {states : List String}
    (hstates : row.states = some states) (state : String) :
    row.rejects (some state) = !decide (state ∈ states) := by
  unfold Transition.rejects
  rw [hstates]
  rfl

/-- The state, when a candidate row asks for it. -/
def observe (candidates : List (Transition ρ)) : Code (Option String) :=
  if candidates.any fun row => row.states.isSome then do
    let state ← runtime.state execution
    pure (some state)
  else pure none

/-- The state that a refusal names: what was observed, or what is observed now. -/
def named : Option String → Code String
  | some state => pure state
  | none => runtime.state execution

/-- `CommandRouter`: the rows, in matching order. -/
structure CommandRouter (ρ : Type) where
  transitions : List (Transition ρ)

namespace CommandRouter

/-- The rows for the command. -/
def candidates (router : CommandRouter ρ) : List (Transition ρ) :=
  router.transitions.filter fun row => row.applies command

/-- The loop of `dispatch`; `contended` is the last `Contended` that a row has raised. -/
def offer (state : Option String) : List (Transition ρ) → Option Raised → Code ρ
  | [], some busy => throw busy
  | [], none => do
    let name ← named runtime execution state
    throw (.invalidTransition name)
  | row :: rows, contended =>
    if row.rejects state then offer state rows contended
    else
      Code.catch_ (row.apply command state) fun error =>
        if error.isContended then offer state rows (some error) else throw error

/-- `dispatch`: route one command through the table. -/
def dispatch (router : CommandRouter ρ) : Code ρ := do
  let state ← observe runtime execution (router.candidates command)
  offer runtime execution command state (router.candidates command) none

end CommandRouter

end router

/-! ## Section 2: The preset -/

section rows

variable (runtime : AgentRuntime) (execution : ExecutionContext) (owner : String)
  (options : Options)

/-- `StartRun`: a prompt is delivered as this attempt's input. -/
def startRun : Transition Dispatched where
  states := none
  applies
    | .prompt .. => true
    | _ => false
  apply command _ :=
    match command with
    | .prompt text promptId => do
      let outcome ← runtime.run execution owner options
        { prompt := some text, promptId := promptId }
      pure (.outcome outcome)
    | _ => throw (.other "AssertionError")

/-- `QueueSteer`: a prompt behind a live worker is queued for that worker's loop. -/
def queueSteer : Transition Dispatched where
  states := none
  applies
    | .prompt .. => true
    | _ => false
  apply command _ :=
    match command with
    | .prompt text promptId => do
      let item ← AgentRuntime.submit execution ⟨"user_prompt", .userPrompt text, promptId⟩
      pure (.enqueued item.originId)
    | _ => throw (.other "AssertionError")

/-- A missing park is an invalid transition; a `KeyError` is no such thing. -/
def refuseMissing (state : Option String) (error : Raised) : Code Dispatched := do
  if ¬ error.isLookupError then throw error
  else
    let name ← named runtime execution state
    throw (.invalidTransition name)

/-- `ResumeApproval`: an answer revalidates and finishes the call a gate parked. -/
def resumeApproval : Transition Dispatched where
  states := none
  applies
    | .answer .. => true
    | _ => false
  apply command state :=
    match command with
    | .answer pendingId payload =>
      Code.catch_ (do
        let outcome ← runtime.resume execution owner options pendingId payload
        pure (.outcome outcome)) (refuseMissing runtime execution state)
    | _ => throw (.other "AssertionError")

/-- `RecoverInterrupted`: a parked run is finished from the committed transcript. -/
def recoverInterrupted : Transition Dispatched where
  states := some ["waiting", "resuming"]
  applies
    | .recover => true
    | _ => false
  apply _ _ := do
    let history ← runtime.committedHistory execution
    let outcome ← runtime.recover execution owner options history
    pure (.outcome outcome)

/-- `ReplayJournal`: an open, unparked round is run again without a prompt. -/
def replayJournal : Transition Dispatched where
  states := some ["interrupted"]
  applies
    | .recover => true
    | _ => false
  apply _ _ := do
    let outcome ← runtime.run execution owner options {}
    pure (.outcome outcome)

/-- `default_router`. -/
def defaultRouter : CommandRouter Dispatched where
  transitions :=
    [resumeApproval runtime execution owner options,
     recoverInterrupted runtime execution owner options,
     replayJournal runtime execution owner options,
     startRun runtime execution owner options,
     queueSteer execution]

/-- `AgentRuntime.dispatch`. -/
def AgentRuntime.dispatch (command : Command) : Code Dispatched :=
  if ¬ runtime.transcript then
    throw (.other "dispatch requires AgentRuntime(execution_store=..., transcript=...)")
  else (defaultRouter runtime execution owner options).dispatch runtime execution command

/-! ## Section 3: What the preset does -/

/-- What is caught and raised again might as well not have been caught. -/
theorem Code.catch_rethrow {α : Type} (x : Code α) {f : Raised → Code α}
    (hf : ∀ error, f error = throw error) : Code.catch_ x f = x := by
  have hrun : (Code.catch_ x f).run = x.run >>= Prog.pure := by
    refine congrArg (x.run >>= ·) (funext fun r => ?_)
    cases r with
    | error error => exact congrArg ExceptT.run (hf error)
    | ok a => rfl
  rw [Prog.bind_pure] at hrun
  exact hrun

namespace CommandRouter

variable {ρ : Type} (command : Command) {state : Option String} {row : Transition ρ}
  (contended : Option Raised)

/-- A row that rejects the state is passed over. -/
theorem offer_skip (hrejects : row.rejects state = true) (rows : List (Transition ρ)) :
    offer runtime execution command state (row :: rows) contended
      = offer runtime execution command state rows contended := if_pos hrejects

/-- The last row that accepts the state settles it, whatever it raises. -/
theorem offer_last (haccepts : row.rejects state = false) {rows : List (Transition ρ)}
    (hrows : ∀ other ∈ rows, other.rejects state = true) :
    offer runtime execution command state (row :: rows) contended = row.apply command state := by
  have hrest : ∀ error, offer runtime execution command state rows (some error) = throw error := by
    intro error
    induction rows with
    | nil => rfl
    | cons other rows ih =>
      rw [offer_skip runtime execution command _ (hrows other List.mem_cons_self)]
      exact ih fun next hnext => hrows next (List.mem_cons_of_mem _ hnext)
  have hoffer : offer runtime execution command state (row :: rows) contended
      = Code.catch_ (row.apply command state) fun error =>
        if error.isContended then offer runtime execution command state rows (some error)
        else throw error :=
    if_neg (Bool.eq_false_iff.mp haccepts)
  rw [hoffer]
  refine Code.catch_rethrow _ fun error => ?_
  rw [hrest error]
  exact ite_self _

end CommandRouter

namespace AgentRuntime

variable {runtime execution owner options} (htranscript : runtime.transcript = true)

include htranscript

/-- A prompt is offered to `StartRun`, which may hand it on to `QueueSteer`. -/
theorem dispatch_prompt_eq (text : Json) (promptId : Option String) :
    runtime.dispatch execution owner options (.prompt text promptId)
      = Code.catch_ ((startRun runtime execution owner options).apply (.prompt text promptId) none)
          fun error => if error.isContended then
            (queueSteer execution).apply (.prompt text promptId) none else throw error := by
  have hdispatch : runtime.dispatch execution owner options (.prompt text promptId)
      = Code.catch_ ((startRun runtime execution owner options).apply (.prompt text promptId) none)
          fun error => if error.isContended then
            CommandRouter.offer runtime execution (.prompt text promptId) none
              [queueSteer execution] (some error) else throw error :=
    if_neg (not_not.mpr htranscript)
  rw [hdispatch]
  refine congrArg (Code.catch_ _) (funext fun error => ?_)
  rw [CommandRouter.offer_last runtime execution _ _ rfl (by simp)]

/-- An answer is offered to `ResumeApproval` alone. -/
theorem dispatch_answer_eq (pendingId : String) (answer : Answer) :
    runtime.dispatch execution owner options (.answer pendingId answer)
      = (resumeApproval runtime execution owner options).apply (.answer pendingId answer) none := by
  have hdispatch : runtime.dispatch execution owner options (.answer pendingId answer)
      = CommandRouter.offer runtime execution (.answer pendingId answer) none
          [resumeApproval runtime execution owner options] none :=
    if_neg (not_not.mpr htranscript)
  rw [hdispatch, CommandRouter.offer_last runtime execution _ _ rfl (by simp)]

/-- What the preset makes of `Recover` in a state. -/
def recoverFrom (runtime : AgentRuntime) (execution : ExecutionContext) (owner : String)
    (options : Options) (state : String) : Code Dispatched :=
  if state ∈ ["waiting", "resuming"] then
    (recoverInterrupted runtime execution owner options).apply .recover (some state)
  else if state ∈ ["interrupted"] then
    (replayJournal runtime execution owner options).apply .recover (some state)
  else throw (.invalidTransition state)

/-- `Recover` is offered to one row at most: a state in which a round is parked is not one in which
    it is open. -/
theorem dispatch_recover_eq :
    runtime.dispatch execution owner options .recover
      = runtime.state execution >>= recoverFrom runtime execution owner options := by
  let rows := [recoverInterrupted runtime execution owner options,
    replayJournal runtime execution owner options]
  have hdispatch : runtime.dispatch execution owner options .recover
      = (runtime.state execution >>= fun state => pure (some state)) >>= fun state =>
        CommandRouter.offer runtime execution .recover state rows none :=
    if_neg (not_not.mpr htranscript)
  rw [hdispatch, bind_assoc]
  refine congrArg (runtime.state execution >>= ·) (funext fun state => ?_)
  rw [pure_bind]
  have hclosed : ∀ row : Transition Dispatched, ∀ states, row.states = some states →
      state ∉ states → row.rejects (some state) = true := by
    intro row states hstates hother
    rw [row.rejects_some hstates, decide_eq_false hother]
    rfl
  have hopen : ∀ row : Transition Dispatched, ∀ states, row.states = some states →
      state ∈ states → row.rejects (some state) = false := by
    intro row states hstates hnamed
    rw [row.rejects_some hstates, decide_eq_true hnamed]
    rfl
  -- A state closes one of the two rows, or both.
  by_cases hparked : state ∈ ["waiting", "resuming"]
  · have hother : state ∉ ["interrupted"] := by
      intro hinterrupted
      rw [List.mem_singleton.mp hinterrupted] at hparked
      revert hparked
      decide
    have hreplay : ∀ other ∈ [replayJournal runtime execution owner options],
        other.rejects (some state) = true := by
      intro other hmem
      rw [List.mem_singleton.mp hmem]
      exact hclosed _ _ rfl hother
    rw [CommandRouter.offer_last runtime execution _ _ (hopen _ _ rfl hparked) hreplay]
    exact (if_pos hparked).symm
  · rw [CommandRouter.offer_skip runtime execution _ _ (hclosed _ _ rfl hparked)]
    by_cases hinterrupted : state ∈ ["interrupted"]
    · rw [CommandRouter.offer_last runtime execution _ _ (hopen _ _ rfl hinterrupted) (by simp)]
      exact ((if_neg hparked).trans (if_pos hinterrupted)).symm
    · rw [CommandRouter.offer_skip runtime execution _ _ (hclosed _ _ rfl hinterrupted)]
      exact ((if_neg hparked).trans (if_neg hinterrupted)).symm

end AgentRuntime

end rows

end Semora
