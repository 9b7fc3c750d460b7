import Semora.Agent.Branch
import Semora.Agent.Transcripts
import Semora.Agent.Finalizations

/-! # What `state` Says of the Latest Attempt

    All attempts of a branch share one run record. An attempt that opens
    writes `started_at` into it, one that closes `ended_at`, and nothing is
    ever taken out again. So the record says whether any attempt has closed,
    not whether the latest has: `state` names the latest attempt exactly while
    none has closed or the latest has (`state_names_latest_iff`).

    Records are kept by branch id alone: two branches of one id in two
    conversations share theirs, and the attempts counted here are those of
    every branch with that id. -/

namespace Semora

open Pool

/-! ## Section 1: Attempts -/

/-- An attempt that has opened its run record. -/
structure RunAttempt where
  tid : Nat
  branchId : String
  closed : Bool
  deriving DecidableEq

/-- The thread closes the attempt that it opened last. Attempts are listed latest first. -/
def closeLatest (tid : Nat) : List RunAttempt → List RunAttempt
  | [] => []
  | a :: attempts =>
    if a.tid = tid then { a with closed := true } :: attempts else a :: closeLatest tid attempts

section log

variable {C : Type}

/-- What an event makes of the attempts. -/
def attempted (attempts : List RunAttempt) (e : Code.Event C) : List RunAttempt :=
  match e.op with
  | .ext (.transcript (.openBranch _ branchId)) => ⟨e.tid, branchId, false⟩ :: attempts
  | .ext (.transcript (.closed ..)) => closeLatest e.tid attempts
  | _ => attempts

/-- The attempts of a log, latest first. -/
def attemptsOf (log : List (Code.Event C)) : List RunAttempt := log.foldl attempted []

/-- Those on one branch. -/
def attemptsOn (branchId : String) (log : List (Code.Event C)) : List RunAttempt :=
  (attemptsOf log).filter fun a => a.branchId = branchId

/-- The latest attempt has closed. -/
def LatestClosed (attempts : List RunAttempt) : Prop :=
  ∃ latest, attempts.head? = some latest ∧ latest.closed = true

instance (attempts : List RunAttempt) : Decidable (LatestClosed attempts) :=
  decidable_of_iff (attempts.head?.any RunAttempt.closed = true) (by
    unfold LatestClosed
    cases attempts.head? <;> simp)

/-- No attempt has closed. -/
def NoneClosed (attempts : List RunAttempt) : Prop := ∀ a ∈ attempts, a.closed = false

end log

/-! ## Section 2: The run record -/

/-- What a record says of an end, if it is there. -/
def endOf (attempts : List RunAttempt) : Option Bool :=
  match attempts with
  | [] => none
  | a :: rest => some ((a :: rest).any RunAttempt.closed)

theorem closeLatest_cases (tid : Nat) (attempts : List RunAttempt) :
    (attempts.find? (fun a => a.tid = tid) = none ∧ closeLatest tid attempts = attempts) ∨
    ∃ front a back, attempts = front ++ a :: back ∧
      attempts.find? (fun a => a.tid = tid) = some a ∧
      closeLatest tid attempts = front ++ { a with closed := true } :: back := by
  induction attempts with
  | nil => exact Or.inl ⟨rfl, rfl⟩
  | cons a attempts ih =>
    by_cases htid : a.tid = tid
    · refine Or.inr ⟨[], a, attempts, rfl, ?_, if_pos htid⟩
      rw [List.find?_cons_of_pos (by simpa using htid)]
    · rw [List.find?_cons_of_neg (by simpa using htid)]
      have hskip : closeLatest tid (a :: attempts) = a :: closeLatest tid attempts := if_neg htid
      rw [hskip]
      rcases ih with ⟨hnone, hsame⟩ | ⟨front, found, back, hsplit, hfound, hclosed⟩
      · exact Or.inl ⟨hnone, by rw [hsame]⟩
      · refine Or.inr ⟨a :: front, found, back, ?_, hfound, ?_⟩
        · rw [hsplit, List.cons_append]
        · rw [hclosed, List.cons_append]

theorem find?_closeLatest (tid other : Nat) (attempts : List RunAttempt) :
    ((closeLatest tid attempts).find? fun a => a.tid = other).map RunAttempt.branchId
      = (attempts.find? fun a => a.tid = other).map RunAttempt.branchId := by
  induction attempts with
  | nil => rfl
  | cons a attempts ih =>
    unfold closeLatest
    by_cases htid : a.tid = tid
    · rw [if_pos htid]
      by_cases hother : a.tid = other
      · rw [List.find?_cons_of_pos (by simpa using hother),
          List.find?_cons_of_pos (by simpa using hother)]
        rfl
      · rw [List.find?_cons_of_neg (by simpa using hother),
          List.find?_cons_of_neg (by simpa using hother)]
    · rw [if_neg htid]
      by_cases hother : a.tid = other
      · rw [List.find?_cons_of_pos (by simpa using hother),
          List.find?_cons_of_pos (by simpa using hother)]
      · rw [List.find?_cons_of_neg (by simpa using hother),
          List.find?_cons_of_neg (by simpa using hother)]
        exact ih

section record

variable {S C : Type} [PythonScalar S]

/-- What the transcript holds of the attempts of a log on one branch. -/
structure RecordsAttempts (branchId : String) (t : TranscriptState S)
    (attempts : List RunAttempt) : Prop where
  /-- A thread's writer is that of the attempt it opened last. -/
  writers : ∀ tid, (t.branches tid).map (fun branch => branch.writer.branchId)
    = (attempts.find? fun a => a.tid = tid).map RunAttempt.branchId
  ends : (t.records.readBranch branchId).map RunRecord.ended
    = endOf (attempts.filter fun a => a.branchId = branchId)

variable {own : String} {outside : Outside S Message} {time : Nat → String} {t : TranscriptState S}
  {attempts : List RunAttempt}

omit [PythonScalar S] in
/-- A method of a thread's branch leaves the run records. -/
theorem RecordsAttempts.moved (h : RecordsAttempts own t attempts) (tid : Nat)
    {result : Option (Branch Message × Log S)}
    (hresult : ∀ branch log, result = some (branch, log) →
      ∃ before, t.branches tid = some before ∧ branch.writer.branchId = before.writer.branchId) :
    RecordsAttempts own (t.moved tid result).2 attempts := by
  cases result with
  | none => exact h
  | some found =>
    obtain ⟨branch, log⟩ := found
    obtain ⟨before, hbefore, hsame⟩ := hresult branch log rfl
    refine ⟨fun other => ?_, h.ends⟩
    show (Function.update t.branches tid (some branch) other).map _ = _
    by_cases hother : other = tid
    · subst hother
      rw [Function.update_self, ← h.writers, hbefore, Option.map_some, Option.map_some, hsame]
    · rw [Function.update_of_ne hother]
      exact h.writers other

omit [PythonScalar S] in
theorem RecordsAttempts.opened (h : RecordsAttempts own t attempts) (tid : Nat)
    (conversationId branchId : String) :
    RecordsAttempts own (t.openBranch outside time tid conversationId branchId)
      (⟨tid, branchId, false⟩ :: attempts) := by
  refine ⟨fun other => ?_, ?_⟩
  · show (Function.update t.branches tid _ other).map _ = _
    by_cases hother : other = tid
    · subst hother
      rw [Function.update_self, List.find?_cons_of_pos (by simp)]
      rfl
    · rw [Function.update_of_ne hother, List.find?_cons_of_neg (by simpa using Ne.symm hother)]
      exact h.writers other
  · show ((t.records.recordBranch branchId _).2.readBranch own).map RunRecord.ended = _
    by_cases hown : own = branchId
    · subst hown
      rw [ended_opened, h.ends, List.filter_cons_of_pos (by simp)]
      cases attempts.filter fun a => a.branchId = own <;> simp [endOf]
    · rw [t.records.readBranch_recordBranch (opened_supported _ _), if_neg hown, h.ends,
        List.filter_cons_of_neg (by simpa using Ne.symm hown)]

omit [PythonScalar S] in
theorem RecordsAttempts.closed (h : RecordsAttempts own t attempts) (tid : Nat)
    (reason : StopReason)
    (toolCalls : Nat) :
    RecordsAttempts own (((t.branches tid).map fun branch =>
      t.closed time branch reason toolCalls).getD t) (closeLatest tid attempts) := by
  have hwriters := h.writers tid
  -- The thread has no attempt, or its latest one is closed and its record with it.
  rcases closeLatest_cases tid attempts with
    ⟨hnone, hsame⟩ | ⟨front, a, back, hsplit, hfound, hclosed⟩
  · rw [hnone, Option.map_none, Option.map_eq_none_iff] at hwriters
    rw [hwriters, hsame]
    exact h
  · rw [hfound, Option.map_some] at hwriters
    obtain ⟨branch, hbranch, hid⟩ := Option.map_eq_some_iff.mp hwriters
    rw [hbranch]
    refine ⟨fun other => ?_, ?_⟩
    · rw [find?_closeLatest]
      exact h.writers other
    · show ((t.records.recordBranch branch.writer.branchId _).2.readBranch own).map RunRecord.ended = _
      rw [hid, hclosed, List.filter_append]
      by_cases hown : own = a.branchId
      · subst hown
        rw [ended_closed, List.filter_cons_of_pos (by simp)]
        cases hfront : front.filter fun x => x.branchId = a.branchId <;> simp [endOf]
      · rw [t.records.readBranch_recordBranch (closed_supported _ _ _ _), if_neg hown, h.ends,
          hsplit, List.filter_append,
          List.filter_cons_of_neg (by simpa using Ne.symm hown),
          List.filter_cons_of_neg (by simpa using Ne.symm hown)]

/-- One event. -/
theorem RecordsAttempts.event (h : RecordsAttempts own t attempts) (e : Code.Event C) :
    RecordsAttempts own (t.event outside time e) (attempted attempts e) := by
  obtain ⟨tid, call, o, r, s⟩ := e
  cases o with
  | ledger op => exact h
  | ext x =>
    cases x with
    | transcript op =>
      cases op with
      | openBranch conversationId branchId => exact h.opened tid conversationId branchId
      | closed reason toolCalls => exact h.closed tid reason toolCalls
      | replace messages =>
        refine h.moved tid fun branch log hresult => ?_
        obtain ⟨before, hbefore, hreplace⟩ := Option.bind_eq_some_iff.mp hresult
        exact ⟨before, hbefore, (Branch.replace_writer hreplace).1⟩
      | append messages =>
        refine h.moved tid fun branch log hresult => ?_
        obtain ⟨before, hbefore, happend⟩ := Option.bind_eq_some_iff.mp hresult
        exact ⟨before, hbefore, (Branch.append_writer happend).1⟩
      | readBranch branchId => exact h
      | read conversationId cursor => cases cursor <;> exact h
    | _ => exact h

/-- A transcript before the first run of a branch: no thread has a branch open yet, and nothing
    is recorded under the branch's id. Whatever it holds of other ids does not matter. -/
def NoRuns (branchId : String) (t : TranscriptState S) : Prop :=
  t.branches = (fun _ => none) ∧ t.records.readBranch branchId = none

/-- **The record of a branch**: after every log, it has ended if any attempt on the branch has
    closed. -/
theorem records_attempts (outside : Outside S Message) (time : Nat → String)
    (hfresh : NoRuns own t) (log : List (Code.Event C)) :
    RecordsAttempts own (t.after outside time log) (attemptsOf log) := by
  induction log using List.reverseRecOn with
  | nil =>
    refine ⟨fun tid => ?_, ?_⟩
    · show (t.branches tid).map _ = _
      rw [hfresh.1]
      rfl
    · show (t.records.readBranch own).map _ = _
      rw [hfresh.2]
      rfl
  | append_singleton log e ih =>
    rw [TranscriptState.after_concat]
    unfold attemptsOf at ih ⊢
    rw [List.foldl_append]
    exact ih.event e

end record

/-! ## Section 3: The verdict -/

section verdict

variable {S : Type} [PythonScalar S]

/-- What code returns that only reads, in this state of the ledger and of the transcript. -/
def observed {α : Type} (outside : Outside S Message) (time : Nat → String)
    (s : MemorySteps Record) (t : TranscriptState S) (x : Env) (code : Code α) :
    Except Raised α :=
  code.run.answered fun o => (perform s (t.reading outside time 0 x) o).1

/-- Whether `dispatch` has a row for `Recover` in a state. -/
def acceptsRecover (runtime : AgentRuntime) (execution : ExecutionContext) (owner : String)
    (options : Options) (state : String) : Bool :=
  (defaultRouter runtime execution owner options).transitions.any fun row =>
    row.applies .recover && !row.rejects (some state)

/-- `state` names the latest attempt: completed if it has closed, interrupted if it has not. In the
    latter case `Recover` is accepted: a row of the router's table applies to it and does not
    reject that state. -/
structure NamesLatest (runtime : AgentRuntime) (execution : ExecutionContext)
    (state : Except Raised String) (latest : RunAttempt) : Prop where
  completed : state = .ok "completed" ↔ latest.closed = true
  interrupted : state = .ok "interrupted" ↔ latest.closed = false
  recoverable : latest.closed = false → ∃ name, state = .ok name ∧
    ∀ owner options, acceptsRecover runtime execution owner options name = true

variable {outside : Outside S Message} {time : Nat → String} {t : TranscriptState S}
  {s : MemorySteps Record} {x : Env} {runtime : AgentRuntime} {execution : ExecutionContext}

/-- The name that `state` reads off a record. -/
def recordName : Option Bool → String
  | none => "fresh"
  | some true => "completed"
  | some false => "interrupted"

/-- Where nothing is parked, `state` reads the run record. -/
theorem observed_state (htranscript : runtime.transcript = true)
    (hunparked : observed outside time s t x (AgentRuntime.active execution) = .ok none) :
    observed outside time s t x (runtime.state execution)
      = .ok (recordName ((t.records.readBranch execution.branchId).map RunRecord.ended)) := by
  unfold observed at hunparked ⊢
  unfold AgentRuntime.state
  rw [ExceptT.run_bind, Prog.answered_bind, hunparked]
  dsimp only
  rw [if_neg (by simp [htranscript])]
  show Prog.answered _ (ExceptT.run (Code.ask (.transcript (.readBranch execution.branchId)) >>=
    fun record => _)) = _
  rw [ExceptT.run_bind, Prog.answered_bind]
  show Prog.answered _ (ExceptT.run (pure _)) = _
  cases (t.records.readBranch execution.branchId).map RunRecord.ended with
  | none => rfl
  | some ended => cases ended <;> rfl

/-- Only an open round can be recovered, where nothing is parked. -/
theorem acceptsRecover_recordName (owner : String) (options : Options) (record : Option Bool) :
    acceptsRecover runtime execution owner options (recordName record)
      = decide (record = some false) := by
  cases record with
  | none => rfl
  | some ended => cases ended <;> rfl

/-- The record names the latest attempt exactly when none has closed or the latest has. -/
theorem namesLatest_iff {attempts : List RunAttempt} {latest : RunAttempt}
    (hlatest : attempts.head? = some latest) :
    NamesLatest runtime execution (.ok (recordName (endOf attempts))) latest ↔
      NoneClosed attempts ∨ LatestClosed attempts := by
  obtain ⟨earlier, rfl⟩ : ∃ earlier, attempts = latest :: earlier := by
    cases attempts with
    | nil => cases hlatest
    | cons a earlier =>
      obtain rfl := Option.some.inj hlatest
      exact ⟨earlier, rfl⟩
  have hname : ∀ ended, (Except.ok (recordName (some ended)) : Except Raised String)
      = .ok "completed" ↔ ended = true := by
    intro ended
    cases ended <;> decide
  have hname' : ∀ ended, (Except.ok (recordName (some ended)) : Except Raised String)
      = .ok "interrupted" ↔ ended = false := by
    intro ended
    cases ended <;> decide
  -- The merged record says `completed` as soon as any attempt has closed.
  have hend : endOf (latest :: earlier) = some ((latest :: earlier).any RunAttempt.closed) := rfl
  have hclosed : LatestClosed (latest :: earlier) ↔ latest.closed = true :=
    ⟨fun ⟨_, hhead, hyes⟩ => Option.some.inj hhead ▸ hyes, fun hyes => ⟨latest, rfl, hyes⟩⟩
  rw [hend, hclosed]
  constructor
  · intro h
    -- It says right when the latest has closed, or none has.
    by_cases hyes : latest.closed = true
    · exact Or.inr hyes
    · refine Or.inl fun a ha => ?_
      have hany := (hname' _).mp (h.interrupted.mpr (Bool.eq_false_of_not_eq_true hyes))
      simpa using List.any_eq_false.mp hany a ha
  · intro h
    have hany : (latest :: earlier).any RunAttempt.closed = latest.closed := by
      rcases h with hnone | hyes
      · rw [hnone latest List.mem_cons_self]
        exact List.any_eq_false.mpr fun a ha => by rw [hnone a ha]; decide
      · rw [hyes]
        exact List.any_eq_true.mpr ⟨latest, List.mem_cons_self, hyes⟩
    rw [hany]
    refine ⟨hname _, hname' _, fun hno => ⟨_, rfl, fun owner options => ?_⟩⟩
    rw [acceptsRecover_recordName, hno]
    rfl

/-- **`state` names the latest attempt**, after every run of any number of workers of a branch, in
    every state where nothing is parked and some attempt has opened, if and only if no attempt has
    closed or the latest has. There is a transcript, and it holds no record under the branch's id
    before the run. Attempts are counted by that id alone, as the record is kept: one on a branch
    of the same id in another conversation would be among them. -/
theorem state_names_latest_iff (outside : Outside S Message) (time : Nat → String)
    (owners : Owners) (execution : ExecutionContext) (runtime : AgentRuntime)
    (htranscript : runtime.transcript = true) (t : TranscriptState S)
    (hfresh : NoRuns execution.branchId t)
    (x : Env) (schedule : List (Action (Worker execution.filedName) Env)) (latest : RunAttempt)
    (hlatest : (attemptsOn execution.branchId (branchLog owners execution schedule)).head?
      = some latest)
    (hunparked : observed outside time (stateAfter (branchLog owners execution schedule))
      (t.after outside time (branchLog owners execution schedule)) x
      (AgentRuntime.active execution) = .ok none) :
    NamesLatest runtime execution
        (observed outside time (stateAfter (branchLog owners execution schedule))
          (t.after outside time (branchLog owners execution schedule)) x
          (runtime.state execution)) latest ↔
      NoneClosed (attemptsOn execution.branchId (branchLog owners execution schedule)) ∨
        LatestClosed (attemptsOn execution.branchId (branchLog owners execution schedule)) := by
  have hrecords := (records_attempts outside time hfresh (branchLog owners execution schedule)).ends
  rw [observed_state htranscript hunparked, hrecords]
  exact namesLatest_iff hlatest

end verdict

/-! One worker's attempt completes; the next one's dies after it has opened. -/

section died_after_completed

/-- A runtime with a transcript. -/
def recordingRuntime : AgentRuntime := { leaseTtl := 60, retryRunning := false, transcript := true }

def diedAfterCompleted : List (Action (Worker mailBranch.filedName) Env) :=
  .begin ⟨recordingRuntime, .run mailOptions { prompt := some "go" }⟩ ::
    works 0 40 (outside 0 (tells "done") .continue) ++
  .begin ⟨recordingRuntime, .run mailOptions { prompt := some "more" }⟩ ::
    works 1 4 (outside 1 (tells "done") .continue) ++ [.crash 1]

/-- What `α`-valued code observes after a schedule, on a transcript that was empty. -/
def observedAfter {α : Type} (schedule : List (Action (Worker mailBranch.filedName) Env))
    (code : Code α) : Except Raised α :=
  observed messageOutside Nat.repr (stateAfter (branchLog ownerNames mailBranch schedule))
    (TranscriptState.after messageOutside Nat.repr ({} : TranscriptState PyScalar)
      (branchLog ownerNames mailBranch schedule))
    (outside 2 (tells "") .continue) code

theorem noRuns_empty (branchId : String) : NoRuns branchId ({} : TranscriptState PyScalar) :=
  ⟨rfl, rfl⟩

/-- The attempt that died is called completed, and cannot be recovered. -/
theorem completed_though_died :
    (attemptsOn "main" (branchLog ownerNames mailBranch diedAfterCompleted)).head?
      = some ⟨1, "main", false⟩ ∧
    observedAfter diedAfterCompleted (AgentRuntime.active mailBranch) = .ok none ∧
    observedAfter diedAfterCompleted (recordingRuntime.state mailBranch) = .ok "completed" ∧
    acceptsRecover recordingRuntime mailBranch "w" mailOptions "completed" = false ∧
    ¬ NamesLatest recordingRuntime mailBranch
      (observedAfter diedAfterCompleted (recordingRuntime.state mailBranch))
      ⟨1, "main", false⟩ := by
  have hattempts : attemptsOn "main" (branchLog ownerNames mailBranch diedAfterCompleted)
      = [⟨1, "main", false⟩, ⟨0, "main", true⟩] := by decide +kernel
  -- Nothing is parked after the run, so the state is what the record says.
  have hunparked :
      observedAfter diedAfterCompleted (AgentRuntime.active mailBranch) = .ok none := by
    decide +kernel
  have hrecord := (records_attempts messageOutside Nat.repr (noRuns_empty "main")
    (branchLog ownerNames mailBranch diedAfterCompleted)).ends
  have hstate : observedAfter diedAfterCompleted (recordingRuntime.state mailBranch)
      = .ok "completed" := by
    refine (observed_state rfl hunparked).trans ?_
    show Except.ok (recordName _) = _
    rw [show mailBranch.branchId = "main" from rfl, hrecord]
    show Except.ok (recordName (endOf (attemptsOn "main" _))) = _
    rw [hattempts]
    rfl
  refine ⟨by rw [hattempts]; rfl, hunparked, hstate, rfl, fun hnames => ?_⟩
  exact absurd (hnames.completed.mp hstate) (by decide)

/-- Two attempts die after they have opened. -/
def diedTwice : List (Action (Worker mailBranch.filedName) Env) :=
  .begin ⟨recordingRuntime, .run mailOptions { prompt := some "go" }⟩ ::
    works 0 4 (outside 0 (tells "done") .continue) ++
  .crash 0 :: .begin ⟨recordingRuntime, .run mailOptions { prompt := some "more" }⟩ ::
    works 1 4 (outside 100 (tells "done") .continue) ++ [.crash 1]

/-- A third one completes. -/
def diedThenCompleted : List (Action (Worker mailBranch.filedName) Env) :=
  diedTwice ++ .begin ⟨recordingRuntime, .run mailOptions { prompt := some "again" }⟩ ::
    works 2 40 (outside 200 (tells "done") .continue)

/-- All three share the record: the second one is named while it is the latest, and the third
    once it has closed. -/
theorem state_names_latest_died :
    NamesLatest recordingRuntime mailBranch
      (observedAfter diedTwice (recordingRuntime.state mailBranch)) ⟨1, "main", false⟩ ∧
    NamesLatest recordingRuntime mailBranch
      (observedAfter diedThenCompleted (recordingRuntime.state mailBranch)) ⟨2, "main", true⟩ := by
  constructor
  · have hattempts : attemptsOn mailBranch.branchId (branchLog ownerNames mailBranch diedTwice)
        = [⟨1, "main", false⟩, ⟨0, "main", false⟩] := by decide +kernel
    refine (state_names_latest_iff messageOutside Nat.repr ownerNames mailBranch recordingRuntime
      rfl {} (noRuns_empty _) (outside 2 (tells "") .continue) diedTwice _
      (by rw [hattempts]; rfl) (by decide +kernel)).mpr (Or.inl ?_)
    rw [hattempts]
    unfold NoneClosed
    decide
  · have hattempts :
        attemptsOn mailBranch.branchId (branchLog ownerNames mailBranch diedThenCompleted)
          = [⟨2, "main", true⟩, ⟨1, "main", false⟩, ⟨0, "main", false⟩] := by decide +kernel
    refine (state_names_latest_iff messageOutside Nat.repr ownerNames mailBranch recordingRuntime
      rfl {} (noRuns_empty _) (outside 2 (tells "") .continue) diedThenCompleted _
      (by rw [hattempts]; rfl) (by decide +kernel)).mpr (Or.inr ?_)
    rw [hattempts]
    exact ⟨_, rfl, rfl⟩

end died_after_completed

end Semora
