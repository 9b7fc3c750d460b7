import Semora.Agent.Answers
import Semora.Agent.ToolAgent

/-! # Finalizations of a Round

    A round can be finalized several times: an attempt crashes and `recover`
    starts another, or an approved call suspends once more and the round is
    parked and finalized again. What the attempts of one round have in common
    is said here over the log, and under which condition they have it. -/

namespace Semora

open Pool MemorySteps

/-! ## Section 1: Beginning a finalization -/

section log

variable (b : String)

/-- Event `e` begins a finalization: thread `e.tid` has entered `_finalize` and writes the
    suspension as `active`. -/
def Begins (before : List (Code.Event (Worker b))) (e : Code.Event (Worker b))
    (active : Suspension) : Prop :=
  Finalizing e.tid before ∧ Wrote b active e

end log

section step

variable {b : String} {before : List (Code.Event (Worker b))} {e : Code.Event (Worker b)}

/-- What begins is the finalization of the decided suspension in force. -/
theorem Turned.begins {written : Suspension} (h : Turned before e)
    (hbegins : Begins b before e written) :
    ∃ active, live b (stateAfter before) = some active ∧ active.Decided ∧
      written = active.resumed ∧ live b e.after = some active.resumed := by
  obtain ⟨hfinalizing, token, hdid⟩ := hbegins
  cases h with
  | same hturns _ => exact absurd (Or.inl ⟨written, token, hdid⟩) hturns
  | answered _ hfresh _ _ _ _ => exact absurd hfinalizing hfresh
  | @begun active _ hdecided hlive hwrote hafter =>
    obtain ⟨token', hdid'⟩ := hwrote
    refine ⟨active, hlive, hdecided, ?_, hafter⟩
    cases hdid.symm.trans hdid'
    rfl
  | completed _ _ hcompleted _ =>
    obtain ⟨_, _, _, hother⟩ := hcompleted
    cases hdid.symm.trans hother
  | parked hparked _ _ _ =>
    obtain ⟨_, _, hother⟩ := hparked
    cases hdid.symm.trans hother

/-- An event that does not turn the suspension leaves it. -/
theorem Turned.unturned (h : Turned before e) (hturns : ¬ Turns b e) :
    live b e.after = live b (stateAfter before) := by
  cases h with
  | same _ hentry => exact live_congr hentry
  | answered _ _ _ _ hwrote _ => exact absurd (Or.inl ⟨_, hwrote⟩) hturns
  | begun _ _ _ hwrote _ => exact absurd (Or.inl ⟨_, hwrote⟩) hturns
  | completed _ _ hcompleted _ => exact absurd (Or.inr (Or.inl hcompleted)) hturns
  | parked hparked _ _ _ => exact absurd (Or.inr (Or.inr ⟨_, hparked⟩)) hturns

end step

/-! ## Section 2: A finalization keeps its mind -/

/-- One call has one approval. -/
theorem approvals_functional {active : Suspension} {callId : String} {a a' : Approval}
    (h : (callId, a) ∈ active.approvals) (h' : (callId, a') ∈ active.approvals) : a = a' := by
  have answered : ∀ {a : Approval}, (callId, a) ∈ active.approvals →
      (active.answers.get? callId).map Answer.approval = some a := by
    intro a hmem
    obtain ⟨call, _, hcall⟩ := List.mem_filterMap.mp hmem
    obtain ⟨answer, hanswer, heq⟩ := Option.map_eq_some_iff.mp hcall
    obtain ⟨rfl, rfl⟩ := Prod.mk.inj heq
    rw [hanswer]
    rfl
  exact Option.some.inj ((answered h).symm.trans (answered h'))

/-- An answer like the one recorded makes the same approvals. -/
theorem approvals_answered {active : Suspension} {callId : String} {answer : Answer}
    (h : (active.answers.get? callId).map Answer.approval = some answer.approval) :
    (active.answered callId answer).approvals = active.approvals := by
  refine List.filterMap_congr fun call _ => ?_
  show ((active.answers.set callId answer).get? call.toolCallId).map _
    = (active.answers.get? call.toolCallId).map _
  by_cases hcall : call.toolCallId = callId
  · obtain ⟨recorded, hrecorded, hsame⟩ := Option.map_eq_some_iff.mp h
    rw [hcall, Dict.get?_set_self, hrecorded]
    simp [hsame]
  · rw [Dict.get?_set_ne _ _ hcall]

section log

variable (b : String)

/-- The finalization of the round in force has begun, with these approvals. -/
inductive FinalizedWith (approvals : List (String × Approval)) :
    List (Code.Event (Worker b)) → Prop where
  | now {log : List (Code.Event (Worker b))} {e : Code.Event (Worker b)} {active : Suspension}
      (h : Begins b log e active) (happrovals : active.approvals = approvals) :
      FinalizedWith approvals (log ++ [e])
  | still {log : List (Code.Event (Worker b))} {e : Code.Event (Worker b)}
      (h : FinalizedWith approvals log) (hround : ¬ Replaced b e) :
      FinalizedWith approvals (log ++ [e])

/-- No finalization decides otherwise than an earlier one of the same round. -/
structure MindKept (log : List (Code.Event (Worker b))) : Prop where
  /-- Whoever finalizes the round again makes the same approvals. -/
  same : Always (fun before e => ∀ approvals active, FinalizedWith b approvals before →
    Begins b before e active → active.approvals = approvals) log
  /-- A call that was approved, and may have run, is not denied later. -/
  unrefused : Always (fun before e => ∀ approvals active callId args message,
    FinalizedWith b approvals before → Begins b before e active →
      (callId, .approved args) ∈ approvals → (callId, .denied message) ∉ active.approvals) log
  /-- The approvals are what the run of the agent is handed. -/
  handed : Always (fun before e => ∀ token start active,
    e.did (.ext (.mark (.agentRun token start))) () → Resuming b e.tid active before →
      start.approvals = some active.approvals) log

/-- An answer that is accepted while the round is being finalized agrees with the one that is
    recorded: both approve with the same arguments, or both deny with the same message. Answers
    that come before the finalization begins, when a person may still think again, are free. -/
def AnswerAgrees (before : List (Code.Event (Worker b))) (e : Code.Event (Worker b)) : Prop :=
  ∀ callId answer active, AnswersCall b before e callId answer →
    live b (stateAfter before) = some active → active.state = .resuming →
      (active.answers.get? callId).map Answer.approval = some answer.approval

end log

section schedules

variable {b : String}

/-- While the round is not replaced, and answered in agreement, it stays as it was finalized. -/
theorem FinalizedWith.live {approvals : List (String × Approval)}
    {log : List (Code.Event (Worker b))} (h : FinalizedWith b approvals log)
    (hlegit : Always Legit log) (hagrees : Always (AnswerAgrees b) log) :
    ∃ active, live b (stateAfter log) = some active ∧ active.state = .resuming ∧
      active.approvals = approvals := by
  -- Induction on the log since the finalization began: while the round is open an event leaves it
  -- alone, adds an answer that agrees, or marks it as resuming.
  induction h with
  | now hbegins happrovals =>
    rw [stateAfter_concat]
    obtain ⟨active, _, _, rfl, hafter⟩ := (always_concat.mp hlegit).2.turned.begins hbegins
    exact ⟨_, hafter, rfl, happrovals⟩
  | @still log e h hround ih =>
    obtain ⟨hbefore, hlast⟩ := always_concat.mp hlegit
    obtain ⟨hagreed, hagree⟩ := always_concat.mp hagrees
    obtain ⟨active, hlive, hstate, happrovals⟩ := ih hbefore hagreed
    rw [stateAfter_concat]
    cases hlast.turned with
    | same hturns hentry =>
      refine ⟨active, ?_, hstate, happrovals⟩
      rw [live_congr hentry]
      exact hlive
    | @answered other pendingId answer call hrequest hfresh hother hcall hwrote hafter =>
      obtain rfl : active = other := Option.some.inj (hlive.symm.trans hother)
      have hsame := hagree call.toolCallId answer active
        ⟨pendingId, active, call, hrequest, hfresh, ⟨_, hwrote⟩, hlive, hcall, rfl⟩ hlive hstate
      exact ⟨_, hafter, hstate, (approvals_answered hsame).trans happrovals⟩
    | @begun other _ _ hother _ hafter =>
      obtain rfl : active = other := Option.some.inj (hlive.symm.trans hother)
      exact ⟨_, hafter, rfl, happrovals⟩
    | completed _ _ hcompleted _ => exact absurd (Or.inl hcompleted) hround
    | parked hparked _ _ _ => exact absurd (Or.inr ⟨_, hparked⟩) hround

/-- **Finalization keeps its mind** in every run in which the answers that are accepted while a
    round is being finalized agree with those recorded. `resume` itself does not see to that: it
    writes the answer over the one recorded, whatever the state of the suspension, so that a
    finalization that crashed may be followed by one that decides otherwise
    (`mind_changed_by_second_answer`). -/
theorem mind_kept_of_answers_agree (owners : Owners) (execution : ExecutionContext)
    (schedule : List (Action (Worker execution.filedName) Env)) :
    Always (AnswerAgrees execution.filedName) (branchLog owners execution schedule) →
      MindKept execution.filedName (branchLog owners execution schedule) := by
  intro hagrees
  have hlegit : Always Legit (branchLog owners execution schedule) :=
    (branch_legit owners execution schedule).legit
  -- While the round is open its approvals are those it was finalized with.
  have hsame : Always (fun before e => ∀ approvals active,
      FinalizedWith execution.filedName approvals before →
        Begins execution.filedName before e active → active.approvals = approvals)
      (branchLog owners execution schedule) := by
    intro j e hj approvals active hfinalized hbegins
    obtain ⟨now, hlive, _, happrovals⟩ := hfinalized.live (hlegit.take j) (hagrees.take j)
    obtain ⟨found, hfound, _, rfl, _⟩ := (hlegit j e hj).turned.begins hbegins
    obtain rfl : now = found := Option.some.inj (hlive.symm.trans hfound)
    exact happrovals
  refine ⟨hsame, ?_, ?_⟩
  · intro j e hj approvals active callId args message hfinalized hbegins happroved hdenied
    rw [← hsame j e hj approvals active hfinalized hbegins] at happroved
    cases approvals_functional happroved hdenied
  · intro j e hj token start active hdid hresuming
    have hsaid := (hlegit j e hj).said
    unfold Said at hsaid
    rw [Event.op_of_did hdid] at hsaid
    exact hsaid.2 active hresuming

end schedules

/-! The log can be read by computation. -/

section computed

variable {b : String}

/-- The approvals of the finalization an event begins. -/
def beginsWith (b : String) (before : List (Code.Event (Worker b))) (e : Code.Event (Worker b)) :
    Option (List (String × Approval)) :=
  if Finalizing e.tid before then (written b e).map Suspension.approvals else none

theorem begins_of_beginsWith {before : List (Code.Event (Worker b))} {e : Code.Event (Worker b)}
    {approvals : List (String × Approval)} (h : beginsWith b before e = some approvals) :
    ∃ active, Begins b before e active ∧ active.approvals = approvals := by
  unfold beginsWith at h
  split at h
  · next hfinalizing =>
    obtain ⟨active, hwritten, happrovals⟩ := Option.map_eq_some_iff.mp h
    exact ⟨active, ⟨hfinalizing, (wrote_iff b).mpr hwritten⟩, happrovals⟩
  · cases h

/-- A finalization that has begun at a point of the log, with no other round since. -/
theorem finalizedWith_of_index {log : List (Code.Event (Worker b))} {j k : Nat}
    {approvals : List (String × Approval)} (hkj : k < j)
    (hbegins : (log[k]?).bind (beginsWith b (log.take k)) = some approvals)
    (hsince : ((log.take j).drop (k + 1)).all (fun e => !replacing e) = true) :
    FinalizedWith b approvals (log.take j) := by
  obtain ⟨d, hd, hwith⟩ := Option.bind_eq_some_iff.mp hbegins
  obtain ⟨active, hactive, happrovals⟩ := begins_of_beginsWith hwith
  have hsplit : log.take j = (log.take k ++ [d]) ++ (log.take j).drop (k + 1) := by
    have hlt : k < log.length := (List.getElem?_eq_some_iff.mp hd).1
    have htake : (log.take j).take (k + 1) = log.take k ++ [d] := by
      rw [List.take_take, Nat.min_eq_left hkj, List.take_add_one, hd]
      rfl
    rw [← htake, List.take_append_drop]
  rw [hsplit]
  -- later events keep the round
  generalize (log.take j).drop (k + 1) = since at hsince
  induction since using List.reverseRecOn with
  | nil =>
    rw [List.append_nil]
    exact .now hactive happrovals
  | append_singleton since e ih =>
    rw [List.all_append, Bool.and_eq_true] at hsince
    rw [← List.append_assoc]
    refine .still (ih hsince.1) (not_replaced_of_not_replacing b ?_)
    simpa using hsince.2

/-- Whether an event is an accepted answer that disagrees with the one recorded. -/
def disagrees (b : String) (before : List (Code.Event (Worker b))) (e : Code.Event (Worker b)) :
    Bool :=
  match e.call.request.answer?, live b (stateAfter before), written b e with
  | some (pendingId, answer), some active, some _ =>
    match active.callFor pendingId with
    | some call => active.state = .resuming ∧ ¬ Finalizing e.tid before ∧
        (active.answers.get? call.toolCallId).map Answer.approval ≠ some answer.approval
    | none => false
  | _, _, _ => false

theorem answerAgrees_of_not_disagrees {before : List (Code.Event (Worker b))}
    {e : Code.Event (Worker b)} (h : disagrees b before e = false) : AnswerAgrees b before e := by
  rintro callId answer active ⟨pendingId, active', call, hrequest, hfresh, ⟨w, hwrote⟩, hlive',
    hcall, rfl⟩ hlive hstate
  obtain rfl : active = active' := Option.some.inj (hlive.symm.trans hlive')
  unfold disagrees at h
  rw [hrequest, hlive, (wrote_iff b).mp hwrote] at h
  dsimp only at h
  rw [hcall] at h
  have hnot : ¬ (active.state = .resuming ∧ ¬ Finalizing e.tid before ∧
      (active.answers.get? call.toolCallId).map Answer.approval ≠ some answer.approval) := by
    simpa using h
  by_contra hne
  exact hnot ⟨hstate, hfresh, hne⟩

end computed

/-! A worker finalizes the round and dies after the call has run; the person answers the call
    again. -/

section answered_again

/-- A tool that needs approval. -/
def mailTool : ToolDefinition := { name := "mail", unapproved := true }

/-- A host of the tool's agent. -/
def mailOptions : Options := { agent := toolAgent plainDigest mailTool 4 }

def mailBranch : ExecutionContext := { branchId := "main" }

def mailRuntime : AgentRuntime := { leaseTtl := 60, retryRunning := false, transcript := false }

/-- Worker `i` takes up to `n` steps. -/
def works (i n : Nat) (env : Env) : List (Action (Worker mailBranch.filedName) Env) :=
  List.replicate n (.run i env)

/-- The first worker's round parks a call; the second finalizes it with an approval and dies
    after the tool has run; the third is given `answer` for the same call. -/
def answeredAgain (answer : Answer) : List (Action (Worker mailBranch.filedName) Env) :=
  .begin ⟨mailRuntime, .run mailOptions { prompt := some "go" }⟩ ::
    works 0 20 (outside 0 (asksFor mailTool ["c"]) .continue) ++
  .begin ⟨mailRuntime, .resume mailOptions "c" { type := some "approve" }⟩ ::
    works 1 17 (outside 1 (tells "sent") .continue) ++ .crash 1 ::
  .begin ⟨mailRuntime, .resume mailOptions "c" answer⟩ ::
    works 2 30 (outside 100 (tells "sent") .continue)

/-- The answer that refuses. -/
def refusal : Answer := { type := some "error", message := some "no" }

/-- The call that has run is refused by the second finalization. -/
theorem mind_changed_by_second_answer :
    ¬ MindKept mailBranch.filedName
      (branchLog ownerNames mailBranch (answeredAgain refusal)) := by
  intro hkept
  have hfirst : FinalizedWith mailBranch.filedName [("c", .approved none)]
      ((branchLog ownerNames mailBranch (answeredAgain refusal)).take 39) :=
    finalizedWith_of_index (k := 22) (by decide) (by decide +kernel) (by decide +kernel)
  have hsecond : ((branchLog ownerNames mailBranch (answeredAgain refusal))[39]?).bind
      (beginsWith mailBranch.filedName
        ((branchLog ownerNames mailBranch (answeredAgain refusal)).take 39))
      = some [("c", .denied "no")] := by decide +kernel
  obtain ⟨e, he, hwith⟩ := Option.bind_eq_some_iff.mp hsecond
  obtain ⟨active, hbegins, happrovals⟩ := begins_of_beginsWith hwith
  have hsame := hkept.same 39 e he _ active hfirst hbegins
  rw [happrovals] at hsame
  exact absurd hsame (by decide)

/-- With the same answer again it keeps its mind. -/
theorem mind_kept_of_answers_agree_repeated :
    MindKept mailBranch.filedName
      (branchLog ownerNames mailBranch (answeredAgain { type := some "approve" })) := by
  refine mind_kept_of_answers_agree ownerNames mailBranch _ ?_
  have hagree : Always (fun before e => disagrees mailBranch.filedName before e = false)
      (branchLog ownerNames mailBranch (answeredAgain { type := some "approve" })) := by
    decide +kernel
  exact fun j e hj => answerAgrees_of_not_disagrees (hagree j e hj)

end answered_again

end Semora
