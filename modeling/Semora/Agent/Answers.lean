import Semora.Agent.BranchRuns

/-! # Answers Are Kept

    A `resume` reads the suspension, adds its answer and writes it back; any
    number of them, with recoveries and finalizations, may be at it at once.
    What is accepted stays: until the round is parked anew or completed, or
    the same call is answered again. -/

namespace Semora

open Pool MemorySteps

/-! ## Section 1: Accepted answers -/

section log

variable (b : String)

/-- The round is parked anew, or completed. -/
def Replaced {C : Type} (e : Code.Event C) : Prop := Completed b e ∨ ∃ active, Parked b active e

/-- An event that may replace the round: a park, or the write of the completed marker. -/
def replacing {C : Type} (e : Code.Event C) : Bool :=
  match e.op with
  | .ledger (.commitTransition ..) => true
  | .ledger (.writeControl _ _ (some (.completed ..)) _) => true
  | _ => false

theorem not_replaced_of_not_replacing {C : Type} {e : Code.Event C} (h : replacing e = false) :
    ¬ Replaced b e := by
  unfold replacing at h
  rintro (⟨_, _, _, hdid⟩ | ⟨_, _, _, hdid⟩)
  · rw [Event.op_of_did hdid] at h
    cases h
  · rw [Event.op_of_did hdid] at h
    cases h

/-- Event `e` is an accepted `resume`: its answer is written for the call `callId`, which is
    parked under the pending id it was asked about. -/
def AnswersCall (before : List (Code.Event (Worker b))) (e : Code.Event (Worker b))
    (callId : String) (answer : Answer) : Prop :=
  ∃ pendingId active call, e.call.request.answer? = some (pendingId, answer) ∧
    ¬ Finalizing e.tid before ∧ (∃ written, Wrote b written e) ∧
    live b (stateAfter before) = some active ∧ active.callFor pendingId = some call ∧
    call.toolCallId = callId

/-- `answer` was accepted for the call `callId`; since then the round was not replaced, and
    nobody has answered the call again. -/
inductive Accepted (callId : String) (answer : Answer) : List (Code.Event (Worker b)) → Prop where
  | now {log : List (Code.Event (Worker b))} {e : Code.Event (Worker b)}
      (h : AnswersCall b log e callId answer) : Accepted callId answer (log ++ [e])
  | still {log : List (Code.Event (Worker b))} {e : Code.Event (Worker b)}
      (h : Accepted callId answer log) (hround : ¬ Replaced b e)
      (hcall : ∀ other, ¬ AnswersCall b log e callId other) : Accepted callId answer (log ++ [e])

/-- What the log of a branch says about answers. An answer counts as accepted from the write that
    records it for its call until the round is replaced, or the call is answered once more. -/
structure AnswersKept (log : List (Code.Event (Worker b))) : Prop where
  /-- A suspension is written before `_finalize` only to answer a parked call. -/
  routed : Always (fun before e => ∀ written, Wrote b written e → ¬ Finalizing e.tid before →
    ∃ callId answer, AnswersCall b before e callId answer) log
  /-- An accepted answer stays recorded. -/
  kept : ∀ callId answer, Accepted b callId answer log →
    ∃ active, live b (stateAfter log) = some active ∧
      active.answers.get? callId = some answer
  /-- `_finalize` is entered with an answer recorded for every parked call. -/
  decided : Always (fun before e => ∀ found answers,
    e.did (.ext (.mark (.finalizing found answers))) () →
      ({ found with answers := answers } : Suspension).Decided ∧
        ∃ d ∈ before, live b d.after = some { found with answers := answers }) log

end log

/-! ## Section 2: What one event does to them -/

section step

variable {b : String} {before : List (Code.Event (Worker b))} {e : Code.Event (Worker b)}

/-- Whoever writes the suspension without having entered `_finalize` answers. -/
theorem Turned.answers {written : Suspension} (h : Turned before e) (hwrote : Wrote b written e)
    (hfresh : ¬ Finalizing e.tid before) :
    ∃ active pendingId answer call, e.call.request.answer? = some (pendingId, answer) ∧
      live b (stateAfter before) = some active ∧ active.callFor pendingId = some call ∧
      live b e.after = some (active.answered call.toolCallId answer) := by
  obtain ⟨token, hdid⟩ := hwrote
  cases h with
  | same hturns _ => exact absurd (Or.inl ⟨written, token, hdid⟩) hturns
  | answered hrequest _ hlive hcall _ hafter => exact ⟨_, _, _, _, hrequest, hlive, hcall, hafter⟩
  | begun hentered _ _ _ _ => exact absurd ⟨_, hentered⟩ hfresh
  | completed _ _ hcompleted _ =>
    obtain ⟨_, _, _, hother⟩ := hcompleted
    cases hdid.symm.trans hother
  | parked hparked _ _ _ =>
    obtain ⟨_, _, hother⟩ := hparked
    cases hdid.symm.trans hother

/-- An accepted answer is recorded by the event that accepts it. -/
theorem AnswersCall.recorded {callId : String} {answer : Answer}
    (h : AnswersCall b before e callId answer)
    (hturned : Turned before e) :
    ∃ active, live b e.after = some active ∧ active.answers.get? callId = some answer := by
  obtain ⟨pendingId, active, call, hrequest, hfresh, ⟨written, hwrote⟩, hlive, hcall, rfl⟩ := h
  obtain ⟨active', pendingId', answer', call', hrequest', hlive', hcall', hafter⟩ :=
    hturned.answers hwrote hfresh
  obtain rfl : active = active' := Option.some.inj (hlive.symm.trans hlive')
  obtain ⟨rfl, rfl⟩ : pendingId = pendingId' ∧ answer = answer' := by
    simpa using Option.some.inj (hrequest.symm.trans hrequest')
  obtain rfl : call = call' := Option.some.inj (hcall.symm.trans hcall')
  exact ⟨_, hafter, Dict.get?_set_self ..⟩

/-- Every other event that does not replace the round keeps it. -/
theorem Turned.keeps {callId : String} {answer : Answer} {active : Suspension}
    (h : Turned before e) (hlive : live b (stateAfter before) = some active)
    (hanswer : active.answers.get? callId = some answer) (hround : ¬ Replaced b e)
    (hcall : ∀ other, ¬ AnswersCall b before e callId other) :
    ∃ active', live b e.after = some active' ∧ active'.answers.get? callId = some answer := by
  cases h with
  | same _ hentry =>
    refine ⟨active, ?_, hanswer⟩
    rw [live_congr hentry]
    exact hlive
  | @answered active' pendingId answer' call hrequest hfresh hlive' hcallFor hwrote hafter =>
    obtain rfl : active = active' := Option.some.inj (hlive.symm.trans hlive')
    refine ⟨_, hafter, ?_⟩
    -- another call was answered
    have hne : callId ≠ call.toolCallId := by
      intro heq
      exact hcall answer' ⟨pendingId, active, call, hrequest, hfresh, ⟨_, hwrote⟩, hlive, hcallFor,
        heq.symm⟩
    have hother : (active.answers.set call.toolCallId answer').get? callId
        = active.answers.get? callId := Dict.get?_set_ne _ _ hne
    exact hother.trans hanswer
  | @begun active' _ _ hlive' _ hafter =>
    obtain rfl : active = active' := Option.some.inj (hlive.symm.trans hlive')
    exact ⟨active.resumed, hafter, hanswer⟩
  | completed _ _ hcompleted _ => exact absurd (Or.inl hcompleted) hround
  | parked hparked _ _ _ => exact absurd (Or.inr ⟨_, hparked⟩) hround

end step

/-! ## Section 3: Every schedule -/

section schedules

variable {b : String}

/-- An accepted answer stays recorded in every log whose events are legitimate. -/
theorem Accepted.recorded {callId : String} {answer : Answer} {log : List (Code.Event (Worker b))}
    (h : Accepted b callId answer log) (hlegit : Always Legit log) :
    ∃ active, live b (stateAfter log) = some active ∧
      active.answers.get? callId = some answer := by
  induction h with
  | now h =>
    rw [stateAfter_concat]
    exact h.recorded (always_concat.mp hlegit).2.turned
  | still h hround hcall ih =>
    obtain ⟨hbefore, hlast⟩ := always_concat.mp hlegit
    obtain ⟨active, hlive, hanswer⟩ := ih hbefore
    rw [stateAfter_concat]
    exact hlast.turned.keeps hlive hanswer hround hcall

/-- **No accepted answer is lost and no partial batch is finalized**: under every schedule of any
    number of workers of the branch, with crashes anywhere. No hypothesis is needed: an answer is
    written under the lease, beside those that were found recorded, and whoever takes the lease
    over is handed the suspension that the last writer left. -/
theorem accepted_answers_kept (owners : Owners) (execution : ExecutionContext)
    (schedule : List (Action (Worker execution.filedName) Env)) :
    AnswersKept execution.filedName (branchLog owners execution schedule) := by
  have hlegit : Always Legit (branchLog owners execution schedule) :=
    (branch_legit owners execution schedule).legit
  refine ⟨?_, ?_, ?_⟩
  · intro j e hj written hwrote hfresh
    obtain ⟨active, pendingId, answer, call, hrequest, hlive, hcall, _⟩ :=
      (hlegit j e hj).turned.answers hwrote hfresh
    exact ⟨_, answer, pendingId, active, call, hrequest, hfresh, ⟨written, hwrote⟩, hlive, hcall,
      rfl⟩
  · intro callId answer haccepted
    exact haccepted.recorded hlegit
  · intro j e hj found answers hdid
    have hsaid := (hlegit j e hj).said
    unfold Said at hsaid
    rw [Event.op_of_did hdid] at hsaid
    exact hsaid

end schedules

end Semora
