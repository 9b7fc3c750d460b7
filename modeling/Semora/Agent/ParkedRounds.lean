import Semora.Agent.Finalizations

/-! # Who Drives a Parked Branch, and How a Refused Round Ends

    A branch on which a round is parked should be driven only to finalize that
    round; and a round in which a person has refused a call should never reach
    the model again. Both hold under conditions that the entry points do not
    ensure: a run looks for a parked round before it takes the lease, and a
    finalization knows only of the refusals among the calls that are parked
    when it begins. -/

namespace Semora

open Pool MemorySteps

/-! ## Section 1: Who drives a parked branch -/

section driven

variable (b : String)

/-- An attempt on a branch with a parked round finalizes this round, and finds every call of it
    answered. -/
def Driven (log : List (Code.Event (Worker b))) : Prop :=
  Always (fun before e => ∀ token start active,
    e.did (.ext (.mark (.agentRun token start))) () → live b (stateAfter before) = some active →
      active.Decided ∧ Resuming b e.tid active before) log

/-- Whoever takes the lease to run or fork finds nothing parked; and no attempt starts under a
    lease that was lost, which is when a higher token has been issued. Both are asked of the
    ledger before the event, not of what the attempt goes on to do. -/
def StartsFree (before : List (Code.Event (Worker b))) (e : Code.Event (Worker b)) : Prop :=
  (TakenToDrive b before e → live b (stateAfter before) = none) ∧
    ∀ token start, e.did (.ext (.mark (.agentRun token start))) () →
      (stateAfter before).issued b ≤ token

variable {b}

/-- Taking the lease leaves the suspension. -/
theorem TakenToDrive.live {before : List (Code.Event (Worker b))} {e : Code.Event (Worker b)}
    (h : TakenToDrive b before e) (hturned : Turned before e) :
    live b e.after = live b (stateAfter before) := by
  obtain ⟨_, owner, ttl, token, _, hdid⟩ := h
  refine hturned.unturned ?_
  rintro (⟨_, _, hother⟩ | ⟨_, _, _, hother⟩ | ⟨_, _, _, hother⟩) <;>
    cases hdid.symm.trans hother

/-- **A parked branch is driven only by its own finalization** in every run in which leases to
    run or fork are taken while nothing is parked, and kept until the attempt starts. The entry
    points ensure neither: `run` looks for a parked round before it takes the lease and does not
    look again under it, and `agent.run` is called without asking whether the lease is still
    held. -/
theorem driven_of_starts_free (owners : Owners) (execution : ExecutionContext)
    (schedule : List (Action (Worker execution.filedName) Env)) :
    Always (StartsFree execution.filedName) (branchLog owners execution schedule) →
      Driven execution.filedName (branchLog owners execution schedule) := by
  intro hfree j e hj token start active hdid hlive
  have hlegit : Always Legit (branchLog owners execution schedule) :=
    (branch_legit owners execution schedule).legit
  have hsaid := (hlegit j e hj).said
  unfold Said at hsaid
  rw [Event.op_of_did hdid] at hsaid
  rcases hsaid.1 with hlost | hnone | ⟨own, hown, hdecided, hresuming⟩ |
    ⟨pre, d, mid, hsplit, htid, htaken, hthen⟩
  · exact absurd hlost (Int.not_lt.mpr ((hfree j e hj).2 token start hdid))
  · rw [hnone] at hlive
    cases hlive
  · obtain rfl : own = active := Option.some.inj (hown.symm.trans hlive)
    exact ⟨hdecided, hresuming⟩
  · -- what is parked was there when the lease was taken
    have hfreeThen := hfree.take j
    have hlegitThen := hlegit.take j
    rw [hsplit] at hfreeThen hlegitThen
    have hturned := hlegitThen.split.turned
    have hfound := hfreeThen.split.1
    rw [htaken.live hturned, hfound htaken, hlive] at hthen
    cases hthen

/-! The log can be read by computation. -/

/-- The token an event starts an attempt under. -/
def starting (e : Code.Event (Worker b)) : Option Int :=
  match e.op with
  | .ext (.mark (.agentRun token _)) => some token
  | _ => none

theorem starting_of_did {e : Code.Event (Worker b)} {token : Int} {start : RunStart}
    (h : e.did (.ext (.mark (.agentRun token start))) ()) : starting e = some token := by
  unfold starting
  rw [Event.op_of_did h]

theorem did_of_starting {e : Code.Event (Worker b)} (h : (starting e).isSome) :
    ∃ token start, e.did (.ext (.mark (.agentRun token start))) () := by
  obtain ⟨tid, call, o, r, s⟩ := e
  unfold starting at h
  dsimp only at h
  split at h
  · next token start => exact ⟨token, start, rfl⟩
  · cases h

/-- The method an event is about to take the lease for. -/
def leasing (e : Code.Event (Worker b)) : Option Method :=
  match e.op with
  | .ext (.mark (.leasing method)) => some method
  | _ => none

/-- An event takes the lease of the branch for a thread that came to run or fork. -/
def takingToDrive (before : List (Code.Event (Worker b))) (e : Code.Event (Worker b)) : Bool :=
  match e.op with
  | .ledger (.acquire ..) => before.any fun d =>
      d.tid = e.tid ∧ (leasing d = some .run ∨ leasing d = some .fork)
  | _ => false

theorem takingToDrive_of_taken {before : List (Code.Event (Worker b))} {e : Code.Event (Worker b)}
    (h : TakenToDrive b before e) : takingToDrive before e = true := by
  obtain ⟨hleasing, owner, ttl, token, _, hdid⟩ := h
  unfold takingToDrive
  rw [Event.op_of_did hdid]
  refine List.any_eq_true.mpr ?_
  rcases hleasing with ⟨d, hd, htid, hmark⟩ | ⟨d, hd, htid, hmark⟩
  · refine ⟨d, hd, ?_⟩
    simp [htid, leasing, Event.op_of_did hmark]
  · refine ⟨d, hd, ?_⟩
    simp [htid, leasing, Event.op_of_did hmark]

/-- The branch is free whenever an event of the log wants it to be. -/
def findsFree (before : List (Code.Event (Worker b))) (e : Code.Event (Worker b)) : Prop :=
  (takingToDrive before e = true → live b (stateAfter before) = none) ∧
    ∀ token ∈ starting e, (stateAfter before).issued b ≤ token

instance (before : List (Code.Event (Worker b))) (e : Code.Event (Worker b)) :
    Decidable (findsFree before e) :=
  inferInstanceAs (Decidable (_ ∧ _))

theorem startsFree_of_findsFree {before : List (Code.Event (Worker b))}
    {e : Code.Event (Worker b)} (h : findsFree before e) : StartsFree b before e :=
  ⟨fun htaken => h.1 (takingToDrive_of_taken htaken),
    fun token _ hdid => h.2 token (starting_of_did hdid)⟩

end driven

/-! A prompt is run on a branch where nothing is parked; before its lease is taken, another
    worker's round parks. -/

section overtaken

/-- The first worker looks and finds nothing parked; the second takes the lease and parks a
    round; the first takes the lease. -/
def parkedMeanwhile : List (Action (Worker mailBranch.filedName) Env) :=
  .begin ⟨mailRuntime, .run mailOptions { prompt := some "first" }⟩ ::
    works 0 1 (outside 0 (tells "hello") .continue) ++
  .begin ⟨mailRuntime, .run mailOptions { prompt := some "second" }⟩ ::
    works 1 20 (outside 1 (asksFor mailTool ["c"]) .continue) ++
  works 0 20 (outside 2 (tells "hello") .continue)

/-- The first worker starts an attempt on a branch whose round waits for an answer. -/
theorem parked_branch_driven :
    ¬ Driven mailBranch.filedName (branchLog ownerNames mailBranch parkedMeanwhile) := by
  intro hdriven
  have hstarts : ((branchLog ownerNames mailBranch parkedMeanwhile)[20]?).any
      (fun e => (starting e).isSome) = true := by
    decide +kernel
  have hwaits : (live mailBranch.filedName
      (stateAfter ((branchLog ownerNames mailBranch parkedMeanwhile).take 20))).any
        (fun active => active.calls.any fun call =>
          (active.answers.get? call.toolCallId).isNone) = true := by
    decide +kernel
  obtain ⟨e, he, hstarting⟩ := (Option.any_eq_true _ _).mp hstarts
  obtain ⟨active, hlive, hopen⟩ := (Option.any_eq_true _ _).mp hwaits
  obtain ⟨token, start, hdid⟩ := did_of_starting hstarting
  obtain ⟨call, hcall, hnone⟩ := List.any_eq_true.mp hopen
  have hanswered := (hdriven 20 e he token start active hdid hlive).1 call hcall
  rw [Option.isNone_iff_eq_none.mp hnone] at hanswered
  cases hanswered

/-- One worker's round parks a call, another's finalizes it. -/
def answeredOnce : List (Action (Worker mailBranch.filedName) Env) :=
  .begin ⟨mailRuntime, .run mailOptions { prompt := some "go" }⟩ ::
    works 0 20 (outside 0 (asksFor mailTool ["c"]) .continue) ++
  .begin ⟨mailRuntime, .resume mailOptions "c" { type := some "approve" }⟩ ::
    works 1 30 (outside 1 (tells "sent") .continue)

theorem driven_of_starts_free_answered :
    Driven mailBranch.filedName (branchLog ownerNames mailBranch answeredOnce) := by
  refine driven_of_starts_free ownerNames mailBranch _ ?_
  have hfree : Always findsFree (branchLog ownerNames mailBranch answeredOnce) := by
    decide +kernel
  exact fun j e hj => startsFree_of_findsFree (hfree j e hj)

end overtaken

/-! ## Section 2: How a refused round ends -/

section refused

variable (b : String)

/-- A finalization of the round in force, as it was parked first or again, had an answer that
    refuses. -/
inductive RefusedRound : List (Code.Event (Worker b)) → Prop where
  /-- It begins with one. -/
  | refused {log : List (Code.Event (Worker b))} {e : Code.Event (Worker b)} {active : Suspension}
      (h : Begins b log e active) (hrefused : active.refused = true) : RefusedRound (log ++ [e])
  /-- The round goes on. -/
  | goesOn {log : List (Code.Event (Worker b))} {e : Code.Event (Worker b)}
      (h : RefusedRound log) (hround : ¬ Replaced b e) : RefusedRound (log ++ [e])
  /-- A call of the round suspends once more: whoever finalizes it parks what is left of it. -/
  | parkedAgain {log : List (Code.Event (Worker b))} {e : Code.Event (Worker b)}
      {active left : Suspension} (h : RefusedRound log) (hresuming : Resuming b e.tid active log)
      (hparked : Parked b left e) (hcalls : left.callIds ⊆ active.callIds) :
      RefusedRound (log ++ [e])

/-- Thread `i` finalizes a refused round. -/
def FinalizesRefused (i : Nat) (log : List (Code.Event (Worker b))) : Prop :=
  ∃ pre d mid active, log = pre ++ d :: mid ∧ d.tid = i ∧ Begins b pre d active ∧
    RefusedRound b (pre ++ [d])

/-- Whoever finalizes a refused round asks the model nothing, and ends aborted. -/
def RefusedRoundsEnd (log : List (Code.Event (Worker b))) : Prop :=
  Always (fun before e => FinalizesRefused b e.tid before →
    (∀ messages, e.op ≠ .ext (.model messages)) ∧
      ∀ reason, e.op = .ext (.mark (.ended reason)) →
        (∀ agent ∈ e.call.request.agent?, agent.Reports) → reason = .aborted) log

/-- When a refused round is finalized again, one of the calls that are parked now is refused. The
    round may have been parked again since it was refused; what is asked is that the refused call,
    or another refused one, was parked with it. -/
def RefusalStays (before : List (Code.Event (Worker b))) (e : Code.Event (Worker b)) : Prop :=
  ∀ active, Begins b before e active → RefusedRound b before → active.refused = true

variable {b}

theorem refusedRound_concat {log : List (Code.Event (Worker b))} {e : Code.Event (Worker b)}
    (h : RefusedRound b (log ++ [e])) :
    (∃ active, Begins b log e active ∧ active.refused = true) ∨ RefusedRound b log := by
  generalize hwhole : log ++ [e] = whole at h
  cases h with
  | refused hbegins hrefused =>
    obtain ⟨rfl, heq⟩ := List.append_inj' hwhole rfl
    obtain rfl := List.singleton_inj.mp heq
    exact Or.inl ⟨_, hbegins, hrefused⟩
  | goesOn hround _ =>
    obtain ⟨rfl, _⟩ := List.append_inj' hwhole rfl
    exact Or.inr hround
  | parkedAgain hround _ _ _ =>
    obtain ⟨rfl, _⟩ := List.append_inj' hwhole rfl
    exact Or.inr hround

/-- One event writes one suspension. -/
theorem Wrote.unique {active other : Suspension} {e : Code.Event (Worker b)}
    (h : Wrote b active e) (h' : Wrote b other e) : active = other :=
  Option.some.inj (((wrote_iff b).mp h).symm.trans ((wrote_iff b).mp h'))

/-- Under the condition, who finalizes a refused round has a refusal among the answers. -/
theorem FinalizesRefused.resuming {i : Nat} {log : List (Code.Event (Worker b))}
    (h : FinalizesRefused b i log) (hstays : Always (RefusalStays b) log) :
    ∃ active, Resuming b i active log ∧ active.refused = true := by
  obtain ⟨pre, d, mid, active, rfl, rfl, hbegins, hround⟩ := h
  refine ⟨active, ⟨pre, d, mid, rfl, rfl, hbegins⟩, ?_⟩
  rcases refusedRound_concat hround with ⟨other, hother, hrefused⟩ | hbefore
  · rw [hbegins.2.unique hother.2]
    exact hrefused
  · exact hstays.split active hbegins hbefore

/-- **A refused round is never handed back to the model** in every run in which a refused round
    that is finalized again has a refusal among the calls that are parked then. `_finalize` reads
    the refusal off the answers of the calls parked at that time, so a round whose refused call is
    finished while another of its calls is suspended once more goes on as if nobody had refused
    (`model_asked_after_refusal`). That the attempt ends aborted rests on the agent as well: one
    that is handed a round's results must report them to the model, or suspend, or raise. -/
theorem refused_rounds_end_of_refusal_stays (owners : Owners) (execution : ExecutionContext)
    (schedule : List (Action (Worker execution.filedName) Env)) :
    Always (RefusalStays execution.filedName) (branchLog owners execution schedule) →
      RefusedRoundsEnd execution.filedName (branchLog owners execution schedule) := by
  intro hstays j e hj hfinalizes
  have hlegit : Always Legit (branchLog owners execution schedule) :=
    (branch_legit owners execution schedule).legit
  obtain ⟨active, hresuming, hrefused⟩ := hfinalizes.resuming (hstays.take j)
  have hsaid := (hlegit j e hj).said
  unfold Said at hsaid
  refine ⟨?_, ?_⟩
  · intro messages hmodel
    rw [hmodel] at hsaid
    rw [hsaid active hresuming] at hrefused
    cases hrefused
  · intro reason hended hreports
    rw [hended] at hsaid
    exact hsaid active hresuming hrefused hreports

/-! The log can be read by computation. -/

/-- The round an accepted `_park` stores. -/
def parkedBy (b : String) (e : Code.Event (Worker b)) : Option Suspension :=
  match e with
  | ⟨_, _, .ledger (.commitTransition b' transition _), .ok _, _⟩ =>
    match transition.controls.get? activeSuspension with
    | some (some (.suspension active)) =>
      if b' = b ∧ transition = AgentRuntime.parkWrites active then some active else none
    | _ => none
  | _ => none

theorem parked_of_parkedBy {active : Suspension} {e : Code.Event (Worker b)}
    (h : parkedBy b e = some active) : Parked b active e := by
  unfold parkedBy at h
  split at h
  · next transition token inserted _ =>
    split at h
    · next found _ =>
      split at h
      · next hpark =>
        obtain ⟨rfl, rfl⟩ := hpark
        cases h
        exact ⟨token, inserted, rfl⟩
      · cases h
    · cases h
  · cases h

/-- The round goes on where nothing replaces it. -/
theorem RefusedRound.later {log : List (Code.Event (Worker b))} {k j : Nat}
    (h : RefusedRound b (log.take k)) (hkj : k ≤ j)
    (hsince : ((log.take j).drop k).all (fun e => !replacing e) = true) :
    RefusedRound b (log.take j) := by
  have hsplit : log.take j = log.take k ++ (log.take j).drop k := by
    conv_lhs => rw [← List.take_append_drop k (log.take j), List.take_take, Nat.min_eq_left hkj]
  rw [hsplit]
  generalize (log.take j).drop k = since at hsince
  induction since using List.reverseRecOn with
  | nil =>
    rw [List.append_nil]
    exact h
  | append_singleton since e ih =>
    rw [List.all_append, Bool.and_eq_true] at hsince
    rw [← List.append_assoc]
    refine .goesOn (ih hsince.1) (not_replaced_of_not_replacing b ?_)
    simpa using hsince.2

/-- The part of a log up to an event, and the event. -/
theorem take_succ_of_getElem? {log : List (Code.Event (Worker b))} {k : Nat}
    {e : Code.Event (Worker b)} (h : log[k]? = some e) : log.take (k + 1) = log.take k ++ [e] := by
  rw [List.take_add_one, h]
  rfl

/-- Whoever begins a finalization has a refusal among the answers. -/
def beginsRefused (b : String) (before : List (Code.Event (Worker b)))
    (e : Code.Event (Worker b)) : Bool :=
  ¬ Finalizing e.tid before ∨ (written b e).all Suspension.refused

theorem refusalStays_of_beginsRefused {before : List (Code.Event (Worker b))}
    {e : Code.Event (Worker b)} (h : beginsRefused b before e = true) :
    RefusalStays b before e := by
  rintro active ⟨hfinalizing, hwrote⟩ _
  unfold beginsRefused at h
  have hall := (of_decide_eq_true h).resolve_left (not_not.mpr hfinalizing)
  rw [(wrote_iff b).mp hwrote] at hall
  exact hall

end refused

/-! One call of a round is refused; the other is approved, and `on_resume` suspends it once
    more. The next finalization knows of no refusal. -/

section suspended_again

/-- A host of the tool's agent that has controls. -/
def gatedOptions : Options := { mailOptions with controls := true }

/-- A round of two calls parks. One answer refuses the first, the next approves the second, which
    suspends again under another pending id; the last one approves it there. -/
def suspendedAgain : List (Action (Worker mailBranch.filedName) Env) :=
  .begin ⟨mailRuntime, .run gatedOptions { prompt := some "go" }⟩ ::
    works 0 30 (outside 0 (asksFor mailTool ["c", "d"]) .continue) ++
  .begin ⟨mailRuntime, .resume gatedOptions "c" refusal⟩ ::
    works 1 10 (outside 1 (tells "sent") .continue) ++
  .begin ⟨mailRuntime, .resume gatedOptions "d" { type := some "approve" }⟩ ::
    works 2 40 (outside 2 (tells "sent") (.suspend { pendingId := some "again" })) ++
  .begin ⟨mailRuntime, .resume gatedOptions "again" { type := some "approve" }⟩ ::
    works 3 60 (outside 3 (tells "sent") .continue)

/-- The log of these workers. -/
def suspendedAgainLog : List (Code.Event (Worker mailBranch.filedName)) :=
  branchLog ownerNames mailBranch suspendedAgain

/-- A thread begins a finalization at this point of the log, of a suspension with these calls. -/
def beginsAt {b : String} (log : List (Code.Event (Worker b))) (k tid : Nat)
    (callIds : List String) (refused : Bool) : Bool :=
  (log[k]?).any fun e =>
    (e.tid = tid ∧ Finalizing e.tid (log.take k)) ∧
      (written b e).any fun active => active.callIds = callIds ∧ active.refused = refused

theorem begins_of_beginsAt {b : String} (log : List (Code.Event (Worker b))) (k tid : Nat)
    (callIds : List String) (refused : Bool) (h : beginsAt log k tid callIds refused = true) :
    ∃ e active, log[k]? = some e ∧ e.tid = tid ∧ Begins b (log.take k) e active ∧
      active.callIds = callIds ∧ active.refused = refused := by
  obtain ⟨e, he, hbegins⟩ := (Option.any_eq_true _ _).mp h
  obtain ⟨⟨htid, hfinalizing⟩, hwrites⟩ := of_decide_eq_true hbegins
  obtain ⟨active, hwrites, hactive⟩ := (Option.any_eq_true _ _).mp hwrites
  exact ⟨e, active, he, htid, ⟨hfinalizing, (wrote_iff _).mpr hwrites⟩,
    of_decide_eq_true hactive⟩

/-- What a thread began is in the log ever after. -/
theorem take_eq_of_getElem? {b : String} {log : List (Code.Event (Worker b))} {k j : Nat}
    {e : Code.Event (Worker b)} (h : log[k]? = some e) (hkj : k < j) :
    log.take j = log.take k ++ e :: (log.take j).drop (k + 1) := by
  conv_lhs => rw [← List.take_append_drop (k + 1) (log.take j), List.take_take,
    Nat.min_eq_left hkj, take_succ_of_getElem? h, List.append_assoc]
  rfl

/-- An event asks the model. -/
def asking {b : String} (e : Code.Event (Worker b)) : Bool :=
  match e.op with
  | .ext (.model _) => true
  | _ => false

theorem model_of_asking {b : String} {e : Code.Event (Worker b)} (h : asking e = true) :
    ∃ messages, e.op = .ext (.model messages) := by
  unfold asking at h
  split at h
  · next messages heq => exact ⟨messages, heq⟩
  · cases h

/-- An event is the end of an attempt. -/
def ending {b : String} (e : Code.Event (Worker b)) : Bool :=
  match e.op with
  | .ext (.mark (.ended _)) => true
  | _ => false

theorem ended_of_ending {b : String} {e : Code.Event (Worker b)} (h : ending e = true) :
    ∃ reason, e.op = .ext (.mark (.ended reason)) := by
  unfold ending at h
  split at h
  · next reason heq => exact ⟨reason, heq⟩
  · cases h

/-- The model is asked about a round a person has refused. -/
theorem model_asked_after_refusal :
    ¬ RefusedRoundsEnd mailBranch.filedName (branchLog ownerNames mailBranch suspendedAgain) := by
  intro hend
  -- the second answer begins the finalization, with the first one's refusal
  obtain ⟨first, active, hfirst, hfirsttid, hbegins, hcalls, hrefused⟩ :=
    begins_of_beginsAt suspendedAgainLog 36 2 ["c", "d"] true (by decide +kernel)
  have hround : RefusedRound mailBranch.filedName (suspendedAgainLog.take 46) := by
    refine RefusedRound.later (k := 37) ?_ (by decide) (by decide +kernel)
    rw [take_succ_of_getElem? hfirst]
    exact .refused hbegins hrefused
  -- its attempt parks the other call again
  have hparks : ((suspendedAgainLog[46]?).any fun e => e.tid = 2 ∧
      (parkedBy mailBranch.filedName e).any fun left => left.callIds = ["d"]) = true := by
    decide +kernel
  obtain ⟨park, hpark, hparks⟩ := (Option.any_eq_true _ _).mp hparks
  obtain ⟨htid, hparks⟩ := of_decide_eq_true hparks
  obtain ⟨left, hparked, hleft⟩ := (Option.any_eq_true _ _).mp hparks
  have hagain : RefusedRound mailBranch.filedName (suspendedAgainLog.take 53) := by
    refine RefusedRound.later (k := 47) ?_ (by decide) (by decide +kernel)
    rw [take_succ_of_getElem? hpark]
    have hresuming : Resuming mailBranch.filedName park.tid active (suspendedAgainLog.take 46) := by
      refine ⟨suspendedAgainLog.take 36, first, (suspendedAgainLog.take 46).drop 37,
        take_eq_of_getElem? hfirst (by decide), by rw [hfirsttid, htid], ?_⟩
      rw [htid, ← hfirsttid]
      exact hbegins
    refine .parkedAgain hround hresuming (parked_of_parkedBy hparked) ?_
    rw [of_decide_eq_true hleft, hcalls]
    simp
  -- the last answer begins a finalization without a refusal
  obtain ⟨last, other, hlast, hlasttid, hbegins', _, _⟩ :=
    begins_of_beginsAt suspendedAgainLog 53 3 ["d"] false (by decide +kernel)
  have hgoeson : ((suspendedAgainLog[53]?).all fun e => !replacing e) = true := by
    decide +kernel
  rw [hlast] at hgoeson
  have hfinalizes : FinalizesRefused mailBranch.filedName 3 (suspendedAgainLog.take 75) := by
    refine ⟨suspendedAgainLog.take 53, last, (suspendedAgainLog.take 75).drop 54, other,
      take_eq_of_getElem? hlast (by decide), hlasttid, hbegins', .goesOn hagain ?_⟩
    exact not_replaced_of_not_replacing _ (by simpa using hgoeson)
  -- and it asks the model
  have hasks : ((suspendedAgainLog[75]?).any fun e => e.tid = 3 ∧ asking e = true) = true := by
    decide +kernel
  obtain ⟨e, he, hasks⟩ := (Option.any_eq_true _ _).mp hasks
  obtain ⟨hetid, hasks⟩ := of_decide_eq_true hasks
  obtain ⟨messages, hmodel⟩ := model_of_asking hasks
  rw [← hetid] at hfinalizes
  exact (hend 75 e he hfinalizes).1 messages hmodel

/-- A round of two calls parks; one answer refuses the first, the next approves the second and
    begins the finalization, which dies when its attempt has started. `recover` finalizes the
    round once more. -/
def refusedTwice : List (Action (Worker mailBranch.filedName) Env) :=
  .begin ⟨mailRuntime, .run gatedOptions { prompt := some "go" }⟩ ::
    works 0 30 (outside 0 (asksFor mailTool ["c", "d"]) .continue) ++
  .begin ⟨mailRuntime, .resume gatedOptions "c" refusal⟩ ::
    works 1 10 (outside 1 (tells "sent") .continue) ++
  .begin ⟨mailRuntime, .resume gatedOptions "d" { type := some "approve" }⟩ ::
    works 2 9 (outside 2 (tells "sent") .continue) ++ .crash 2 ::
  .begin ⟨mailRuntime, .recover gatedOptions []⟩ ::
    works 3 60 (outside 100 (tells "sent") .continue)

/-- The log of these workers. -/
def refusedTwiceLog : List (Code.Event (Worker mailBranch.filedName)) :=
  branchLog ownerNames mailBranch refusedTwice

/-- Every worker of this log drives the agent with the tool, which reports what it is handed. -/
theorem refusedTwice_reports {e : Code.Event (Worker mailBranch.filedName)}
    (he : e ∈ refusedTwiceLog) : ∀ agent ∈ e.call.request.agent?, agent.Reports := by
  have hbegun : ∀ call, Action.begin call ∈ refusedTwice →
      call.request.agent? = some gatedOptions.agent := by
    intro call hcall
    simp only [refusedTwice, works, List.cons_append, List.mem_cons, List.mem_append,
      List.mem_replicate, reduceCtorEq, and_false, false_or, or_false, Action.begin.injEq] at hcall
    obtain rfl | (rfl | rfl) | rfl := hcall <;> rfl
  have hagent : e.call.request.agent? = some gatedOptions.agent :=
    calls_after (fun _ he => by cases he) (fun _ _ hth => by cases hth) hbegun e he
  intro agent hmem
  rw [hagent] at hmem
  obtain rfl := Option.some.inj hmem
  exact toolAgent_reports plainDigest mailTool 4

/-- The second finalization of the refused round ends aborted. -/
theorem refused_rounds_end_of_refusal_stays_twice :
    RefusedRoundsEnd mailBranch.filedName (branchLog ownerNames mailBranch refusedTwice) ∧
      ∃ e, refusedTwiceLog[61]? = some e ∧
        FinalizesRefused mailBranch.filedName e.tid (refusedTwiceLog.take 61) ∧
          e.op = .ext (.mark (.ended .aborted)) := by
  have hstays : Always (fun before e => beginsRefused mailBranch.filedName before e = true)
      refusedTwiceLog := by
    decide +kernel
  have hend := refused_rounds_end_of_refusal_stays ownerNames mailBranch refusedTwice
    fun j e hj => refusalStays_of_beginsRefused (hstays j e hj)
  -- the third worker begins the first finalization, and the fourth the second
  obtain ⟨first, active, hfirst, _, hbegins, _, hrefused⟩ :=
    begins_of_beginsAt refusedTwiceLog 36 2 ["c", "d"] true (by decide +kernel)
  have hround : RefusedRound mailBranch.filedName (refusedTwiceLog.take 44) := by
    refine RefusedRound.later (k := 37) ?_ (by decide) (by decide +kernel)
    rw [take_succ_of_getElem? hfirst]
    exact .refused hbegins hrefused
  obtain ⟨second, again, hsecond, htid, hbegins', _, _⟩ :=
    begins_of_beginsAt refusedTwiceLog 44 3 ["c", "d"] true (by decide +kernel)
  have hgoeson : ((refusedTwiceLog[44]?).all fun e => !replacing e) = true := by
    decide +kernel
  rw [hsecond] at hgoeson
  have hfinalizes : FinalizesRefused mailBranch.filedName 3 (refusedTwiceLog.take 61) := by
    refine ⟨refusedTwiceLog.take 44, second, (refusedTwiceLog.take 61).drop 45, again,
      take_eq_of_getElem? hsecond (by decide), htid, hbegins', .goesOn hround ?_⟩
    exact not_replaced_of_not_replacing _ (by simpa using hgoeson)
  -- it ends, and how is said by the theorem
  have hends : ((refusedTwiceLog[61]?).any fun e => e.tid = 3 ∧ ending e = true) = true := by
    decide +kernel
  obtain ⟨e, he, hends⟩ := (Option.any_eq_true _ _).mp hends
  obtain ⟨hetid, hends⟩ := of_decide_eq_true hends
  obtain ⟨reason, hended⟩ := ended_of_ending hends
  rw [← hetid] at hfinalizes
  have haborted := (hend 61 e he hfinalizes).2 reason hended
    (refusedTwice_reports (List.mem_of_getElem? he))
  rw [haborted] at hended
  exact ⟨hend, e, he, hfinalizes, hended⟩

end suspended_again

end Semora
