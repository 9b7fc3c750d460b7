import Semora.Agent.BranchAttempt

/-! # Finishing a Parked Round Under the Branch's Contract

    `_finalize`, and the two ways to it: `resume` with the answer that was
    missing, and `recover`. Each write of the suspension is made on the one
    the thread has read under the lease. -/

namespace Semora

open Pool MemorySteps

section methods

variable {owners : Owners} {execution : ExecutionContext} {i : Nat}
  {worker : Worker execution.filedName} {ρ : Worker execution.filedName → Type}
  {body : Nat → (w : Worker execution.filedName) → Prog Op Op.Reply (ρ w)}
  {P : Code.History (Worker execution.filedName) → Prop}

/-! ## Section 1: Writing the suspension -/

/-- A write of the suspension under the lease: refused, or made on the suspension the thread
    knows. -/
theorem write_works {token : Int} {cur new : Option Suspension} {value : Record}
    {R : Code.History (Worker execution.filedName) → Prop} (hP : Lasting owners i P)
    (hlease : ∀ h, P h → OnLease owners i token (· = cur) h)
    (hvalue : ∀ version, suspensionOf { status := .done, value := some value, version := version }
      = new)
    (hconversation : ∀ active, new = some active →
      active.conversationId = execution.conversation)
    (hturned : ∀ h s, P h → live execution.filedName (stateAfter h.log) = cur →
      live execution.filedName s = new →
      Turned h.log ⟨i, worker, .ledger (.writeControl execution.filedName activeSuspension
        (some value) token), (.ok () : Except StoreError Unit), s⟩)
    (hR : Lasting owners i R)
    (hafter : ∀ h s, P h → live execution.filedName s = new →
      R (Code.next h i worker (.ledger (.writeControl execution.filedName activeSuspension
        (some value) token)) (.ok () : Except StoreError Unit) s)) :
    Works body owners i worker P
      (execution.store.writeControl execution.branchId activeSuspension (some value) token)
      (fun _ h => R h ∧ OnLease owners i token (· = new) h) fun _ _ => True := by
  apply Code.Triple.ledger hP.stable
  · intro h env r s hinv hpre _ hperform
    have hown := hlease h hpre
    -- A stale token is refused, which moves nothing; a fresh one means the thread still knows what
    -- is live.
    rcases writeControl_cases h.now execution.filedName activeSuspension (some value) token with
      ⟨_, _, heq⟩ | ⟨hfresh, heq⟩
    · obtain ⟨rfl, rfl⟩ := Prod.mk.inj (heq.symm.trans hperform)
      exact ⟨refused_event hinv, trivial⟩
    · obtain ⟨rfl, hs⟩ := Prod.mk.inj (heq.symm.trans hperform)
      obtain ⟨hholds, hcur⟩ := hown.known hfresh
      have hnew : live execution.filedName s = new := by
        rw [← hs, live_setEntry]
        exact hvalue _
      rw [hinv.now] at hcur
      have hevent := accepted_event hinv rfl hholds hown.1 hperform
        ⟨hturned h s hpre hcur hnew, trivial⟩ (by
          intro active hactive
          exact hconversation active (hnew.symm.trans hactive))
      exact ⟨hevent.1, hafter h s hpre hnew, hown.1, Or.inr ⟨hevent.2, hnew⟩⟩
  · exact fun _ => (hR.and (lasting_onLease token _)).stable
  · exact fun _ => stable_const

/-- An attempt of a finalization runs on the branch it was parked on. -/
theorem executionContext_rejoined {active : Suspension}
    (h : active.conversationId = execution.conversation) :
    executionContext execution (if active.conversationId = execution.branchId then none
      else some active.conversationId) = execution := by
  obtain ⟨branchId, conversationId, hnonempty⟩ := execution
  cases conversationId with
  | none =>
    have hbranch : active.conversationId = branchId := h
    rw [if_pos hbranch]
    rfl
  | some conversationId => rfl

/-- What a thread knows that enters `_finalize`. -/
structure Finalizable (owners : Owners) (i : Nat) (token : Int) (active : Suspension)
    (h : Code.History (Worker execution.filedName)) : Prop where
  unentered : Unentered i h
  lease : OnLease owners i token (· = some active) h
  recorded : Recorded active h

theorem lasting_finalizable (token : Int) (active : Suspension) :
    Lasting owners i fun h : Code.History (Worker execution.filedName) =>
      Finalizable owners i token active h := by
  intro h h' hknown hmove
  exact ⟨lasting_unentered h h' hknown.unentered hmove,
    lasting_onLease token _ h h' hknown.lease hmove,
    lasting_recorded active h h' hknown.recorded hmove⟩

/-- Entering `_finalize`. -/
theorem finalizing_works {token : Int} {active : Suspension} {answers : Dict String Answer}
    (hdecided : ({ active with answers := answers } : Suspension).Decided) :
    Works body owners i worker
      (Finalizable owners i token { active with answers := answers })
      (Code.mark (.finalizing active answers))
      (fun _ h => (Unbegun i h ∧ Entered i { active with answers := answers } h.log) ∧
        OnLease owners i token (· = some { active with answers := answers }) h)
      fun _ _ => True := by
  apply Code.Triple.mark (lasting_finalizable token _).stable
  · intro h env hinv hknown _
    -- The mark turns no suspension: it only records that the finalization was entered.
    have hturns : ¬ Turns execution.filedName
      (⟨i, worker, .ext (.mark (.finalizing active answers)),
        (), h.now⟩ : Code.Event (Worker execution.filedName)) := by
      rintro (⟨_, _, hdid⟩ | ⟨_, _, _, hdid⟩ | ⟨_, _, _, hdid⟩) <;> cases hdid
    have hguar : BranchGuar owners execution.filedName execution.conversation i worker h
        (.ext (.mark (.finalizing active answers))) ()
        (Code.next h i worker (.ext (.mark (.finalizing active answers))) () h.now) :=
      same_event hinv hinv.leases hturns rfl ⟨hdecided, hknown.recorded⟩
        fun _ _ => LeaseRely.refl ..
    refine ⟨hguar, ⟨?_, ?_⟩, hknown.lease⟩
    · intro other hbegun
      refine hknown.unentered.unbegun other (hbegun.of_append ?_)
      intro e he
      obtain rfl := List.mem_singleton.mp he
      exact Or.inr hturns
    · exact ⟨_, List.mem_append_right _ List.mem_cons_self, rfl, active, answers, rfl, rfl⟩
  · exact ((lasting_unbegun.and (lasting_entered _)).and (lasting_onLease token _)).stable

/-- Beginning the finalization. -/
theorem begin_works {token : Int} {active : Suspension} (hdecided : active.Decided)
    (hconversation : active.conversationId = execution.conversation) :
    Works body owners i worker
      (fun h => (Unbegun i h ∧ Entered i active h.log) ∧
        OnLease owners i token (· = some active) h)
      (execution.store.writeControl execution.branchId activeSuspension
        (some (.suspension active.resumed)) token)
      (fun _ h => Finishes i active.resumed h ∧ OnLease owners i token (· = some active.resumed) h)
      fun _ _ => True := by
  have hbefore : Lasting owners i fun h : Code.History (Worker execution.filedName) =>
      (Unbegun i h ∧ Entered i active h.log) ∧ OnLease owners i token (· = some active) h :=
    (lasting_unbegun.and (lasting_entered _)).and (lasting_onLease token _)
  -- Marking the suspension as resuming turns it, as its own entry allows.
  refine write_works hbefore (fun _ h => h.2) (fun _ => rfl) ?_ ?_ (lasting_finishes _) ?_
  · intro other hother
    obtain rfl := Option.some.inj hother
    exact hconversation
  · intro h s hpre hlive hnew
    exact .begun hpre.1.2 hdecided hlive ⟨token, rfl⟩ hnew
  · intro h s ⟨⟨hunbegun, hentered⟩, _⟩ hnew
    refine ⟨resuming_concat.mpr (Or.inr ⟨rfl, ⟨active, hentered⟩, token, rfl⟩), ?_⟩
    -- whatever the thread has begun, it has begun with this write
    intro other hother
    rcases resuming_concat.mp hother with hearlier | ⟨_, _, token', hdid⟩
    · exact absurd hearlier (hunbegun other)
    · cases hdid
      rfl

/-- Once it has begun, what a finalization hands to its attempt is the suspension's. -/
theorem driving_finish {token : Int} {active : Suspension} {answers : Dict String Answer}
    {parked : List (ToolCall × SuspendRequest)} {approvals : List (String × Approval)}
    {cancelled : Bool} {args : AttemptArgs} (hdecided : active.Decided)
    (hanswers : active.answers = answers) (hcalls : parked.map Prod.fst = active.calls)
    (happrovals : approvalsOf answers parked = .ok (approvals, cancelled))
    (hresults : args.deferredToolResults = some approvals)
    (hcancelled : args.cancelled = cancelled) :
    Driving owners i token args fun h : Code.History (Worker execution.filedName) =>
      Finishes i active.resumed h ∧ OnLease owners i token (· = some active.resumed) h where
  lasting := (lasting_finishes _).and (lasting_onLease token _)
  leased _ hpre := hpre.2.mono fun _ _ => trivial
  starts h hinv hpre := by
    obtain ⟨⟨hbegun, _⟩, _, hlease⟩ := hpre
    rw [hinv.now] at hlease
    rcases hlease with hlost | ⟨_, hlive⟩
    · exact Or.inl hlost
    · exact Or.inr (Or.inr (Or.inl ⟨active.resumed, hlive, hdecided, hbegun⟩))
  begun h hpre other hother := by
    obtain rfl := hpre.1.2 other hother
    obtain ⟨hmade, hrefused⟩ := approvalsOf_ok happrovals
    subst hanswers
    rw [hcalls] at hmade hrefused
    exact ⟨hresults.trans (congrArg some hmade), hcancelled.trans hrefused⟩

/-- `_finalize`, of a suspension all of whose calls are answered. -/
theorem finalize_works {runtime : AgentRuntime} {token : Int} {options : Options}
    {active : Suspension} {answers : Dict String Answer}
    {parked : List (ToolCall × SuspendRequest)}
    (hagent : worker.request.agent? = some options.agent)
    (hdecided : ({ active with answers := answers } : Suspension).Decided)
    (hparked : decodeParked active = .ok parked)
    (hconversation : active.conversationId = execution.conversation) :
    Works body owners i worker
      (Finalizable owners i token { active with answers := answers })
      (runtime.finalize execution token options active answers parked)
      (fun _ _ => True) fun _ _ => True := by
  have hcalls := decodeParked_calls hparked
  -- The order of the source: entered, answers made into approvals, marked resuming, attempted,
  -- completed.
  refine Code.Triple.bind (fun _ => stable_const) (finalizing_works hdecided) fun _ => ?_
  have hbefore : Lasting owners i fun h : Code.History (Worker execution.filedName) =>
      (Unbegun i h ∧ Entered i { active with answers := answers } h.log) ∧
        OnLease owners i token (· = some { active with answers := answers }) h :=
    (lasting_unbegun.and (lasting_entered _)).and (lasting_onLease token _)
  refine Code.Triple.bind (fun _ => stable_const)
    (Code.Triple.ofExcept (Q := fun r h => approvalsOf answers parked = .ok r ∧
      (Unbegun i h ∧ Entered i { active with answers := answers } h.log) ∧
        OnLease owners i token (· = some { active with answers := answers }) h)
      hbefore.stable (fun _ hr _ _ h => ⟨hr, h⟩) fun _ _ _ _ _ => trivial) fun r => ?_
  obtain ⟨approvals, cancelled⟩ := r
  refine Code.Triple.known (fun _ h => h.1) fun happrovals => ?_
  refine Code.Triple.pre ?_ fun _ _ h => h.2
  refine Code.Triple.bind (fun _ => stable_const) (begin_works hdecided hconversation) fun _ => ?_
  -- The attempt is on the conversation the round was parked in, which is the branch's own.
  rw [executionContext_rejoined hconversation]
  have hlasting : Lasting owners i fun h : Code.History (Worker execution.filedName) =>
      Finishes i ({ active with answers := answers } : Suspension).resumed h ∧
        OnLease owners i token
          (· = some ({ active with answers := answers } : Suspension).resumed) h :=
    (lasting_finishes _).and (lasting_onLease token _)
  refine Code.Triple.bind (fun _ => stable_const)
    (Code.Triple.ofExcept hlasting.stable (fun _ _ _ _ h => h) fun _ _ _ _ _ => trivial)
    fun requests => ?_
  refine Code.Triple.bind (fun _ => stable_const)
    (attempt_works hagent (driving_finish hdecided rfl hcalls happrovals rfl rfl))
    fun outcome => ?_
  -- the attempt is over: the suspension is marked completed
  have hcompleted : Works body owners i worker _
      (execution.store.writeControl execution.branchId activeSuspension
        (some (.completed active.callId active.callIds)) token)
      (fun _ h => True ∧ OnLease owners i token (· = none) h) fun _ _ => True :=
    write_works hlasting (fun _ h => h.2) (fun _ => rfl) nofun (by
      intro h s hpre hlive hnew
      exact .completed hpre.1.1 hlive ⟨_, _, token, rfl⟩ hnew)
    lasting_const fun _ _ _ _ => trivial
  refine Code.Triple.bind (fun _ => stable_const) hcompleted fun _ => ?_
  exact Code.Triple.pure (lasting_const.and (lasting_onLease token _)).stable
    fun _ _ _ => trivial

/-! ## Section 2: Answers and recovery -/

theorem Unentered.ledger {h : Code.History (Worker execution.filedName)} {op : LedgerOp Record}
    {r : Except StoreError op.Reply} {s : MemorySteps Record} (hunentered : Unentered i h) :
    Unentered i (Code.next h i worker (.ledger op) r s) := by
  rintro ⟨active, d, hd, htid, found, answers, hactive, hdid⟩
  rcases List.mem_append.mp hd with hd | hd
  · exact hunentered ⟨active, d, hd, htid, found, answers, hactive, hdid⟩
  · obtain rfl := List.mem_singleton.mp hd
    cases hdid

/-- The write of an answer. -/
theorem answer_works {token : Int} {active : Suspension} {pendingId : String} {answer : Answer}
    {call : ToolCall} (hrequest : worker.request.answer? = some (pendingId, answer))
    (hcall : active.callFor pendingId = some call)
    (hconversation : active.conversationId = execution.conversation) :
    Works body owners i worker
      (fun h => Unentered i h ∧ OnLease owners i token (· = some active) h)
      (execution.store.writeControl execution.branchId activeSuspension
        (some (.suspension (active.answered call.toolCallId answer))) token)
      (fun _ => Finalizable owners i token (active.answered call.toolCallId answer))
      fun _ _ => True := by
  have hbefore : Lasting owners i fun h : Code.History (Worker execution.filedName) =>
      Unentered i h ∧ OnLease owners i token (· = some active) h :=
    lasting_unentered.and (lasting_onLease token _)
  -- The write adds the answer to the suspension that is live, under the call the id names.
  have hwrite : Works body owners i worker
      (fun h => Unentered i h ∧ OnLease owners i token (· = some active) h)
      (execution.store.writeControl execution.branchId activeSuspension
        (some (.suspension (active.answered call.toolCallId answer))) token)
      (fun _ h => (Unentered i h ∧ Recorded (active.answered call.toolCallId answer) h) ∧
        OnLease owners i token (· = some (active.answered call.toolCallId answer)) h)
      fun _ _ => True := write_works hbefore (fun _ h => h.2) (fun _ => rfl)
    (by
      intro other hother
      obtain rfl := Option.some.inj hother
      exact hconversation)
    (by
      intro h s hpre hlive hnew
      exact .answered hrequest hpre.1 hlive hcall ⟨token, rfl⟩ hnew)
    (lasting_unentered.and (lasting_recorded _))
    (fun h s hpre hnew => ⟨hpre.1.ledger, Recorded.of_now hnew⟩)
  exact hwrite.mono (fun _ _ h => h) (fun _ _ _ h => ⟨h.1.1, h.2, h.1.2⟩) fun _ _ _ h => h

/-- What `_active` finds under the lease, when the thread has not finalized. -/
theorem found_works (token : Int) :
    Works body owners i worker
      (fun h => Unentered i h ∧ OnLease owners i token (fun _ => True) h)
      (AgentRuntime.active execution)
      (fun found h => (∀ active, found = some active →
          active.conversationId = execution.conversation) ∧
        match found with
        | some active => Finalizable owners i token active h
        | none => Unentered i h ∧ OnLease owners i token (· = none) h)
      fun _ _ => True := by
  have hlasting : Lasting owners i (Unentered (b := execution.filedName) i) := lasting_unentered
  refine (active_works hlasting).mono (fun _ _ h => h) ?_ fun _ _ _ _ => trivial
  intro found h _ ⟨hunentered, hlease, hknown⟩
  refine ⟨fun active hfound => (hknown active hfound).1, ?_⟩
  cases found with
  | none => exact ⟨hunentered, hlease⟩
  | some active => exact ⟨hunentered, hlease, (hknown active rfl).2⟩

/-- The body of `resume`. -/
theorem answerUnderLease_works {runtime : AgentRuntime} {token : Int} {options : Options}
    {pendingId : String} {answer : Answer}
    (hagent : worker.request.agent? = some options.agent)
    (hrequest : worker.request.answer? = some (pendingId, answer)) :
    Works body owners i worker (Granted owners i .resume token)
      (runtime.answerUnderLease execution options pendingId answer token)
      (fun _ _ => True) fun _ _ => True := by
  refine Code.Triple.bind (fun _ => stable_const) ((found_works token).pre ?_) fun found => ?_
  · intro h _ ⟨hunentered, cur, hlease, _⟩
    exact ⟨hunentered, hlease.mono fun _ _ => trivial⟩
  refine Code.Triple.known (fun _ h => h.1) fun hconversation => ?_
  refine Code.Triple.pre ?_ fun _ _ h => h.2
  cases found with
  -- Nothing is parked: there is nothing to answer.
  | none =>
    exact Code.Triple.throw (lasting_unentered.and (lasting_onLease token _)).stable
      fun _ _ _ => trivial
  | some active =>
    have hlasting : Lasting owners i fun h : Code.History (Worker execution.filedName) =>
        Finalizable owners i token active h := lasting_finalizable token active
    have hcomputed : ∀ {β : Type} (r : Except Raised β), Works body owners i worker
        (Finalizable owners i token active) (Code.ofExcept r)
        (fun a h => r = .ok a ∧ Finalizable owners i token active h) fun _ _ => True :=
      fun _ => Code.Triple.ofExcept hlasting.stable (fun _ hr _ _ h => ⟨hr, h⟩)
        fun _ _ _ _ _ => trivial
    refine Code.Triple.bind (fun _ => stable_const) (hcomputed _) fun parked => ?_
    refine Code.Triple.known (fun _ h => h.1) fun hparked => ?_
    refine Code.Triple.pre ?_ fun _ _ h => h.2
    refine Code.Triple.bind (fun _ => stable_const) (hcomputed _) fun pairs => ?_
    refine Code.Triple.pre ?_ fun _ _ h => h.2
    -- No call under that id: refused, and nothing is written.
    cases hcall : byPending parked pendingId with
    | none => exact Code.Triple.throw hlasting.stable fun _ _ _ => trivial
    | some call =>
      have hcallFor : active.callFor pendingId = some call := by
        unfold Suspension.callFor
        rw [hparked]
        exact hcall
      refine Code.Triple.bind (fun _ => stable_const)
        ((answer_works hrequest hcallFor (hconversation active rfl)).pre
          fun _ _ h => ⟨h.unentered, h.lease⟩) fun _ => ?_
      have hanswered : Lasting owners i fun h : Code.History (Worker execution.filedName) =>
          Finalizable owners i token (active.answered call.toolCallId answer) h :=
        lasting_finalizable token _
      refine Code.Triple.bind (fun _ => stable_const)
        (Code.Triple.ofExcept (Q := fun pending h =>
          undecided (active.answered call.toolCallId answer) = .ok pending ∧
            Finalizable owners i token (active.answered call.toolCallId answer) h)
          hanswered.stable (fun _ hr _ _ h => ⟨hr, h⟩) fun _ _ _ _ _ => trivial) fun pending => ?_
      refine Code.Triple.known (fun _ h => h.1) fun hpending => ?_
      refine Code.Triple.pre ?_ fun _ _ h => h.2
      -- Calls are left open: announced again, and the round waits.
      by_cases hnone : pending ≠ []
      · rw [if_pos hnone]
        exact Code.Triple.throw hanswered.stable fun _ _ _ => trivial
      · rw [if_neg hnone]
        -- nobody is left to answer
        obtain rfl : pending = [] := not_not.mp hnone
        exact finalize_works hagent (undecided_nil hpending) hparked (hconversation active rfl)

/-- `resume`. -/
theorem resume_works {runtime : AgentRuntime} {options : Options} {pendingId : String}
    {answer : Answer} (hagent : worker.request.agent? = some options.agent)
    (hrequest : worker.request.answer? = some (pendingId, answer)) :
    Works body owners i worker (Unentered i)
      (runtime.resume execution (owners.name i) options pendingId answer)
      (fun _ _ => True) fun _ _ => True :=
  lease_works fun _ => answerUnderLease_works hagent hrequest

theorem checkPendingRound_only {φ : Op → Prop}
    (hφ : φ (.ledger (.read execution.filedName pendingRoundKey))) (history : List Message) :
    Code.Only φ (AgentRuntime.checkPendingRound execution history) := by
  have hread : Code.Only φ (execution.store.read execution.branchId pendingRoundKey) :=
    Code.only_ledger hφ
  refine hread.bind fun recorded => Code.Only.ite (fun _ => Code.only_pure _) fun _ => ?_
  split
  · exact Code.Only.ite (fun _ => Code.only_throw _) fun _ => Code.only_pure _
  · exact Code.only_throw _

/-- A thread that finalizes nothing may drive a branch where nothing is parked, and, when it
    came to run or fork, one where what is parked was there when it took the lease. -/
theorem driving_start {token : Int} {cur : Option Suspension} {args : AttemptArgs} :
    Driving owners i token args fun h : Code.History (Worker execution.filedName) =>
      Unbegun i h ∧ OnLease owners i token (· = cur) h ∧ (cur ≠ none → Drives i cur h) where
  lasting := lasting_unbegun.and
    ((lasting_onLease token _).and (Lasting.imp fun _ => lasting_drives cur))
  leased _ hpre := hpre.2.1.mono fun _ _ => trivial
  starts h hinv hpre := by
    obtain ⟨_, ⟨_, hlease⟩, hdrives⟩ := hpre
    rw [hinv.now] at hlease
    rcases hlease with hlost | ⟨_, hlive⟩
    · exact Or.inl hlost
    · by_cases hnone : cur = none
      · exact Or.inr (Or.inl (hlive.trans hnone))
      · obtain ⟨pre, d, mid, hlog, htid, htaken, hthen⟩ := hdrives hnone
        exact Or.inr (Or.inr (Or.inr ⟨pre, d, mid, hlog, htid, htaken, hthen.trans hlive.symm⟩))
  begun h hpre active hbegun := absurd hbegun (hpre.1 active)

/-- The body of `recover`. -/
theorem recoverUnderLease_works {runtime : AgentRuntime} {token : Int} {options : Options}
    {history : List Message} (hagent : worker.request.agent? = some options.agent) :
    Works body owners i worker (Granted owners i .recover token)
      (runtime.recoverUnderLease execution options history token)
      (fun _ _ => True) fun _ _ => True := by
  refine Code.Triple.bind (fun _ => stable_const) ((found_works token).pre ?_) fun found => ?_
  · intro h _ ⟨hunentered, cur, hlease, _⟩
    exact ⟨hunentered, hlease.mono fun _ _ => trivial⟩
  refine Code.Triple.known (fun _ h => h.1) fun hconversation => ?_
  refine Code.Triple.pre ?_ fun _ _ h => h.2
  cases found with
  -- Nothing parked: the attempt starts from the history, if no round was left open.
  | none =>
    have hdriving : Driving owners i token { messageHistory := some history }
        fun h : Code.History (Worker execution.filedName) =>
          Unbegun i h ∧ OnLease owners i token (· = none) h ∧
            ((none : Option Suspension) ≠ none → Drives i none h) := driving_start
    have hchecked : Works body owners i worker _
        (AgentRuntime.checkPendingRound execution history) (fun _ => _) fun _ => _ :=
      silent_works (checkPendingRound_only (silent_read pendingRoundKey) history)
          hdriving.lasting
    refine Code.Triple.bind (fun _ => stable_const)
      (hchecked.mono ?_ (fun _ _ _ h => h) fun _ _ _ _ => trivial) fun _ => ?_
    · intro h _ ⟨hunentered, hlease⟩
      exact ⟨hunentered.unbegun, hlease, fun hne => absurd rfl hne⟩
    · exact (attempt_works hagent hdriving).mono (fun _ _ h => h) (fun _ _ _ _ => trivial)
        fun _ _ _ _ => trivial
  -- Parked and decided: the finalization is tried again.
  | some active =>
    have hlasting : Lasting owners i fun h : Code.History (Worker execution.filedName) =>
        Finalizable owners i token active h := lasting_finalizable token active
    have hcomputed : ∀ {β : Type} (r : Except Raised β), Works body owners i worker
        (Finalizable owners i token active) (Code.ofExcept r)
        (fun a h => r = .ok a ∧ Finalizable owners i token active h) fun _ _ => True :=
      fun _ => Code.Triple.ofExcept hlasting.stable (fun _ hr _ _ h => ⟨hr, h⟩)
        fun _ _ _ _ _ => trivial
    refine Code.Triple.bind (fun _ => stable_const) (hcomputed _) fun pending => ?_
    refine Code.Triple.known (fun _ h => h.1) fun hpending => ?_
    refine Code.Triple.pre ?_ fun _ _ h => h.2
    -- Still open: the park is announced again.
    by_cases hnone : pending ≠ []
    · rw [if_pos hnone]
      exact Code.Triple.throw hlasting.stable fun _ _ _ => trivial
    · rw [if_neg hnone]
      obtain rfl : pending = [] := not_not.mp hnone
      refine Code.Triple.bind (fun _ => stable_const) (hcomputed _) fun parked => ?_
      refine Code.Triple.known (fun _ h => h.1) fun hparked => ?_
      refine Code.Triple.pre ?_ fun _ _ h => h.2
      exact finalize_works hagent (undecided_nil hpending) hparked (hconversation active rfl)

/-- `recover`. -/
theorem recover_works {runtime : AgentRuntime} {options : Options} {history : List Message}
    (hagent : worker.request.agent? = some options.agent) :
    Works body owners i worker (Unentered i)
      (runtime.recover execution (owners.name i) options history)
      (fun _ _ => True) fun _ _ => True :=
  lease_works fun _ => recoverUnderLease_works hagent

end methods

end Semora
