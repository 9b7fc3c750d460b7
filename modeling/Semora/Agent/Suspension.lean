import Semora.Agent.Branch
import Semora.Store.Effects

/-! # What Workers Do to a Suspension

    Every schedule of a branch's workers keeps the branch's contract: each
    event is one a worker may do. A thread that took the lease knows the
    suspension in force, or its writes are refused; what it has written, and
    whether it finalizes, is read off its own events. -/

namespace Semora

open Pool MemorySteps

/-! ## Section 1: The suspension -/

section suspension

variable {b : String}

theorem live_congr {s s' : MemorySteps Record}
    (h : s.entry b activeSuspension = s'.entry b activeSuspension) : live b s = live b s' := by
  unfold live
  rw [h]

theorem live_setEntry (s : MemorySteps Record) (step : Step Record) :
    live b (s.setEntry b activeSuspension step) = suspensionOf step := by
  unfold live
  rw [entry_setEntry_self]

theorem stateAfter_concat {C : Type} (log : List (Code.Event C)) (e : Code.Event C) :
    stateAfter (log ++ [e]) = e.after := by
  simp [stateAfter]

theorem withRequests_calls {requests : DeferredToolRequests} {calls : List ToolCall}
    {parked : List (ToolCall × SuspendRequest)} (h : withRequests requests calls = .ok parked) :
    parked.map Prod.fst = calls := by
  induction calls generalizing parked with
  | nil =>
    cases h
    rfl
  | cons call calls ih =>
    unfold withRequests at h
    split at h
    · cases h
    · cases hrest : withRequests requests calls with
      | error e => simp [hrest, bind, Except.bind] at h
      | ok rest =>
        simp only [hrest, bind, Except.bind, Except.ok.injEq] at h
        subst h
        simp [ih hrest]

/-- What is decoded are the parked calls, each with its request. -/
theorem decodeParked_calls {active : Suspension} {parked : List (ToolCall × SuspendRequest)}
    (h : decodeParked active = .ok parked) : parked.map Prod.fst = active.calls := by
  unfold decodeParked at h
  cases hrequests : deferredRequests active with
  | error e => simp [hrequests, bind, Except.bind] at h
  | ok requests =>
    simp only [hrequests, bind, Except.bind] at h
    have hsame : requests = active.continuation.deferred := by
      unfold deferredRequests at hrequests
      dsimp only at hrequests
      split at hrequests
      · cases hrequests
      · exact (Except.ok.inj hrequests).symm
    rw [withRequests_calls h, hsame]
    rfl

theorem pendingPairs_nil {parked : List (ToolCall × SuspendRequest)}
    (h : pendingPairs parked = .ok []) : parked = [] := by
  cases parked with
  | nil => rfl
  | cons p parked =>
    obtain ⟨call, request⟩ := p
    unfold pendingPairs at h
    split at h
    · cases h
    · cases hrest : pendingPairs parked with
      | error e => simp [hrest, bind, Except.bind] at h
      | ok rest => simp [hrest, bind, Except.bind] at h

/-- Nothing is undecided only when every parked call has an answer. -/
theorem undecided_nil {active : Suspension} (h : undecided active = .ok []) :
    active.Decided := by
  unfold undecided at h
  cases hparked : decodeParked active with
  | error e => simp [hparked, bind, Except.bind] at h
  | ok parked =>
    simp only [hparked, bind, Except.bind] at h
    have hnone := pendingPairs_nil h
    intro call hcall
    rw [← decodeParked_calls hparked] at hcall
    obtain ⟨p, hp, rfl⟩ := List.mem_map.mp hcall
    have hkept := List.filter_eq_nil_iff.mp hnone p hp
    rw [Option.isNone_iff_eq_none] at hkept
    exact Option.isSome_iff_ne_none.mpr hkept

/-- The approvals are those of the answers, and a refusal among them cancels the round. -/
theorem approvalsOf_ok {answers : Dict String Answer} {parked : List (ToolCall × SuspendRequest)}
    {approvals : List (String × Approval)} {cancelled : Bool}
    (h : approvalsOf answers parked = .ok (approvals, cancelled)) :
    approvals = (parked.map Prod.fst).filterMap (fun call =>
        (answers.get? call.toolCallId).map fun answer => (call.toolCallId, answer.approval)) ∧
      cancelled = (parked.map Prod.fst).any fun call =>
        (answers.get? call.toolCallId).any Answer.refuses := by
  induction parked generalizing approvals cancelled with
  | nil =>
    cases h
    exact ⟨rfl, rfl⟩
  | cons p parked ih =>
    obtain ⟨call, request⟩ := p
    unfold approvalsOf at h
    split at h
    · cases h
    · next answer hanswer =>
      -- The head is answered, so its approval leads the list, and its refusal counts.
      cases hrest : approvalsOf answers parked with
      | error e => simp [hrest, bind, Except.bind] at h
      | ok rest =>
        obtain ⟨more, refused⟩ := rest
        simp only [hrest, bind, Except.bind, Except.ok.injEq, Prod.mk.injEq] at h
        obtain ⟨rfl, rfl⟩ := h
        obtain ⟨hmore, hrefused⟩ := ih hrest
        simp [hanswer, hmore, hrefused]

end suspension

/-! ## Section 2: One's own events -/

section own

variable {b : String} {i : Nat}

/-- An operation that leaves the suspension and the lease to the others, and does not enter
    `_finalize`. -/
def Passes (b : String) : Op → Prop
  | .ledger op => op.branchId ≠ b ∨ (activeSuspension ∉ op.keys ∧ ∀ w, op ≠ .release b w)
  | .ext (.mark (.finalizing ..)) => False
  | _ => True

/-- One that says nothing besides. -/
def Silent (b : String) : Op → Prop
  | .ledger op => op.branchId ≠ b ∨ (activeSuspension ∉ op.keys ∧ ∀ w, op ≠ .release b w)
  | .ext (.mark (.finalizing ..)) => False
  | .ext (.mark (.agentRun ..)) => False
  | .ext (.mark (.ended _)) => False
  | .ext (.model _) => False
  | _ => True

theorem Silent.passes {o : Op} (ho : Silent b o) : Passes b o := by
  cases o with
  | ledger op => exact ho
  | ext e =>
    cases e with
    | mark m =>
      cases m with
      | finalizing found answers => exact ho
      | _ => trivial
    | _ => trivial

theorem Silent.said {o : Op} (ho : Silent b o) {before : List (Code.Event (Worker b))}
    {worker : Worker b} {r : o.Reply} {s : MemorySteps Record} :
    Said before ⟨i, worker, o, r, s⟩ := by
  cases o with
  | ledger op => trivial
  | ext e =>
    cases e with
    | mark m => cases m <;> trivial
    | model messages => exact ho.elim
    | _ => trivial

/-- What a boundary does passes by. -/
theorem BoundaryOp.passes {boundary : ExecutionBoundary} {o : Op}
    (ho : BoundaryOp boundary o) : Passes b o := by
  cases o with
  | ledger op =>
    obtain ⟨_, howner, hkeys⟩ := ho
    refine Or.inr ⟨hkeys, ?_⟩
    rintro w rfl
    cases howner
  | ext e =>
    cases e with
    | mark m => cases m <;> trivial
    | _ => trivial

theorem not_turns_of_passes {e : Code.Event (Worker b)} (he : Passes b e.op) : ¬ Turns b e := by
  rintro (⟨active, token, hdid⟩ | ⟨callId, callIds, token, hdid⟩ | ⟨active, token, inserted, hdid⟩)
  · rw [Event.op_of_did hdid] at he
    rcases he with hb | ⟨hkey, _⟩
    · exact hb rfl
    · simp [LedgerOp.keys] at hkey
  · rw [Event.op_of_did hdid] at he
    rcases he with hb | ⟨hkey, _⟩
    · exact hb rfl
    · simp [LedgerOp.keys] at hkey
  · rw [Event.op_of_did hdid] at he
    rcases he with hb | ⟨hkey, _⟩
    · exact hb rfl
    · refine hkey (List.mem_append_right _ ?_)
      exact Dict.mem_keys_set_self _ _ _

theorem entered_append {active : Suspension} {log more : List (Code.Event (Worker b))}
    (h : Entered i active log) : Entered i active (log ++ more) := by
  obtain ⟨d, hd, hentered⟩ := h
  exact ⟨d, List.mem_append_left _ hd, hentered⟩

theorem resuming_append {active : Suspension} {log more : List (Code.Event (Worker b))}
    (h : Resuming b i active log) : Resuming b i active (log ++ more) := by
  obtain ⟨pre, d, mid, rfl, hbegun⟩ := h
  exact ⟨pre, d, mid ++ more, by simp, hbegun⟩

/-- Others, and what passes by, do not enter `_finalize`. -/
theorem Entered.of_append {active : Suspension} {log more : List (Code.Event (Worker b))}
    (h : Entered i active (log ++ more)) (hmore : ∀ e ∈ more, e.tid ≠ i ∨ Passes b e.op) :
    Entered i active log := by
  obtain ⟨d, hd, htid, found, answers, hactive, hdid⟩ := h
  rcases List.mem_append.mp hd with hd | hd
  · exact ⟨d, hd, htid, found, answers, hactive, hdid⟩
  · rcases hmore d hd with hne | hpasses
    · exact absurd htid hne
    · rw [Event.op_of_did hdid] at hpasses
      exact hpasses.elim

/-- The last event begins a finalization, or it was begun before. -/
theorem resuming_concat {active : Suspension} {log : List (Code.Event (Worker b))}
    {e : Code.Event (Worker b)} :
    Resuming b i active (log ++ [e]) ↔
      Resuming b i active log ∨ (e.tid = i ∧ Finalizing i log ∧ Wrote b active e) := by
  constructor
  · rintro ⟨pre, d, mid, hsplit, hd⟩
    rcases List.eq_nil_or_concat mid with rfl | ⟨mid, last, rfl⟩
    · obtain ⟨rfl, rfl⟩ : log = pre ∧ e = d := by simpa using List.append_inj' hsplit rfl
      exact Or.inr hd
    · have hconcat : log ++ [e] = (pre ++ d :: mid) ++ [last] := by simpa using hsplit
      obtain ⟨rfl, rfl⟩ : log = pre ++ d :: mid ∧ e = last := by
        simpa using List.append_inj' hconcat rfl
      exact Or.inl ⟨pre, d, mid, rfl, hd⟩
  · rintro (hbegun | hlast)
    · exact resuming_append hbegun
    · exact ⟨log, e, [], rfl, hlast⟩

/-- What others do, and what does not turn the suspension, begins no finalization. -/
theorem Resuming.of_append {active : Suspension} {log more : List (Code.Event (Worker b))}
    (h : Resuming b i active (log ++ more)) (hmore : ∀ e ∈ more, e.tid ≠ i ∨ ¬ Turns b e) :
    Resuming b i active log := by
  induction more using List.reverseRecOn with
  | nil => simpa using h
  | append_singleton more e ih =>
    rw [← List.append_assoc, resuming_concat] at h
    have hrest : ∀ d ∈ more, d.tid ≠ i ∨ ¬ Turns b d :=
      fun d hd => hmore d (List.mem_append_left _ hd)
    rcases h with hbegun | ⟨htid, _, hwrote⟩
    · exact ih hbegun hrest
    · rcases hmore e (List.mem_append_right _ List.mem_cons_self) with hne | hturns
      · exact absurd htid hne
      · exact absurd (Or.inl ⟨active, hwrote⟩) hturns

/-- What a thread's own passing events leave alone, others leave alone. -/
theorem not_turns_of_moved {more : List (Code.Event (Worker b))}
    (hmore : ∀ e ∈ more, e.tid ≠ i ∨ Passes b e.op) : ∀ e ∈ more, e.tid ≠ i ∨ ¬ Turns b e :=
  fun e he => (hmore e he).imp id not_turns_of_passes

end own

/-! ## Section 3: Assertions -/

section assertions

variable (owners : Owners) {b : String} (i : Nat)

/-- The others moved, and thread `i` did what passes by. -/
structure Moving (h h' : Code.History (Worker b)) : Prop where
  lease : LeaseRely b (owners.name i) (· = activeSuspension) h.now h'.now
  log : ∃ more, h'.log = h.log ++ more ∧ ∀ e ∈ more, e.tid ≠ i ∨ Passes b e.op

/-- What that cannot invalidate. -/
def Lasting (P : Code.History (Worker b) → Prop) : Prop :=
  ∀ h h', P h → Moving owners i h h' → P h'

/-- Thread `i` was granted the lease under `token`: it has lost it by now, or `P` holds of the
    suspension in force. -/
def OnLease (token : Int) (P : Option Suspension → Prop) (h : Code.History (Worker b)) : Prop :=
  token ≠ 0 ∧ (token < h.now.issued b ∨
    (Holds b (owners.name i) token h.now ∧ P (live b h.now)))

/-- The ledger has held this suspension. -/
def Recorded (active : Suspension) (h : Code.History (Worker b)) : Prop :=
  ∃ d ∈ h.log, live b d.after = some active

/-- Thread `i` has not entered `_finalize`. -/
def Unentered (h : Code.History (Worker b)) : Prop := ¬ Finalizing i h.log

/-- Thread `i` has begun the finalization of `active`, and of nothing else. -/
def Finishes (active : Suspension) (h : Code.History (Worker b)) : Prop :=
  Resuming b i active h.log ∧ ∀ other, Resuming b i other h.log → other = active

/-- Thread `i` has begun no finalization. -/
def Unbegun (h : Code.History (Worker b)) : Prop := ∀ active, ¬ Resuming b i active h.log

/-- Thread `i` took the lease to drive the branch, when `cur` was in force. -/
def Drives (cur : Option Suspension) (h : Code.History (Worker b)) : Prop :=
  ∃ pre d mid, h.log = pre ++ d :: mid ∧ d.tid = i ∧ TakenToDrive b pre d ∧ live b d.after = cur

variable {owners} {i} {conversation : String}

theorem BranchRely.moving {h h' : Code.History (Worker b)} (hrely : BranchRely owners b i h h') :
    Moving owners i h h' := by
  obtain ⟨more, hlog, hmore⟩ := hrely.log
  exact ⟨hrely.lease, more, hlog, fun e he => Or.inl (hmore e he)⟩

theorem Lasting.stable {P : Code.History (Worker b) → Prop} (hP : Lasting owners i P) :
    Stable (branchContract owners b conversation) i P :=
  fun h h' hpre hrely _ => hP h h' hpre (BranchRely.moving hrely)

theorem Lasting.and {P Q : Code.History (Worker b) → Prop} (hP : Lasting owners i P)
    (hQ : Lasting owners i Q) : Lasting owners i fun h => P h ∧ Q h :=
  fun h h' hPQ hmove => ⟨hP h h' hPQ.1 hmove, hQ h h' hPQ.2 hmove⟩

theorem Lasting.exists {ι : Type} {P : ι → Code.History (Worker b) → Prop}
    (hP : ∀ k, Lasting owners i (P k)) : Lasting owners i fun h => ∃ k, P k h :=
  fun h h' ⟨k, hpre⟩ hmove => ⟨k, hP k h h' hpre hmove⟩

theorem Lasting.imp {a : Prop} {P : Code.History (Worker b) → Prop} (hP : a → Lasting owners i P) :
    Lasting owners i fun h => a → P h :=
  fun h h' hpre hmove ha => hP ha h h' (hpre ha) hmove

theorem lasting_const {a : Prop} :
    Lasting owners i fun _ : Code.History (Worker b) => a := fun _ _ h _ => h

theorem lasting_onLease (token : Int) (P : Option Suspension → Prop) :
    Lasting owners i (OnLease (b := b) owners i token P) := by
  rintro h h' ⟨hne, hlease⟩ hmove
  refine ⟨hne, ?_⟩
  rcases hlease with hlost | ⟨hholds, hP⟩
  · exact Or.inl (Int.lt_of_lt_of_le hlost hmove.lease.rises)
  · rcases hmove.lease.holds token hholds with hlost | ⟨hholds', hsame⟩
    · exact Or.inl hlost
    · refine Or.inr ⟨hholds', ?_⟩
      rw [live_congr (hsame activeSuspension rfl)]
      exact hP

theorem lasting_recorded (active : Suspension) :
    Lasting owners i (Recorded (b := b) active) := by
  rintro h h' ⟨d, hd, hlive⟩ hmove
  obtain ⟨more, hlog, _⟩ := hmove.log
  refine ⟨d, ?_, hlive⟩
  rw [hlog]
  exact List.mem_append_left _ hd

theorem lasting_unentered : Lasting owners i (Unentered (b := b) i) := by
  rintro h h' hunentered hmove ⟨active, hentered⟩
  obtain ⟨more, hlog, hmore⟩ := hmove.log
  rw [hlog] at hentered
  exact hunentered ⟨active, hentered.of_append hmore⟩

theorem lasting_entered (active : Suspension) :
    Lasting owners i fun h : Code.History (Worker b) => Entered i active h.log := by
  intro h h' hentered hmove
  obtain ⟨more, hlog, _⟩ := hmove.log
  rw [hlog]
  exact entered_append hentered

theorem lasting_unbegun : Lasting owners i (Unbegun (b := b) i) := by
  intro h h' hunbegun hmove active hbegun
  obtain ⟨more, hlog, hmore⟩ := hmove.log
  rw [hlog] at hbegun
  exact hunbegun active (hbegun.of_append (not_turns_of_moved hmore))

theorem lasting_finishes (active : Suspension) :
    Lasting owners i (Finishes (b := b) i active) := by
  rintro h h' ⟨hbegun, honly⟩ hmove
  obtain ⟨more, hlog, hmore⟩ := hmove.log
  refine ⟨?_, fun other hother => honly other ?_⟩
  · rw [hlog]
    exact resuming_append hbegun
  · rw [hlog] at hother
    exact hother.of_append (not_turns_of_moved hmore)

theorem lasting_drives (cur : Option Suspension) : Lasting owners i (Drives (b := b) i cur) := by
  rintro h h' ⟨pre, d, mid, hsplit, hd⟩ hmove
  obtain ⟨more, hlog, _⟩ := hmove.log
  exact ⟨pre, d, mid ++ more, by rw [hlog, hsplit]; simp, hd⟩

theorem lasting_leasing (method : Method) :
    Lasting owners i fun h : Code.History (Worker b) => Leasing i method h.log := by
  rintro h h' ⟨d, hd, hleasing⟩ hmove
  obtain ⟨more, hlog, _⟩ := hmove.log
  refine ⟨d, ?_, hleasing⟩
  rw [hlog]
  exact List.mem_append_left _ hd

/-- Whoever has not entered `_finalize` has begun no finalization. -/
theorem Unentered.unbegun {h : Code.History (Worker b)} (hunentered : Unentered i h) :
    Unbegun i h := by
  rintro active ⟨pre, d, mid, hlog, _, ⟨other, hentered⟩, _⟩
  refine hunentered ⟨other, ?_⟩
  rw [hlog]
  exact entered_append hentered

theorem OnLease.mono {token : Int} {P Q : Option Suspension → Prop}
    {h : Code.History (Worker b)} (hlease : OnLease owners i token P h)
    (hPQ : ∀ cur, P cur → Q cur) : OnLease owners i token Q h :=
  ⟨hlease.1, hlease.2.imp id fun ⟨hholds, hP⟩ => ⟨hholds, hPQ _ hP⟩⟩

theorem OnLease.issued {token : Int} {P : Option Suspension → Prop}
    {h : Code.History (Worker b)} (hlease : OnLease owners i token P h) :
    Issued b (owners.name i) token h.now :=
  ⟨hlease.1, hlease.2.imp id And.left⟩

/-- What is not refused to a thread under its lease finds the suspension it knows. -/
theorem OnLease.known {token : Int} {P : Option Suspension → Prop}
    {h : Code.History (Worker b)} (hlease : OnLease owners i token P h)
    (hfresh : ¬ (token ≠ 0 ∧ token < h.now.issued b)) :
    Holds b (owners.name i) token h.now ∧ P (live b h.now) :=
  hlease.2.resolve_left fun hlost => hfresh ⟨hlease.1, hlost⟩

end assertions

/-! ## Section 4: What one event does -/

section events

variable {owners : Owners} {b conversation : String} {i : Nat} {worker : Worker b}
  {h : Code.History (Worker b)}

theorem perform_leaseOk {s : MemorySteps Record} (hok : LeaseOk s) (x : Env) (o : Op) :
    LeaseOk (Semora.perform s x o).2 := by
  cases o with
  | ledger op => exact leaseOk_perform op x.now x.later hok
  | ext e => exact hok

/-- What passes by leaves the suspension. -/
theorem Passes.entry {o : Op} (ho : Passes b o) (s : MemorySteps Record) (x : Env) :
    (Semora.perform s x o).2.entry b activeSuspension = s.entry b activeSuspension := by
  cases o with
  | ledger op => exact perform_entry op x.now x.later s (ho.imp id And.left)
  | ext e => rfl

/-- And everyone their lease. -/
theorem Passes.lease {o : Op} (ho : Passes b o) (owner : String) (s : MemorySteps Record)
    (x : Env) : LeaseRely b owner (· = activeSuspension) s (Semora.perform s x o).2 := by
  cases o with
  | ext e => exact LeaseRely.refl ..
  | ledger op =>
    rcases ho with hb | ⟨hkey, hrelease⟩
    · exact leaseRely_elsewhere _ owner op hb x.now x.later
    · -- Only an acquire of the branch can move a lease here: a release of it is excluded.
      cases howner : op.owner? with
      | none =>
        refine leaseRely_idle _ owner howner x.now x.later fun key hkey' => ?_
        rw [hkey']
        exact perform_entry op x.now x.later s (Or.inr hkey)
      | some w =>
        cases op with
        | acquire b' w' ttl =>
          by_cases hb : b' = b
          · rw [hb]
            exact leaseRely_acquire _ w' owner ttl x.now x.later
          · exact leaseRely_elsewhere _ owner (.acquire b' w' ttl) hb x.now x.later
        | release b' w' =>
          by_cases hb : b' = b
          · exact absurd (by rw [hb]) (hrelease w')
          · exact leaseRely_elsewhere _ owner (.release b' w') hb x.now x.later
        | _ => cases howner

/-- An event that is legitimate and respects the leases is guaranteed. -/
theorem legit_event (hinv : BranchInv b conversation h) {o : Op} {r : o.Reply}
    {s : MemorySteps Record} (hleases : LeaseOk s)
    (hconversation : ∀ active, live b s = some active → active.conversationId = conversation)
    (hlegit : Legit h.log ⟨i, worker, o, r, s⟩)
    (hothers : ∀ j, j ≠ i → LeaseRely b (owners.name j) (· = activeSuspension) h.now s) :
    BranchGuar owners b conversation i worker h o r (Code.next h i worker o r s) where
  log := rfl
  inv :=
    { leases := hleases
      now := (stateAfter_concat h.log ⟨i, worker, o, r, s⟩).symm
      conversation := hconversation
      legit := always_concat.mpr ⟨hinv.legit, hlegit⟩ }
  others := hothers

/-- An event that leaves the suspension is guaranteed when what it says is so. -/
theorem same_event (hinv : BranchInv b conversation h) {o : Op} {r : o.Reply}
    {s : MemorySteps Record} (hleases : LeaseOk s)
    (hturns : ¬ Turns b (⟨i, worker, o, r, s⟩ : Code.Event (Worker b)))
    (hentry : s.entry b activeSuspension = h.now.entry b activeSuspension)
    (hsaid : Said h.log ⟨i, worker, o, r, s⟩)
    (hothers : ∀ j, j ≠ i → LeaseRely b (owners.name j) (· = activeSuspension) h.now s) :
    BranchGuar owners b conversation i worker h o r (Code.next h i worker o r s) := by
  refine legit_event hinv hleases ?_ ⟨.same hturns ?_, hsaid⟩ hothers
  · intro active hlive
    rw [live_congr hentry] at hlive
    exact hinv.conversation active hlive
  · rw [← hinv.now]
    exact hentry

/-- What passes by is guaranteed, and what lasts survives it. -/
theorem passing_event {P : Code.History (Worker b) → Prop} (hP : Lasting owners i P)
    (hinv : BranchInv b conversation h) (hpre : P h) {o : Op} (ho : Passes b o) (x : Env)
    (hsaid : Said h.log
      ⟨i, worker, o, (Semora.perform h.now x o).1, (Semora.perform h.now x o).2⟩) :
    BranchGuar owners b conversation i worker h o (Semora.perform h.now x o).1
        (Code.next h i worker o (Semora.perform h.now x o).1 (Semora.perform h.now x o).2) ∧
      P (Code.next h i worker o (Semora.perform h.now x o).1 (Semora.perform h.now x o).2) := by
  have hguar : BranchGuar owners b conversation i worker h o (Semora.perform h.now x o).1
      (Code.next h i worker o (Semora.perform h.now x o).1 (Semora.perform h.now x o).2) :=
    same_event hinv (perform_leaseOk hinv.leases x o) (not_turns_of_passes ho)
      (ho.entry h.now x) hsaid fun j _ => ho.lease _ h.now x
  refine ⟨hguar, hP h _ hpre ⟨ho.lease _ h.now x, _, rfl, ?_⟩⟩
  intro e he
  obtain rfl := List.mem_singleton.mp he
  exact Or.inr ho

/-- A call that was refused. -/
theorem refused_event (hinv : BranchInv b conversation h) {op : LedgerOp Record}
    {error : StoreError} :
    BranchGuar owners b conversation i worker h (.ledger op)
      (.error error : Except StoreError op.Reply)
      (Code.next h i worker (.ledger op) (.error error : Except StoreError op.Reply) h.now) := by
  refine same_event hinv hinv.leases ?_ rfl trivial fun _ _ => LeaseRely.refl ..
  rintro (⟨active, token, hdid⟩ | ⟨callId, callIds, token, hdid⟩ | ⟨active, token, inserted, hdid⟩)
    <;> cases hdid

/-- A fenced call of one's own that was accepted: one still holds the branch, and the others
    keep what they rely on. -/
theorem accepted_event (hinv : BranchInv b conversation h) {op : LedgerOp Record} {token : Int}
    (htoken : op.token? = some token) (hholds : Holds b (owners.name i) token h.now)
    (hne : token ≠ 0) {x : Env} {r : Except StoreError op.Reply} {s : MemorySteps Record}
    (hperform : op.perform x.now x.later h.now = (r, s))
    (hlegit : Legit h.log ⟨i, worker, .ledger op, r, s⟩)
    (hconversation : ∀ active, live b s = some active → active.conversationId = conversation) :
    BranchGuar owners b conversation i worker h (.ledger op) r
        (Code.next h i worker (.ledger op) r s) ∧ Holds b (owners.name i) token s := by
  obtain rfl : (op.perform x.now x.later h.now).2 = s := by rw [hperform]
  have hissued : Issued b (owners.name i) token h.now := ⟨hne, Or.inr hholds⟩
  have howner := owner?_of_token? htoken
  have hleases := perform_sameLeases op howner x.now x.later h.now
  refine ⟨legit_event hinv (leaseOk_perform op x.now x.later hinv.leases) hconversation hlegit ?_,
    ⟨?_, ?_⟩⟩
  · intro j hj
    have hdisciplined : Disciplined b (owners.name i) (· = activeSuspension) h.now op :=
      .fenced htoken hissued
    exact hdisciplined.leaseRely (fun heq => hj (owners.distinct heq)) x.now x.later
  · rw [hleases.1]
    exact hholds.lease
  · rw [hleases.issued b]
    exact hholds.newest

end events

end Semora
