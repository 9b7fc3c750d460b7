import Semora.Agent.Alone
import Semora.Agent.Finalizations
import Semora.Agent.Tending

/-! # Unresolved Effects

    `unresolved_effects` looks for running tool steps among the calls of the
    latest round. A branch has one record of a round, and a new round is
    written over it: a call that is still in doubt, and that the new round
    leaves out, is not found any more.

    A running step that no round leaves out is found. That is an invariant of
    the ledger: a tool is started for a call of the round its own attempt has
    recorded, and nobody else records one while that attempt holds the lease. -/

namespace Semora

open Pool MemorySteps

/-! ## Section 1: The list -/

/-- `UnresolvedEffect`. -/
structure UnresolvedEffect where
  callId : String
  toolName : String
  args : Json
  version : Nat
  deriving DecidableEq, Repr

namespace AgentRuntime

/-- The loop of `unresolved_effects`. -/
def unresolvedCalls (execution : ExecutionContext) : List CallEntry → Code (List UnresolvedEffect)
  | [] => pure []
  | item :: calls => do
    let record ← execution.store.read execution.branchId (stepKey item.id)
    let rest ← unresolvedCalls execution calls
    if record.status = .running then
      pure (⟨item.id, item.name, if isObject item.args then item.args else "\x7b\x7d",
        record.version⟩ :: rest)
    else pure rest

/-- `unresolved_effects`: the latest round's tool effects that still need external
    reconciliation. -/
def unresolvedEffects (execution : ExecutionContext) : Code (List UnresolvedEffect) := do
  let pending ← execution.store.read execution.branchId pendingRoundKey
  if pending.status ≠ .done then pure []
  else
    match pending.value with
    | some (.pendingRound calls _) => unresolvedCalls execution calls
    | _ => pure []

end AgentRuntime

/-- `unresolved_effects` finds the call, with the version of its step. -/
def Listed (execution : ExecutionContext) (callId : String) (s : MemorySteps Record) : Prop :=
  ∀ x, ∃ listed, runAlone x (AgentRuntime.unresolvedEffects execution).run s = (.ok listed, s) ∧
    ∃ effect ∈ listed, effect.callId = callId ∧
      effect.version = (s.entry execution.filedName (stepKey callId)).version

section list

variable {b : String} {s : MemorySteps Record}

/-- The ids of the calls that are recorded as the latest round. -/
def roundOf (step : Step Record) : List String :=
  if step.status = .done then
    match step.value with
    | some (.pendingRound calls _) => calls.map CallEntry.id
    | _ => []
  else []

/-- The call is one of the latest round, if its step is running. -/
def InRound (b callId : String) (s : MemorySteps Record) : Prop :=
  (s.entry b (stepKey callId)).status = .running → callId ∈ roundOf (s.entry b pendingRoundKey)

/-- What the loop finds: every running step among the calls, and nothing but calls of them. -/
theorem unresolvedCalls_alone (execution : ExecutionContext) (x : Env) (calls : List CallEntry) :
    ∃ listed, runAlone x (AgentRuntime.unresolvedCalls execution calls).run s = (.ok listed, s) ∧
      (∀ item ∈ calls, (s.entry execution.filedName (stepKey item.id)).status = .running →
        ∃ effect ∈ listed, effect.callId = item.id ∧
          effect.version = (s.entry execution.filedName (stepKey item.id)).version) ∧
      ∀ effect ∈ listed, effect.callId ∈ calls.map CallEntry.id := by
  -- Induction on the calls of the round: a running one is listed with its version, any other passed
  -- over.
  induction calls with
  | nil => exact ⟨[], rfl, nofun, nofun⟩
  | cons item calls ih =>
    obtain ⟨rest, hrest, hfound, honly⟩ := ih
    have hread : runAlone x
        (execution.store.read execution.branchId (stepKey item.id)).run s
        = (Except.ok (s.read execution.filedName (stepKey item.id)), s) := rfl
    unfold AgentRuntime.unresolvedCalls
    rw [Code.runAlone_ok hread, Code.runAlone_ok hrest]
    by_cases hrunning : (s.entry execution.filedName (stepKey item.id)).status = .running
    · rw [if_pos (show (s.read execution.filedName (stepKey item.id)).status = _ from hrunning)]
      refine ⟨_, rfl, fun other hother hrun => ?_, fun effect heffect => ?_⟩
      · rcases List.mem_cons.mp hother with rfl | hother
        · exact ⟨_, List.mem_cons_self, rfl, rfl⟩
        · obtain ⟨effect, heffect, heq⟩ := hfound other hother hrun
          exact ⟨effect, List.mem_cons_of_mem _ heffect, heq⟩
      · rcases List.mem_cons.mp heffect with rfl | heffect
        · exact List.mem_cons_self
        · exact List.mem_cons_of_mem _ (honly effect heffect)
    · rw [if_neg (show ¬ (s.read execution.filedName (stepKey item.id)).status = _ from hrunning)]
      refine ⟨rest, rfl, fun other hother hrun => ?_, fun effect heffect => ?_⟩
      · rcases List.mem_cons.mp hother with rfl | hother
        · exact absurd hrun hrunning
        · exact hfound other hother hrun
      · exact List.mem_cons_of_mem _ (honly effect heffect)

/-- What `unresolved_effects` finds: every running step of the latest round, and nothing but calls
    of it. -/
theorem unresolvedEffects_alone (execution : ExecutionContext) (x : Env)
    (s : MemorySteps Record) :
    ∃ listed, runAlone x (AgentRuntime.unresolvedEffects execution).run s = (.ok listed, s) ∧
      (∀ callId ∈ roundOf (s.entry execution.filedName pendingRoundKey),
        (s.entry execution.filedName (stepKey callId)).status = .running →
        ∃ effect ∈ listed, effect.callId = callId ∧
          effect.version = (s.entry execution.filedName (stepKey callId)).version) ∧
      ∀ effect ∈ listed,
        effect.callId ∈ roundOf (s.entry execution.filedName pendingRoundKey) := by
  have hread : runAlone x (execution.store.read execution.branchId pendingRoundKey).run s
      = (Except.ok (s.entry execution.filedName pendingRoundKey), s) := rfl
  unfold AgentRuntime.unresolvedEffects
  rw [Code.runAlone_ok hread]
  generalize s.entry execution.filedName pendingRoundKey = step
  unfold roundOf
  -- Without a recorded round there is nothing to list, and nothing it says is promised.
  by_cases hdone : step.status = .done
  · rw [if_neg (not_not.mpr hdone), if_pos hdone]
    split
    · next calls turn _ =>
      obtain ⟨listed, hlisted, hfound, honly⟩ := unresolvedCalls_alone execution x calls (s := s)
      refine ⟨listed, hlisted, fun callId hcall hrunning => ?_, honly⟩
      obtain ⟨item, hitem, rfl⟩ := List.mem_map.mp hcall
      exact hfound item hitem hrunning
    · exact ⟨[], rfl, fun _ h => absurd h List.not_mem_nil, nofun⟩
  · rw [if_pos hdone, if_neg hdone]
    exact ⟨[], rfl, fun _ h => absurd h List.not_mem_nil, nofun⟩

/-- A running step is found exactly when it is one of the latest round. -/
theorem listed_iff {execution : ExecutionContext} {callId : String}
    (hrunning : (s.entry execution.filedName (stepKey callId)).status = .running) :
    Listed execution callId s ↔ callId ∈ roundOf (s.entry execution.filedName pendingRoundKey) := by
  constructor
  · intro h
    obtain ⟨listed, hlisted, effect, heffect, rfl, _⟩ := h (outside 0 (tells "") .continue)
    obtain ⟨listed', hlisted', _, honly⟩ :=
      unresolvedEffects_alone execution (outside 0 (tells "") .continue) s
    obtain rfl : listed = listed' :=
      Except.ok.inj (Prod.mk.inj (hlisted.symm.trans hlisted')).1
    exact honly effect heffect
  · intro h x
    obtain ⟨listed, hlisted, hfound, _⟩ := unresolvedEffects_alone execution x s
    exact ⟨listed, hlisted, hfound callId h hrunning⟩

end list

/-! ## Section 2: One event -/

/-- What is known of a thread that holds a lease: its token was issued to it, and the round it has
    recorded is the latest one, unless its token is stale. -/
structure Tended (b owner : String) (m : Tending) (s : MemorySteps Record) : Prop where
  issued : m.token ≠ 0 → Issued b owner m.token s
  latest : m.token ≠ 0 → m.token < s.issued b ∨
    ∀ callId ∈ m.round, callId ∈ roundOf (s.entry b pendingRoundKey)

/-- A round that is recorded while the call's step is running holds the call. There is one record
    of a pending round to a branch, so a round that is recorded without the call leaves no trace of
    it but its step. -/
def KeepsDoubt {C : Type} (b callId : String) (before : List (Code.Event C)) (e : Code.Event C) :
    Prop :=
  ∀ calls turn token,
    e.did (.ledger (.writeControl b pendingRoundKey (some (.pendingRound calls turn)) token))
      (.ok ()) →
    ((stateAfter before).entry b (stepKey callId)).status = .running →
      callId ∈ calls.map CallEntry.id

section events

variable {b owner callId : String} {m : Tending} {s s' : MemorySteps Record}

theorem tended_init : Tended b owner {} s := ⟨fun h => absurd rfl h, fun h => absurd rfl h⟩

theorem inRound_init : InRound b callId (.init : MemorySteps Record) := by
  intro hrunning
  cases hrunning

/-- What others leave alone is still known. -/
theorem Tended.rely (h : Tended b owner m s)
    (hrely : LeaseRely b owner (· = pendingRoundKey) s s') : Tended b owner m s' := by
  refine ⟨fun htoken => (h.issued htoken).rely hrely, fun htoken => ?_⟩
  rcases (h.issued htoken).2 with hstale | hholds
  · exact Or.inl (Int.lt_of_lt_of_le hstale hrely.rises)
  · refine (hrely.holds _ hholds).imp id fun ⟨_, hsame⟩ callId hcall => ?_
    rw [hsame pendingRoundKey rfl]
    refine (h.latest htoken).resolve_left (fun hstale => ?_) callId hcall
    rw [hholds.newest] at hstale
    exact absurd hstale (Int.lt_irrefl _)

/-- A thread under the monitor keeps the discipline, but for the leases it takes. -/
theorem Tended.disciplined {op : LedgerOp Record} (h : Tended b owner m s)
    (hallowed : (tending b owner).allows m (.ledger op))
    (hacquire : ∀ w ttl, op ≠ .acquire b w ttl) :
    Disciplined b owner (· = pendingRoundKey) s op := by
  by_cases hb : op.branchId = b
  · have hpermits := hallowed hb
    -- A lease of its own, or the round: recorded only under the token in hand.
    cases howner : op.owner? with
    | some w =>
      cases op with
      | acquire b' w' ttl =>
        obtain rfl : b' = b := hb
        exact absurd rfl (hacquire w' ttl)
      | release b' w' =>
        obtain rfl : b' = b := hb
        obtain rfl := hpermits.releases w' rfl
        exact .lease rfl
      | _ => cases howner
    | none =>
      by_cases hkey : pendingRoundKey ∈ op.keys
      · obtain ⟨calls, turn, rfl, hleased⟩ := hpermits.records hkey
        exact .fenced rfl (h.issued hleased)
      · exact .harmless howner fun key heq => heq ▸ hkey
  · exact .elsewhere hb

/-- **What one thread does**, the others may rely on. -/
theorem Tended.others {op : LedgerOp Record} {owner' : String} (h : Tended b owner m s)
    (hallowed : (tending b owner).allows m (.ledger op)) (hne : owner' ≠ owner) (now later : ℚ) :
    LeaseRely b owner' (· = pendingRoundKey) s (op.perform now later s).2 := by
  by_cases hacquire : ∃ w ttl, op = .acquire b w ttl
  · obtain ⟨w, ttl, rfl⟩ := hacquire
    exact leaseRely_acquire _ w owner' ttl now later
  · have hdisciplined := h.disciplined hallowed fun w ttl heq => hacquire ⟨w, ttl, heq⟩
    exact hdisciplined.leaseRely hne now later

/-- What leaves the thread's answers, its lease and the round alone. -/
theorem Tended.idle {op : LedgerOp Record} (h : Tended b owner m s)
    (hop : op.branchId ≠ b ∨ (op.owner? = none ∧ pendingRoundKey ∉ op.keys)) (now later : ℚ)
    (r : Op.Reply (.ledger op)) :
    Tended b owner (m.answered b owner (.ledger op) r) (op.perform now later s).2 := by
  rw [Tending.answered_of_idle hop m r]
  refine h.rely ?_
  by_cases hb : op.branchId = b
  · obtain ⟨howner, hkey⟩ := hop.resolve_left fun hne => hne hb
    refine leaseRely_idle _ owner howner now later fun key heq => ?_
    exact perform_entry op now later s (Or.inr (heq ▸ hkey))
  · exact leaseRely_elsewhere _ owner op hb now later

/-- **What a thread knows of itself** after an operation of its own. -/
theorem Tended.own {op : LedgerOp Record} (h : Tended b owner m s) (hok : LeaseOk s)
    (hallowed : (tending b owner).allows m (.ledger op)) (now later : ℚ) :
    Tended b owner (m.answered b owner (.ledger op) (op.perform now later s).1)
      (op.perform now later s).2 := by
  -- Only the branch's own lease and round move the monitor.
  by_cases hb : op.branchId = b
  · have hpermits := hallowed hb
    cases howner : op.owner? with
    | some w =>
      cases op with
      | acquire b' w' ttl =>
        obtain rfl : b' = b := hb
        rcases hperform : (LedgerOp.acquire b' w' ttl).perform now later s with ⟨r, t⟩
        have hrely := leaseRely_acquire (V := Record) (b := b') (s := s) (· = pendingRoundKey) w'
          owner ttl now later
        rw [hperform] at hrely
        obtain ⟨token, rfl, htoken⟩ := perform_acquire hok hperform
        show Tended b' owner (if b' = b' ∧ w' = owner then { token := token } else m) t
        -- Its own acquire: a new token in hand, and no round recorded under it yet.
        by_cases hw : w' = owner
        · subst hw
          rw [if_pos ⟨rfl, rfl⟩]
          refine ⟨fun hne => htoken.resolve_left hne, fun _ => Or.inr fun _ hmem => ?_⟩
          cases hmem
        · rw [if_neg fun hboth => hw hboth.2]
          exact h.rely hrely
      | release b' w' =>
        obtain rfl : b' = b := hb
        obtain rfl := hpermits.releases w' rfl
        have hreset : m.answered b' w' (.ledger (.release b' w'))
            ((LedgerOp.release b' w').perform now later s).1 = {} := if_pos ⟨rfl, rfl⟩
        rw [hreset]
        exact tended_init
      | _ => cases howner
    | none =>
      by_cases hkey : pendingRoundKey ∈ op.keys
      · obtain ⟨calls, turn, rfl, hleased⟩ := hpermits.records hkey
        have hissued := (h.issued hleased).rely (leaseRely_idle (b := b) (fun _ => False) owner
          howner now later fun _ hno => absurd hno id)
        -- The round: refused, the monitor stays; accepted, it is the one recorded.
        rcases writeControl_cases s b pendingRoundKey (some (.pendingRound calls turn)) m.token with
          ⟨_, hstale, heq⟩ | ⟨_, heq⟩
        · change Tended b owner (m.answered b owner (.ledger (.writeControl ..))
            (s.writeControl b pendingRoundKey _ m.token).1)
            (s.writeControl b pendingRoundKey _ m.token).2
          rw [heq]
          exact h
        · change Issued b owner m.token (s.writeControl b pendingRoundKey _ m.token).2 at hissued
          change Tended b owner (m.answered b owner (.ledger (.writeControl ..))
            (s.writeControl b pendingRoundKey _ m.token).1)
            (s.writeControl b pendingRoundKey _ m.token).2
          rw [heq] at hissued ⊢
          show Tended b owner (if b = b ∧ pendingRoundKey = pendingRoundKey
            then { m with round := calls.map CallEntry.id } else m) _
          rw [if_pos ⟨rfl, rfl⟩]
          refine ⟨fun _ => hissued, fun _ => Or.inr fun callId hcall => ?_⟩
          dsimp only
          rw [entry_setEntry_self]
          exact hcall
      · exact h.idle (Or.inr ⟨howner, hkey⟩) now later _
  · exact h.idle (Or.inl hb) now later _

/-- A round that the operation records, if it is accepted, holds the call while its step runs. -/
def RoundKeeps (b callId : String) (s : MemorySteps Record) (op : LedgerOp Record) : Prop :=
  ∀ calls turn token, op = .writeControl b pendingRoundKey (some (.pendingRound calls turn)) token →
    (s.writeControl b pendingRoundKey (some (.pendingRound calls turn)) token).1 = .ok () →
    (s.entry b (stepKey callId)).status = .running → callId ∈ calls.map CallEntry.id

/-- A step that ran before is one of the round after. -/
theorem InRound.kept {op : LedgerOp Record} (h : InRound b callId s)
    (hallowed : (tending b owner).allows m (.ledger op)) (now later : ℚ)
    (hkeeps : RoundKeeps b callId s op)
    (hrunning : (s.entry b (stepKey callId)).status = .running) :
    callId ∈ roundOf ((op.perform now later s).2.entry b pendingRoundKey) := by
  by_cases hop : op.branchId ≠ b ∨ pendingRoundKey ∉ op.keys
  · rw [perform_entry op now later s hop]
    exact h hrunning
  · obtain ⟨hb, hkey⟩ : op.branchId = b ∧ pendingRoundKey ∈ op.keys := by
      simpa only [not_or, not_not] using hop
    obtain ⟨calls, turn, rfl, _⟩ := (hallowed hb).records hkey
    change callId ∈ roundOf ((s.writeControl b pendingRoundKey _ m.token).2.entry b
      pendingRoundKey)
    rcases writeControl_cases s b pendingRoundKey (some (.pendingRound calls turn)) m.token with
      ⟨_, _, heq⟩ | ⟨_, heq⟩
    · rw [heq]
      exact h hrunning
    · have hmem := hkeeps calls turn m.token rfl (by rw [heq]) hrunning
      rw [heq]
      dsimp only
      rw [entry_setEntry_self]
      exact hmem

/-- **A running step is one of the round**, after an operation under the monitor. -/
theorem InRound.event {op : LedgerOp Record} (h : InRound b callId s)
    (htended : Tended b owner m s) (hallowed : (tending b owner).allows m (.ledger op))
    (now later : ℚ) (hkeeps : RoundKeeps b callId s op) :
    InRound b callId (op.perform now later s).2 := by
  intro hrunning
  rcases perform_running op now later hrunning with hbefore | ⟨token, rfl⟩
  · exact h.kept hallowed now later hkeeps hbefore
  · obtain ⟨rfl, hleased, hcall⟩ := (hallowed rfl).starts callId token rfl
    rcases htended.latest hleased with hstale | hlatest
    · rw [perform_of_stale rfl hleased hstale] at hrunning ⊢
      exact h hrunning
    · have hother : pendingRoundKey ∉
          (LedgerOp.start (V := Record) b (stepKey callId) m.token).keys := fun hmem =>
        pendingRoundKey_ne_stepKey callId (List.mem_singleton.mp hmem)
      rw [perform_entry _ now later s (Or.inr hother)]
      exact hlatest callId hcall

end events

/-! ## Section 3: Every schedule -/

section schedules

variable (owners : Owners) (b callId : String)

/-- What holds of every ledger that the workers of the branch come to. -/
structure RoundsInv {C : Type} (log : List (Code.Event C)) (s : MemorySteps Record) : Prop where
  now : s = stateAfter log
  leases : LeaseOk s
  tended : ∀ i, Tended b (owners.name i) ((tending b (owners.name i)).seen {} i log) s
  round : InRound b callId s

theorem roundsInv_init {C : Type} :
    RoundsInv owners b callId ([] : List (Code.Event C)) (.init : MemorySteps Record) where
  now := rfl
  leases := leaseOk_init
  tended _ := tended_init
  round := inRound_init

variable {owners b callId} in
/-- **One event** of a thread under the monitor. -/
theorem RoundsInv.event {C : Type} {log : List (Code.Event C)} {s : MemorySteps Record} {tid : Nat}
    {call : C} {x : Env} {o : Op} (h : RoundsInv owners b callId log s)
    (hallowed : (tending b (owners.name tid)).allows
      ((tending b (owners.name tid)).seen {} tid log) o)
    (hkeeps : KeepsDoubt b callId log ⟨tid, call, o, (perform s x o).1, (perform s x o).2⟩) :
    RoundsInv owners b callId (log ++ [⟨tid, call, o, (perform s x o).1, (perform s x o).2⟩])
      (perform s x o).2 := by
  cases o with
  | ext e =>
    have hsame : (perform s x (.ext e)).2 = s := by cases e <;> rfl
    refine ⟨by rw [stateAfter_concat], by rw [hsame]; exact h.leases, fun i => ?_,
      by rw [hsame]; exact h.round⟩
    rw [Monitor.seen_concat, hsame]
    by_cases hi : tid = i
    · subst hi
      rw [if_pos rfl]
      exact h.tended tid
    · rw [if_neg hi]
      exact h.tended i
  | ledger op =>
    refine ⟨by rw [stateAfter_concat], leaseOk_perform op x.now x.later h.leases, fun i => ?_, ?_⟩
    · rw [Monitor.seen_concat]
      by_cases hi : tid = i
      · subst hi
        rw [if_pos rfl]
        exact (h.tended tid).own h.leases hallowed x.now x.later
      · rw [if_neg hi]
        -- Another worker's operation: it has another name, so it leaves this one's lease and round.
        have hname : owners.name i ≠ owners.name tid := fun heq => hi (owners.distinct heq).symm
        exact (h.tended i).rely ((h.tended tid).others hallowed hname x.now x.later)
    · refine h.round.event (h.tended tid) hallowed x.now x.later ?_
      rintro calls turn token rfl haccepted hrunning
      refine hkeeps calls turn token ?_ (h.now ▸ hrunning)
      exact congrArg (Sigma.mk (Op.ledger _)) haccepted

variable (execution : ExecutionContext)

/-- **The round holds the call while it runs**, after every schedule in which no round leaves it
    out. -/
theorem roundsInv_after (schedule : List (Action (Worker execution.filedName) Env))
    (hrequests : ∀ worker, Action.begin worker ∈ schedule → worker.request.Tends)
    (hkeeps : Always (KeepsDoubt execution.filedName callId)
      (branchLog owners execution schedule)) :
    RoundsInv owners execution.filedName callId (branchLog owners execution schedule)
      ((branchWorkers owners execution).after { hist := ⟨.init, []⟩ } schedule).hist.now := by
  have hallowed : ∀ i, Allowed (tending execution.filedName (owners.name i)) {} i
      (branchLog owners execution schedule) := by
    refine fun i => allowed_of_begun (fun worker hworker => ?_) _ hrequests
    refine Prog.Obeys.mono ?_ (serve_tends (P := fun _ => True) hworker {} trivial)
    exact fun _ _ _ => trivial
  have hinv := hist_after (S := branchWorkers owners execution)
    (J := fun log s => (∀ i, Allowed (tending execution.filedName (owners.name i)) {} i log) →
      Always (KeepsDoubt execution.filedName callId) log →
        RoundsInv owners execution.filedName callId log s)
    (fun log s tid call x o ih hallowed hkeeps => ?_)
    (w := { hist := ⟨.init, []⟩ }) (fun _ _ => roundsInv_init owners _ callId) schedule
  · exact hinv hallowed hkeeps
  · obtain ⟨hbefore, hlast⟩ := always_concat.mp hkeeps
    have hearlier := ih (fun i => (always_concat.mp (hallowed i)).1) hbefore
    exact hearlier.event ((always_concat.mp (hallowed tid)).2 rfl) hlast

/-- **A running tool step is found**, with its version, after every schedule in which no round that
    is recorded while it runs leaves its call out. Workers are asked anything but to fork onto the
    branch, drive agents that call no tool but those of the round that was announced, and leave the
    branch's rounds and tool steps to them (`Request.Tends`). `doubt_left_out` is a run in which a
    later round leaves the call out, and the step is not found. -/
theorem running_step_listed (schedule : List (Action (Worker execution.filedName) Env))
    (hrequests : ∀ worker, Action.begin worker ∈ schedule → worker.request.Tends)
    (hkeeps : Always (KeepsDoubt execution.filedName callId)
      (branchLog owners execution schedule)) :
    let s := ((branchWorkers owners execution).after { hist := ⟨.init, []⟩ } schedule).hist.now
    (s.entry execution.filedName (stepKey callId)).status = .running →
      Listed execution callId s :=
  fun hrunning => (listed_iff hrunning).mpr
    ((roundsInv_after owners callId execution schedule hrequests hkeeps).round hrunning)

end schedules

/-! Whether a run leaves a call out can be computed. -/

section computed

variable {C : Type} (b callId : String)

/-- The ids of the round that an accepted operation records. -/
def recordedRound (e : Code.Event C) : Option (List String) :=
  match e with
  | ⟨_, _, .ledger (.writeControl b' key (some (.pendingRound calls _)) _), .ok (), _⟩ =>
    if b' = b ∧ key = pendingRoundKey then some (calls.map CallEntry.id) else none
  | _ => none

/-- Whether the round that an event records holds the call, while its step is running. -/
def keepsDoubtAt (before : List (Code.Event C)) (e : Code.Event C) : Bool :=
  (recordedRound b e).all fun round =>
    decide (((stateAfter before).entry b (stepKey callId)).status = .running → callId ∈ round)

variable {b callId}

theorem keepsDoubt_of_keepsDoubtAt {before : List (Code.Event C)} {e : Code.Event C}
    (h : keepsDoubtAt b callId before e = true) : KeepsDoubt b callId before e := by
  intro calls turn token hdid hrunning
  obtain ⟨tid, call, op, r, after⟩ := e
  cases hdid
  unfold keepsDoubtAt recordedRound at h
  dsimp only at h
  rw [if_pos ⟨rfl, rfl⟩] at h
  exact of_decide_eq_true h hrunning

end computed

/-! A worker dies in a call; the next one runs the branch with another prompt. -/

section left_out

/-- A tool that needs no approval. -/
def noteTool : ToolDefinition := { name := "note" }

def noteOptions : Options := { agent := toolAgent plainDigest noteTool 4 }

/-- The first worker dies when the tool has been called; the second is given another prompt. -/
def leftOut : List (Action (Worker mailBranch.filedName) Env) :=
  .begin ⟨mailRuntime, .run noteOptions { prompt := some "go" }⟩ ::
    works 0 18 (outside 0 (asksFor noteTool ["c"]) .continue) ++ .crash 0 ::
  .begin ⟨mailRuntime, .run noteOptions { prompt := some "more" }⟩ ::
    works 1 10 (outside 100 (asksFor noteTool ["d"]) .continue) ++
    works 1 30 (outside 100 (tells "noted") .continue)

/-- The call is in doubt, its worker is gone, and it is not found. -/
theorem doubt_left_out :
    let w := (branchWorkers ownerNames mailBranch).after { hist := ⟨.init, []⟩ } leftOut
    w.threads 0 = none ∧
      (w.hist.now.entry mailBranch.filedName (stepKey "c")).status = .running ∧
      ¬ Listed mailBranch "c" w.hist.now := by
  intro w
  have hgone : (w.threads 0).isNone = true := by decide +kernel
  have hrunning : (w.hist.now.entry mailBranch.filedName (stepKey "c")).status = .running := by
    decide +kernel
  have hround : roundOf (w.hist.now.entry mailBranch.filedName pendingRoundKey) = ["d"] := by
    decide +kernel
  refine ⟨Option.isNone_iff_eq_none.mp hgone, hrunning, fun hlisted => ?_⟩
  have hmem := (listed_iff hrunning).mp hlisted
  rw [hround] at hmem
  simp at hmem

/-- The second worker is given the same prompt: the model's answer is replayed, and the call that
    is in doubt stops it. -/
def heldIn : List (Action (Worker mailBranch.filedName) Env) :=
  .begin ⟨mailRuntime, .run noteOptions { prompt := some "go" }⟩ ::
    works 0 18 (outside 0 (asksFor noteTool ["c"]) .continue) ++ .crash 0 ::
  .begin ⟨mailRuntime, .run noteOptions { prompt := some "go" }⟩ ::
    works 1 40 (outside 100 (tells "noted") .continue)

theorem running_step_listed_held :
    let s := ((branchWorkers ownerNames mailBranch).after { hist := ⟨.init, []⟩ } heldIn).hist.now
    (s.entry mailBranch.filedName (stepKey "c")).status = .running ∧ Listed mailBranch "c" s := by
  intro s
  have hrunning : (s.entry mailBranch.filedName (stepKey "c")).status = .running := by
    decide +kernel
  have hkeeps : Always (fun before e => keepsDoubtAt mailBranch.filedName "c" before e = true)
      (branchLog ownerNames mailBranch heldIn) := by decide +kernel
  have hrequests : ∀ worker, Action.begin worker ∈ heldIn → worker.request.Tends := by
    intro worker hworker
    have hboth : worker = ⟨mailRuntime, .run noteOptions { prompt := some "go" }⟩ := by
      simpa [heldIn, works] using hworker
    subst hboth
    exact toolAgent_keepsToRounds plainDigest noteTool 4
  exact ⟨hrunning, running_step_listed ownerNames "c" mailBranch heldIn hrequests
    (fun j e hj => keepsDoubt_of_keepsDoubtAt (hkeeps j e hj)) hrunning⟩

end left_out

end Semora
