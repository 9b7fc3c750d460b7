import Semora.Agent.Finalizations
import Semora.Agent.LedgerHistory
import Semora.Agent.Methods

/-! # No Lease Outlives Its Worker

    Every method of the runtime that takes the branch's lease gives it back,
    whatever its body returns or raises. So the lease is held, after every
    schedule, only by a worker that is still inside the method that took it,
    or that crashed there. What is left of a crash is a lease that expires;
    nothing else keeps a branch from the next worker. -/

namespace Semora

open Pool MemorySteps

/-! ## Section 1: Inside and outside -/

/-- Where a thread stands with the lease of its branch. -/
inductive Tenure where
  | outside
  /-- It is about to take the lease. -/
  | entering
  | inside
  deriving DecidableEq, Repr

/-- Where the answer to `acquire` leads. -/
def Tenure.granted : Except StoreError Int → Tenure
  | .ok token => if token = 0 then .outside else .inside
  | .error _ => .outside

/-- An exchange of the thread. -/
def Tenure.after (b : String) (m : Tenure) : (o : Op) → o.Reply → Tenure
  | .ext (.mark (.leasing _)), _ => .entering
  | .ledger (.acquire b' _ _), r =>
    if b' = b ∧ m = .entering then Tenure.granted r else m
  | .ledger (.release b' _), _ => if b' = b then .outside else m
  | _, _ => m

/-- Watches a thread: it enters only from outside, takes the lease where it enters, or to renew it,
    and gives it back, all under its own name. -/
def tenancy (b owner : String) (renews : Bool) : Monitor Op Op.Reply Tenure where
  next m o r := m.after b o r
  allows m
    | .ext (.mark (.leasing _)) => m = .outside
    | .ledger (.acquire b' owner' _) =>
      b' = b → owner' = owner ∧ m = if renews then .outside else .entering
    | .ledger (.release b' owner') => b' = b → owner' = owner ∧ renews = false
    | _ => True

/-- What has nothing to do with the lease. -/
def Op.Unleased : Op → Prop
  | .ext (.mark (.leasing _)) => False
  | .ledger op => op.owner? = none
  | _ => True

/-- What has nothing to do with the lease leaves a thread where it stands. -/
theorem Op.Unleased.tenure {o : Op} (h : o.Unleased) (b : String) (m : Tenure) (r : o.Reply) :
    m.after b o r = m := by
  cases o with
  | ext e =>
    cases e with
    | mark mk =>
      cases mk with
      | leasing method => exact h.elim
      | _ => rfl
    | _ => rfl
  | ledger op =>
    cases op with
    | acquire b' owner ttl => cases h
    | release b' owner => cases h
    | _ => rfl

theorem Op.Unleased.routine (b owner : String) (renews : Bool) (P : Tenure → Prop) (o : Op)
    (h : o.Unleased) : o.Routine (tenancy b owner renews) P := by
  intro m hm
  have hkept : ∀ r, P (m.after b o r) := by
    intro r
    rw [h.tenure b m r]
    exact hm
  refine ⟨?_, hkept⟩
  cases o with
  | ext e =>
    cases e with
    | mark mk =>
      cases mk with
      | leasing method => exact h.elim
      | _ => trivial
    | _ => trivial
  | ledger op =>
    cases op with
    | acquire b' owner' ttl => cases h
    | release b' owner' => cases h
    | _ => trivial

theorem Op.Plain.unleased {o : Op} (h : o.Plain) : o.Unleased := by
  cases o with
  | ledger op => exact h.1
  | ext e =>
    cases e with
    | mark mk =>
      cases mk with
      | leasing method => exact h
      | _ => trivial
    | _ => trivial

/-! ## Section 2: The methods -/

section methods

variable (owner : String) {runtime : AgentRuntime} {execution : ExecutionContext}

/-- The journal has nothing to do with the lease. -/
theorem unleased_key (boundary : ExecutionBoundary) (key : String) :
    PermitsKey boundary Op.Unleased key := fun _ _ howner _ _ => howner

theorem attempt_tenancy (b : String) (P : Tenure → Prop) (execution : ExecutionContext)
    (options : Options) (token : Int) (args : AttemptArgs) :
    Code.Abides (tenancy b owner false) P (runtime.attempt execution token options args) := by
  have hunleased : ∀ o : Op, o.Unleased → o.Routine (tenancy b owner false) P :=
    Op.Unleased.routine b owner false P
  have hmodel : ∀ (boundary : ExecutionBoundary) key messages, Code.Only Op.Unleased
      (boundary.journal.model (modelStepKey key) (Code.ask (.model messages))) :=
    fun boundary key messages => model_only (unleased_key boundary _) (Code.only_ask rfl trivial)
  have htool : ∀ (boundary : ExecutionBoundary) (call : ToolCall) args, Code.Only Op.Unleased
      (boundary.journal.tool call.toolCallId (Code.ask (.handler call args))) :=
    fun boundary call args => tool_only (unleased_key boundary _) (Code.only_ask rfl trivial)
  exact attempt_abides (fun o ho => hunleased o ho.unleased)
    (fun messages tools => (hmodel _ _ messages).abides hunleased)
    fun call toolArgs => (htool _ call toolArgs).abides hunleased

/-- **What takes the lease gives it back**, whatever the body does. -/
theorem lease_tenancy {α : Type} (method : Method) (body : Int → Code α)
    (hbody : ∀ token,
      Code.Abides (tenancy execution.filedName owner false) (· = .inside) (body token)) :
    Code.Abides (tenancy execution.filedName owner false) (· = .outside)
      (runtime.lease execution owner method body) := by
  have hmark : Code.Watched (tenancy execution.filedName owner false) (· = .outside)
      (Code.mark (.leasing method)) (fun _ => (· = .entering)) fun _ => (· = .outside) :=
    Code.Watched.mark (fun _ hm => hm) fun _ _ => rfl
  -- The token says on which side of the door the thread stands.
  have hacquire : Code.Watched (tenancy execution.filedName owner false) (· = .entering)
      (execution.store.acquire execution.branchId owner runtime.leaseTtl)
      (fun token m => m = if token = 0 then .outside else .inside) fun _ => (· = .outside) := by
    refine Code.Watched.ledger (fun m hm _ => ⟨rfl, hm⟩) (fun m hm (token : Int) => ?_)
      fun m hm e => ?_
    · exact if_pos (c := _ ∧ m = .entering) ⟨rfl, hm⟩
    · exact if_pos (c := _ ∧ m = .entering) ⟨rfl, hm⟩
  -- A release leads outside whatever it is answered.
  have hrelease : Code.Watched (tenancy execution.filedName owner false) (· = .inside)
      (execution.store.release execution.branchId owner) (fun _ => (· = .outside))
      fun _ => (· = .outside) :=
    Code.Watched.ledger (fun _ _ _ => ⟨rfl, rfl⟩) (fun _ _ _ => if_pos rfl) fun _ _ _ => if_pos rfl
  refine hmark.bind fun _ => hacquire.bind fun (token : Int) => ?_
  refine Code.Watched.ite (fun hzero => ?_) fun hnonzero => ?_
  · exact Code.Watched.throw fun m hm => by rw [hm, if_pos hzero]
  · have hinside : ∀ m : Tenure, (m = if token = 0 then .outside else .inside) → m = .inside :=
      fun m hm => by rw [hm, if_neg hnonzero]
    exact ((hbody token).finally_ hrelease).pre hinside

end methods

/-! ## Section 3: Workers -/

section workers

variable (owners : Owners) {execution : ExecutionContext} (i : Nat)
  (worker : Worker execution.filedName)

/-- The worker whose lease the renewal task renews. -/
def Request.renewed {b : String} : Request b → Option Nat
  | .renew j => some j
  | _ => none

/-- The name that worker `i` has for the lease. -/
def Worker.leaseName {b : String} (worker : Worker b) (i : Nat) : String :=
  owners.name (worker.request.renewed.getD i)

/-- A call that is not about the branch's lease. -/
theorem other_tenancy {b : String} {op : LedgerOp Record}
    (hop : op.branchId ≠ b ∨ op.owner? = none) (owner : String) (renews : Bool) :
    Op.Routine (tenancy b owner renews) (· = .outside) (.ledger op) := by
  have hunleased : op.owner? = none →
      Op.Routine (tenancy b owner renews) (· = .outside) (.ledger op) :=
    fun howner => Op.Unleased.routine b owner renews _ _ howner
  rcases hop with hother | howner
  · rintro m rfl
    cases op with
    | acquire b' owner' ttl => exact ⟨fun h => absurd h hother, fun _ => if_neg fun h => hother h.1⟩
    | release b' owner' => exact ⟨fun h => absurd h hother, fun _ => if_neg hother⟩
    | _ => exact hunleased rfl _ rfl
  · exact hunleased howner

/-- **Whatever a worker is asked**, it ends outside. -/
theorem serve_tenancy :
    Code.Abides (tenancy execution.filedName (worker.leaseName owners i)
      worker.request.renewed.isSome) (· = .outside) (serve owners execution i worker) := by
  -- Every method keeps the discipline through `lease`; what is not served is a renewal, or the
  -- operation of another branch.
  by_cases hserved : worker.request.served = true
  · have hnone : worker.request.renewed = none := by
      obtain ⟨runtime, request⟩ := worker
      cases request with
      | renew j => cases hserved
      | _ => rfl
    rw [Worker.leaseName, hnone]
    exact serve_abides owners i hserved
      (fun o ho => Op.Unleased.routine _ _ _ (· = .inside) o ho.unleased)
      (fun o ho => Op.Unleased.routine _ _ _ (· = .outside) o ho.unleased)
      (fun _ _ _ token args => attempt_tenancy _ _ _ _ _ token args)
      fun _ method body hbody => lease_tenancy _ method body hbody
  · obtain ⟨runtime, request⟩ := worker
    cases request with
    | renew j =>
      -- the task renews from outside, for the worker inside
      have hkept : ∀ (m : Tenure), m = .outside → ∀ r : Except StoreError Int,
          m.after execution.filedName (.ledger (.acquire
            (execution.store.name execution.branchId) (owners.name j) runtime.leaseTtl)) r
              = .outside := by
        rintro m rfl r
        exact if_neg fun h => nomatch h.2
      have hrenewed : Code.Abides (tenancy execution.filedName (owners.name j) true)
          (· = .outside)
          (execution.store.acquire execution.branchId (owners.name j) runtime.leaseTtl) :=
        Code.Watched.ledger (fun m hm _ => ⟨rfl, hm⟩) (fun m hm token => hkept m hm (.ok token))
          fun m hm e => hkept m hm (.error e)
      exact hrenewed.bind fun _ => Code.abides_pure ()
    | other op hop =>
      have hother := other_tenancy (hop.imp_right And.left) (owners.name i) false
      refine Code.Abides.discard (Code.Watched.ledger (fun m hm => (hother m hm).1)
        (fun m hm a => (hother m hm).2 (.ok a)) fun m hm e => (hother m hm).2 (.error e))
    | _ => exact absurd rfl hserved

end workers

/-! ## Section 4: The lease in the log -/

section log

variable {C : Type} (owners : Owners) (b : String)

/-- Where thread `tid` stands. -/
def tenure (tid : Nat) (log : List (Code.Event C)) : Tenure :=
  (tenancy b "" false).seen .outside tid log

/-- The event takes and gives the lease of `b` as the methods do. -/
structure KeepsTenure (before : List (Code.Event C)) (e : Code.Event C) : Prop where
  enters : ∀ method, e.op = .ext (.mark (.leasing method)) → tenure b e.tid before = .outside
  takes : ∀ owner ttl, e.op = .ledger (.acquire b owner ttl) →
    (owner = owners.name e.tid ∧ tenure b e.tid before = .entering) ∨
    (tenure b e.tid before = .outside ∧ ∃ j, owner = owners.name j ∧ tenure b j before = .inside)
  gives : ∀ owner, e.op = .ledger (.release b owner) → owner = owners.name e.tid

/-- Whoever holds the lease is inside. -/
structure HoldersInside (log : List (Code.Event C)) (s : MemorySteps Record) : Prop where
  ok : LeaseOk s
  inside : ∀ held, s.leases.get? b = some held →
    held.owner = "" ∨ ∃ i, held.owner = owners.name i ∧ tenure b i log = .inside

variable {owners b} {log : List (Code.Event C)} {s : MemorySteps Record}

theorem tenure_concat (tid : Nat) (log : List (Code.Event C)) (e : Code.Event C) :
    tenure b tid (log ++ [e])
      = if e.tid = tid then (tenure b tid log).after b e.op e.reply else tenure b tid log :=
  Monitor.seen_concat log e

/-- An event that changes no lease of the branch, and after which no thread has left. -/
theorem HoldersInside.keep (h : HoldersInside owners b log s) {e : Code.Event C}
    {s' : MemorySteps Record} (hok : LeaseOk s') (hleases : s'.leases.get? b = s.leases.get? b)
    (hstays : tenure b e.tid log = .inside →
      (tenure b e.tid log).after b e.op e.reply = .inside) :
    HoldersInside owners b (log ++ [e]) s' := by
  refine ⟨hok, fun held hheld => ?_⟩
  rw [hleases] at hheld
  refine (h.inside held hheld).imp_right ?_
  rintro ⟨i, howner, hinside⟩
  refine ⟨i, howner, ?_⟩
  rw [tenure_concat]
  by_cases htid : e.tid = i
  · subst htid
    rw [if_pos rfl]
    exact hstays hinside
  · rwa [if_neg htid]

/-- A call of the ledger, answered. -/
abbrev ledgerEvent (tid : Nat) (call : C) (op : LedgerOp Record) (now later : ℚ)
    (s : MemorySteps Record) : Code.Event C :=
  ⟨tid, call, .ledger op, (op.perform now later s).1, (op.perform now later s).2⟩

/-- A thread takes the lease of its own. -/
theorem HoldersInside.acquire_own (h : HoldersInside owners b log s) (tid : Nat) (call : C)
    (ttl now later : ℚ) (hentering : tenure b tid log = .entering) :
    HoldersInside owners b
      (log ++ [ledgerEvent tid call (.acquire b (owners.name tid) ttl) now later s])
      (s.acquire b (owners.name tid) ttl now later).2 := by
  have hok : LeaseOk (s.acquire b (owners.name tid) ttl now later).2 :=
    leaseOk_perform (.acquire b (owners.name tid) ttl) now later h.ok
  have hat : tenure b tid
      (log ++ [ledgerEvent tid call (.acquire b (owners.name tid) ttl) now later s])
        = if (s.acquire b (owners.name tid) ttl now later).1 = 0 then .outside else .inside := by
    rw [tenure_concat, if_pos rfl, hentering]
    exact if_pos ⟨rfl, rfl⟩
  -- whoever takes it holds a token that is not zero
  have htaken : 0 < (s.acquire b (owners.name tid) ttl now later).1 →
      (∀ held, (s.acquire b (owners.name tid) ttl now later).2.leases.get? b = some held →
        held.owner = owners.name tid) →
      HoldersInside owners b
        (log ++ [ledgerEvent tid call (.acquire b (owners.name tid) ttl) now later s])
        (s.acquire b (owners.name tid) ttl now later).2 := by
    intro hpos howner
    refine ⟨hok, fun held hheld => Or.inr ⟨tid, howner held hheld, ?_⟩⟩
    rw [hat, if_neg (by omega)]
  -- Renewed or newly taken, the row is this thread's; refused, the row is as it was and nobody
  -- inside has moved.
  rcases acquire_cases s b (owners.name tid) ttl now later with
    ⟨held, hheld, _, heq⟩ | ⟨held, hheld, _, _, heq⟩ | ⟨_, heq⟩
  · refine htaken ?_ fun row hrow => ?_
    · rw [heq]
      exact ((h.ok b).2 held hheld).2
    · rw [heq, Dict.get?_set_self] at hrow
      exact (Option.some.inj hrow) ▸ rfl
  · refine h.keep hok (by rw [heq]) fun hinside => ?_
    rw [show tenure b tid log = .entering from hentering] at hinside
    cases hinside
  · have hissued := (h.ok b).1
    refine htaken ?_ fun row hrow => ?_
    · rw [heq]
      show 0 < s.issued b + 1
      omega
    · rw [heq, Dict.get?_set_self] at hrow
      exact (Option.some.inj hrow) ▸ rfl

/-- A renewal task takes the lease for the worker it renews. -/
theorem HoldersInside.acquire_renewed (h : HoldersInside owners b log s) (tid : Nat) (call : C)
    {j : Nat} (ttl now later : ℚ) (houtside : tenure b tid log = .outside)
    (hinside : tenure b j log = .inside) :
    HoldersInside owners b
      (log ++ [ledgerEvent tid call (.acquire b (owners.name j) ttl) now later s])
      (s.acquire b (owners.name j) ttl now later).2 := by
  have hok := leaseOk_perform (.acquire b (owners.name j) ttl) now later h.ok
  -- The renewing task stands outside, and its acquire moves nobody.
  have hsame : ∀ i, tenure b i
      (log ++ [ledgerEvent tid call (.acquire b (owners.name j) ttl) now later s])
        = tenure b i log := by
    intro i
    rw [tenure_concat]
    by_cases htid : tid = i
    · subst htid
      rw [if_pos rfl, houtside]
      exact if_neg fun h => nomatch h.2
    · exact if_neg htid
  refine ⟨hok, fun held hheld => ?_⟩
  -- The row names `j`, who is inside, or is left as it was.
  rcases acquire_cases s b (owners.name j) ttl now later with
    ⟨row, hrow, _, heq⟩ | ⟨row, hrow, _, _, heq⟩ | ⟨_, heq⟩
  · rw [heq, Dict.get?_set_self] at hheld
    exact Or.inr ⟨j, (Option.some.inj hheld) ▸ rfl, (hsame j).trans hinside⟩
  · rw [heq] at hheld
    refine (h.inside held hheld).imp_right ?_
    rintro ⟨i, howner, hi⟩
    exact ⟨i, howner, (hsame i).trans hi⟩
  · rw [heq, Dict.get?_set_self] at hheld
    exact Or.inr ⟨j, (Option.some.inj hheld) ▸ rfl, (hsame j).trans hinside⟩

/-- A thread gives its own lease back. -/
theorem HoldersInside.release_own (h : HoldersInside owners b log s) (tid : Nat) (call : C)
    (now later : ℚ) :
    HoldersInside owners b
      (log ++ [ledgerEvent tid call (.release b (owners.name tid)) now later s])
      (s.release b (owners.name tid) now) := by
  have hok := leaseOk_perform (.release b (owners.name tid)) now later h.ok
  refine ⟨hok, fun held hheld => ?_⟩
  rcases release_cases s b (owners.name tid) now with ⟨row, hrow, _, heq⟩ | ⟨hother, heq⟩
  · rw [heq, Dict.get?_set_self] at hheld
    exact Or.inl ((Option.some.inj hheld) ▸ rfl)
  · rw [heq] at hheld
    refine (h.inside held hheld).imp_right ?_
    rintro ⟨i, howner, hi⟩
    have hne : tid ≠ i := by
      rintro rfl
      exact hother held hheld howner
    refine ⟨i, howner, ?_⟩
    rw [tenure_concat]
    exact (if_neg hne).trans hi

/-- What others than `acquire` and `release` of the branch do. -/
theorem tenure_after_other {o : Op} (m : Tenure) (r : o.Reply)
    (hmark : ∀ method, o ≠ .ext (.mark (.leasing method)))
    (hacquire : ∀ owner ttl, o ≠ .ledger (.acquire b owner ttl))
    (hrelease : ∀ owner, o ≠ .ledger (.release b owner)) : m.after b o r = m := by
  cases o with
  | ext e =>
    cases e with
    | mark mk =>
      cases mk with
      | leasing method => exact absurd rfl (hmark method)
      | _ => rfl
    | _ => rfl
  | ledger op =>
    cases op with
    | acquire b' owner ttl =>
      exact if_neg fun h => hacquire owner ttl (by rw [h.1])
    | release b' owner =>
      exact if_neg fun h => hrelease owner (by rw [h])
    | _ => rfl

/-- One call of the ledger. -/
theorem HoldersInside.ledger (h : HoldersInside owners b log s) (tid : Nat) (call : C)
    (op : LedgerOp Record) (now later : ℚ)
    (hkeeps : KeepsTenure owners b log (ledgerEvent tid call op now later s)) :
    HoldersInside owners b (log ++ [ledgerEvent tid call op now later s])
      (op.perform now later s).2 := by
  have hok := leaseOk_perform op now later h.ok
  -- Only two operations of the branch write its lease.
  by_cases hacquire : ∃ owner ttl, op = .acquire b owner ttl
  · obtain ⟨owner, ttl, rfl⟩ := hacquire
    rcases hkeeps.takes owner ttl rfl with ⟨howner, hentering⟩ | ⟨houtside, j, rfl, hinside⟩
    · replace howner : owner = owners.name tid := howner
      subst howner
      exact h.acquire_own tid call ttl now later hentering
    · exact h.acquire_renewed tid call ttl now later houtside hinside
  · by_cases hrelease : ∃ owner, op = .release b owner
    · obtain ⟨owner, rfl⟩ := hrelease
      have howner : owner = owners.name tid := hkeeps.gives owner rfl
      subst howner
      exact h.release_own tid call now later
    · -- Anything else leaves the lease as it is, and every thread where it stands.
      have hleases : (op.perform now later s).2.leases.get? b = s.leases.get? b := by
        by_cases hbranch : op.branchId = b
        · subst hbranch
          cases howner : op.owner? with
          | none => rw [(perform_sameLeases op howner now later s).1]
          | some owner =>
            cases op with
            | acquire b' owner' ttl => exact absurd ⟨owner', ttl, rfl⟩ hacquire
            | release b' owner' => exact absurd ⟨owner', rfl⟩ hrelease
            | _ => cases howner
        · exact ((perform_frame op now later s hbranch).lease).symm
      have hstays : ∀ r, (tenure b tid log).after b (.ledger op) r = tenure b tid log := by
        intro r
        refine tenure_after_other _ r nofun (fun owner ttl heq => ?_) fun owner heq => ?_
        · exact hacquire ⟨owner, ttl, Op.ledger.inj heq⟩
        · exact hrelease ⟨owner, Op.ledger.inj heq⟩
      exact h.keep hok hleases fun hinside => (hstays _).trans hinside

/-- What comes from outside. -/
theorem HoldersInside.ext (h : HoldersInside owners b log s) (tid : Nat) (call : C) (e : External)
    (r : Op.Reply (.ext e)) (hkeeps : KeepsTenure owners b log ⟨tid, call, .ext e, r, s⟩) :
    HoldersInside owners b (log ++ [⟨tid, call, .ext e, r, s⟩]) s := by
  refine h.keep h.ok rfl fun hinside => ?_
  have hstays : (tenure b tid log).after b (.ext e) r = tenure b tid log := by
    refine tenure_after_other _ r (fun method heq => ?_) nofun nofun
    -- it enters from outside
    have houtside : tenure b tid log = .outside := hkeeps.enters method heq
    rw [houtside] at hinside
    cases hinside
  exact hstays.trans hinside

/-- **Whoever holds the lease is inside**, over every log whose threads take and give it as the
    methods do. -/
theorem CarriesOut.holdersInside {calls : List (LedgerCall Record)} (h : CarriesOut log calls)
    (hkeeps : Always (KeepsTenure owners b) log) :
    HoldersInside owners b log (stateAfter log) := by
  induction h with
  | nil => exact ⟨leaseOk_init, fun held hheld => by cases hheld⟩
  | call h tid call op now later ih =>
    obtain ⟨hbefore, hlast⟩ := always_concat.mp hkeeps
    rw [stateAfter_concat]
    rw [← h.now_eq] at hlast ⊢
    exact (ih hbefore).ledger tid call op now later hlast
  | outside h tid call e r ih =>
    obtain ⟨hbefore, hlast⟩ := always_concat.mp hkeeps
    rw [stateAfter_concat]
    rw [← h.now_eq] at hlast ⊢
    exact (ih hbefore).ext tid call e r hlast

end log

/-! ## Section 5: Every schedule -/

section schedules

variable (owners : Owners) (execution : ExecutionContext)

/-- A renewal task works while its worker is inside: it is made there, and cancelled before the
    lease is given back. In the source the task is the worker's own; here it is a thread of its
    own, so that it can move between any two steps of the worker, and this says when it may. -/
def Renewing (log : List (Code.Event (Worker execution.filedName))) : Prop :=
  Always (fun before e => ∀ j, e.call.request.renewed = some j →
    tenure execution.filedName j before = .inside) log

/-- The workers take and give the lease as the methods do. -/
theorem branch_tenure (schedule : List (Action (Worker execution.filedName) Env))
    (hrenewing : Renewing execution (branchLog owners execution schedule)) :
    Always (KeepsTenure owners execution.filedName) (branchLog owners execution schedule) := by
  intro k e hk
  -- Each thread keeps the discipline on its own, whatever the others do.
  have hallowed : (tenancy execution.filedName (e.call.leaseName owners e.tid)
      e.call.request.renewed.isSome).allows
        (tenure execution.filedName e.tid ((branchLog owners execution schedule).take k)) e.op := by
    refine allowed_after (Prog.Obeys.mono ?_ (serve_tenancy owners e.tid e.call .outside rfl)) _
      schedule (List.mem_of_getElem? hk) rfl rfl k e hk rfl
    exact fun _ _ _ => trivial
  have hrenewed := hrenewing k e hk
  generalize (branchLog owners execution schedule).take k = before at hallowed hrenewed
  refine ⟨fun method heq => ?_, fun owner ttl heq => ?_, fun owner heq => ?_⟩
  · rw [heq] at hallowed
    exact hallowed
  · rw [heq] at hallowed
    obtain ⟨howner, hstands⟩ := hallowed rfl
    cases hwhose : e.call.request.renewed with
    | none =>
      rw [Worker.leaseName, hwhose] at howner
      rw [hwhose] at hstands
      exact Or.inl ⟨howner, hstands⟩
    | some j =>
      rw [Worker.leaseName, hwhose] at howner
      rw [hwhose] at hstands
      exact Or.inr ⟨hstands, j, howner, hrenewed j hwhose⟩
  · rw [heq] at hallowed
    obtain ⟨howner, hnone⟩ := hallowed rfl
    rwa [Worker.leaseName, Option.not_isSome_iff_eq_none.mp (Bool.eq_false_iff.mp hnone)] at howner

/-- A worker that is inside has crashed there, or has more to do. -/
theorem inside_unfinished (schedule : List (Action (Worker execution.filedName) Env)) {i : Nat}
    (hinside : tenure execution.filedName i (branchLog owners execution schedule) = .inside) :
    Action.crash i ∈ schedule ∨ ∃ worker o next,
      ((branchWorkers owners execution).after { hist := ⟨.init, []⟩ } schedule).threads i
        = some ⟨worker, .perform o next⟩ := by
  have hunderway := underway_after (S := branchWorkers owners execution) MemorySteps.init schedule
  have hseen : tenure execution.filedName i (branchLog owners execution schedule)
      = (tenancy execution.filedName "" false).through .outside
          (exchanged i (branchLog owners execution schedule)) := seen_eq_through _ _ _ _
  by_cases hbegun : i < ((branchWorkers owners execution).after { hist := ⟨.init, []⟩ }
      schedule).calls.length
  · obtain ⟨rest, hpath, hleft⟩ := hunderway.path i _ (List.getElem?_eq_getElem hbegun)
    cases hth : ((branchWorkers owners execution).after { hist := ⟨.init, []⟩ }
        schedule).threads i with
    | none =>
      refine Or.inl ((crashed_of_none hbegun hth).resolve_left fun h => ?_)
      exact absurd h.1 (Nat.not_lt_zero i)
    | some th =>
      rw [hleft th hth]
      have hobeys := (serve_tenancy owners i _ .outside rfl).path hpath
      cases rest with
      | pure r =>
        -- the request is served, and left its worker outside
        have houtside : tenure execution.filedName i (branchLog owners execution schedule)
            = .outside := by
          rw [hseen]
          cases r <;> exact hobeys
        rw [houtside] at hinside
        cases hinside
      | perform o next => exact Or.inr ⟨_, o, next, rfl⟩
  · have hidle := hunderway.begun.idle (Nat.le_of_not_lt hbegun)
    have hnone : exchanged i (branchLog owners execution schedule) = [] :=
      List.filterMap_eq_nil_iff.mpr fun e he => if_neg (hidle e he)
    rw [hseen, hnone] at hinside
    cases hinside

/-- **No lease outlives its worker**: after every schedule the lease of the branch is given back, or
    it is held in the name of a worker that has taken it and is still inside the method that took
    it, or that crashed there. -/
theorem leases_given_back (schedule : List (Action (Worker execution.filedName) Env))
    (hrenewing : Renewing execution (branchLog owners execution schedule)) {held : Lease}
    (hheld : (stateAfter (branchLog owners execution schedule)).leases.get? execution.filedName
      = some held) :
    held.owner = "" ∨ ∃ i, held.owner = owners.name i ∧
      tenure execution.filedName i (branchLog owners execution schedule) = .inside ∧
      (Action.crash i ∈ schedule ∨ ∃ worker o next,
        ((branchWorkers owners execution).after { hist := ⟨.init, []⟩ } schedule).threads i
          = some ⟨worker, .perform o next⟩) := by
  obtain ⟨calls, hcarries⟩ := carries_after
    (fun i worker => (serve owners execution i worker).run) schedule
  have hholders := hcarries.holdersInside (branch_tenure owners execution schedule hrenewing)
  refine (hholders.inside held hheld).imp_right ?_
  rintro ⟨i, howner, hinside⟩
  exact ⟨i, howner, hinside, inside_unfinished owners execution schedule hinside⟩

end schedules

/-- The first worker takes the lease and dies under it, after its renewal task has worked once. -/
def diesInside : List (Action (Worker mailBranch.filedName) Env) :=
  .begin ⟨mailRuntime, .run mailOptions { prompt := some "go" }⟩ ::
    works 0 8 (outside 0 (asksFor mailTool ["c"]) .continue) ++
  .begin ⟨mailRuntime, .renew 0⟩ :: works 1 1 (outside 20 (tells "sent") .continue) ++ [.crash 0]

/-- The renewal has put the expiry off; the lease is still the first worker's, who has crashed. -/
theorem leases_given_back_crashed :
    let log := branchLog ownerNames mailBranch diesInside
    (stateAfter log).leases.get? mailBranch.filedName = some ⟨"w", 1, 80⟩ ∧
    ∃ i, "w" = ownerNames.name i ∧ tenure mailBranch.filedName i log = .inside ∧
      (Action.crash i ∈ diesInside ∨ ∃ worker o next,
        ((branchWorkers ownerNames mailBranch).after { hist := ⟨.init, []⟩ } diesInside).threads i
          = some ⟨worker, .perform o next⟩) := by
  intro log
  have hinside : log.all (fun e => decide (e.call.request.renewed = none ∨
      (e.call.request.renewed = some 0 ∧ e.tid = 1))) = true := by decide +kernel
  have htenure : ∀ k, log[k]?.map Event.tid = some 1 →
      tenure mailBranch.filedName 0 (log.take k) = .inside := by
    intro k hk
    have hlt : k < 9 := by
      by_contra hge
      have hnone : log[k]? = none :=
        List.getElem?_eq_none (Nat.le_trans (by decide +kernel) (Nat.le_of_not_lt hge))
      rw [hnone] at hk
      cases hk
    have hat : ∀ k < 9, log[k]?.map Event.tid = some 1 →
        tenure mailBranch.filedName 0 (log.take k) = .inside := by decide +kernel
    exact hat k hlt hk
  have hheld : (stateAfter log).leases.get? mailBranch.filedName = some ⟨"w", 1, 80⟩ := by
    decide +kernel
  have hgiven := leases_given_back ownerNames mailBranch diesInside (fun k e hk j hj => ?_) hheld
  · exact ⟨hheld, hgiven.resolve_left (by decide)⟩
  · have he := of_decide_eq_true (List.all_eq_true.mp hinside e (List.mem_of_getElem? hk))
    rw [hj] at he
    obtain ⟨hzero, htid⟩ := he.resolve_left nofun
    obtain rfl := Option.some.inj hzero
    exact htenure k (by rw [hk, Option.map_some, htid])

end Semora
