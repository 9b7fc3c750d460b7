import Semora.Store.PostgresFence
import Semora.Store.PostgresRows

/-! # Leases in PostgresSteps

    `acquire` is one statement, but its transaction is open until it commits,
    and other workers' statements run meanwhile. The upsert locks the lease
    row whether it takes the lease or not, so at its commit the row is the one
    that it decided by.

    The main result says what this makes of the leases: in every schedule, by
    the order of commits, a branch is leased to one owner at a time, and the
    tokens tell the terms apart. -/

namespace Semora

open ReadCommitted PostgresSteps

section leases

variable {V : Type}

/-! ## Section 1: Statement -/

/-- The lease of a branch, as the calls that have committed leave it. -/
structure LeaseTerm where
  owner : String
  token : Int
  expires : ℚ
  released : Bool := false

/-- The lease after an acquisition that returned `token`; zero is contention. -/
def termFrom (term : Option LeaseTerm) (owner : String) (expires : ℚ) (token : Int) :
    Option LeaseTerm :=
  if token = 0 then term else some { owner, token, expires }

/-- What an event does to the lease of `b`. A release that found no row of its owner has not
    released anything. -/
def termAfter (b : String) (term : Option LeaseTerm) : PgEvent V → Option LeaseTerm
  | .committed _ ⟨.acquire b' owner ttl, now⟩ token _ =>
      if b' = b then termFrom term owner (now + ttl) token else term
  | .committed _ ⟨.release b' _, _⟩ _ true =>
      if b' = b then term.map fun term => { term with released := true } else term
  | _ => term

def termOf (b : String) (log : List (PgEvent V)) : Option LeaseTerm :=
  log.foldl (termAfter b) none

/-- The token that `owner` is to be given at `now`. -/
def tokenFor (owner : String) (now : ℚ) : Option LeaseTerm → Int
  | none => 1
  | some term =>
    if term.released then term.token + 1
    else if term.owner = owner then term.token
    else if term.expires < now then term.token + 1
    else 0

/-- An acquisition is given the token it is to be given, and a release that released something
    was the tenant's. -/
def LeaseRight (before : List (PgEvent V)) : PgEvent V → Prop
  | .committed _ ⟨.acquire b owner _, now⟩ token _ => token = tokenFor owner now (termOf b before)
  | .committed _ ⟨.release b owner, _⟩ _ true =>
      ∃ term, termOf b before = some term ∧ term.released = false ∧ term.owner = owner
  | _ => True

/-- The owner that a call takes or gives back a lease for. -/
def PgOp.owner? : PgOp V → Option String
  | .acquire _ owner _ => some owner
  | .release _ owner => some owner
  | _ => none

/-- The owner is not the one that marks a lease released, and the clock is past the time that
    does. -/
def OwnerNamed : PgEvent V → Prop
  | .committed _ call _ _ => ∀ owner ∈ call.op.owner?, owner ≠ "" ∧ 0 < call.now
  | _ => True

instance : DecidablePred (OwnerNamed : PgEvent V → Prop)
  | .ran .. => isTrue trivial
  | .committed _ call _ _ =>
      inferInstanceAs (Decidable (∀ owner ∈ call.op.owner?, owner ≠ "" ∧ 0 < call.now))
  | .raised .. => isTrue trivial

/-- The term an event begins or renews: the branch, the token and the owner. -/
def tenantOf : PgEvent V → Option ((String × Int) × String)
  | .committed _ ⟨.acquire b owner _, _⟩ token _ =>
      (granted b token).map fun grant => (grant, owner)
  | _ => none

/-- Tokens do not fall, and no token is given to two owners. -/
def TellsTenants (before : List (PgEvent V)) (e : PgEvent V) : Prop :=
  ∀ a ∈ before, ∀ (b owner owner' : String) (token token' : Int),
    tenantOf a = some ((b, token), owner) → tenantOf e = some ((b, token'), owner') →
    token ≤ token' ∧ (token = token' → owner = owner')

theorem termAfter_acquire (b b' owner : String) (ttl now : ℚ) (tid : Nat) (token : Int)
    (wrote : Bool) (term : Option LeaseTerm) :
    termAfter b' term
      (.committed tid ⟨.acquire b owner ttl, now⟩ token wrote : PgEvent V)
      = if b = b' then termFrom term owner (now + ttl) token else term := rfl

theorem termAfter_release (b b' owner : String) (now : ℚ) (tid : Nat) (term : Option LeaseTerm) :
    termAfter b' term (.committed tid ⟨.release b owner, now⟩ () true : PgEvent V)
      = if b = b' then term.map fun term => { term with released := true } else term := rfl

/-! ## Section 2: What acquire and release leave -/

/-- The lease row that `acquire` writes over another, or over none. -/
def acquired (owner : String) (ttl now : ℚ) : Option LeaseRow → Option LeaseRow
  | none => some { owner := owner, expiresAt := now + ttl }
  | some row => PostgresSteps.takeover owner ttl now row

/-- What a committed call leaves in the lease row it is about. -/
def LeavesLease : (call : PgCall V) → call.op.Reply → Footprint (PgRow V) → Prop
  | ⟨.acquire b owner ttl, now⟩, token, f =>
      ∃ row, f (.lease b) = some ⟨row, acquired owner ttl now row⟩ ∧
        token = issuedIn (acquired owner ttl now row)
  | ⟨.release b owner, _⟩, _, f =>
      f (.lease b) = none ∨
      ∃ row : LeaseRow, row.owner = owner ∧
        f (.lease b) = some ⟨some row, some ⟨"", row.token, 0⟩⟩
  | _, _, _ => True

theorem acquire_leaves (b owner : String) (ttl now : ℚ) :
    (PostgresSteps.acquire b owner ttl now : PgTxn V Int).Leaves .nothing
      fun token f => ∃ row, f (.lease b) = some ⟨row, acquired owner ttl now row⟩ ∧
        token = issuedIn (acquired owner ttl now row) := by
  have hexec : (PostgresSteps.exec (.upsert (.lease b) { owner := owner, expiresAt := now + ttl }
      (PostgresSteps.takeover owner ttl now)) : PgTxn V _).Leaves .nothing
      fun reply f => ∃ row, f (.lease b) = some ⟨row, acquired owner ttl now row⟩ ∧
        reply = acquired owner ttl now row := by
    refine Txn.leaves_upsert rfl fun row => ⟨row, ?_, ?_⟩
    · rw [Function.update_self]
      cases row <;> rfl
    · cases row <;> rfl
  apply hexec.bind
  rintro reply f ⟨row, hf, rfl⟩
  cases hnew : acquired owner ttl now row with
  | none => exact Txn.leaves_pure ⟨row, by rw [hf, hnew], by rw [hnew]; rfl⟩
  | some new => exact Txn.leaves_pure ⟨row, by rw [hf, hnew], by rw [hnew]; rfl⟩

theorem release_leaves (b owner : String) :
    (PostgresSteps.release b owner : PgTxn V Unit).Leaves .nothing
      fun _ f => f (.lease b) = none ∨ ∃ row : LeaseRow, row.owner = owner ∧
        f (.lease b) = some ⟨some row, some ⟨"", row.token, 0⟩⟩ := by
  refine (Txn.leaves_update rfl (Or.inl rfl) fun row new hnew => Or.inr ⟨row, ?_⟩).bind
    fun _ f h => Txn.leaves_pure h
  split at hnew
  · next howner =>
    obtain rfl := Option.some.inj hnew
    exact ⟨howner, Function.update_self ..⟩
  · cases hnew

/-- **What each call leaves in the lease row**, and that it leaves all but its own rows alone. -/
theorem leaves_lease [BEq V] (call : PgCall V) :
    call.body.Leaves .nothing fun result f =>
      (∀ k, ¬ call.op.Touches k → f k = none) ∧ LeavesLease call result f := by
  refine (leaves_untouched call).and ?_
  obtain ⟨op, now⟩ := call
  cases op with
  | acquire b owner ttl => exact acquire_leaves b owner ttl now
  | release b owner => exact release_leaves b owner
  | _ => exact (leaves_untouched _).mono fun _ _ _ => trivial

/-! ## Section 3: The invariant -/

/-- The row in which a lease is stored. -/
def LeaseTerm.row (term : LeaseTerm) : LeaseRow :=
  if term.released then ⟨"", term.token, 0⟩
  else ⟨term.owner, term.token, term.expires⟩

/-- Tokens count from one, and a tenant has a name. -/
structure LeaseTerm.Proper (term : LeaseTerm) : Prop where
  token : 1 ≤ term.token
  owner : term.owner ≠ ""

/-- A lease after another: by a higher token, or by the same of the same owner. -/
structure TermFollows (term term' : Option LeaseTerm) : Prop where
  proper : ∀ t ∈ term', t.Proper
  rises : ∀ t ∈ term, ∃ t' ∈ term',
    t.token < t'.token ∨ t.token = t'.token ∧ t.owner = t'.owner

theorem TermFollows.refl {term : Option LeaseTerm} (hproper : ∀ t ∈ term, t.Proper) :
    TermFollows term term :=
  ⟨hproper, fun t ht => ⟨t, ht, Or.inr ⟨rfl, rfl⟩⟩⟩

/-- A released lease has the token and the owner it had. -/
theorem TermFollows.released {term : Option LeaseTerm} (hproper : ∀ t ∈ term, t.Proper) :
    TermFollows term (term.map fun t => { t with released := true }) := by
  cases term with
  | none => exact ⟨nofun, nofun⟩
  | some t =>
    obtain ⟨htoken, howner⟩ := hproper t rfl
    refine ⟨fun t' ht' => ?_, fun u hu => ⟨_, rfl, ?_⟩⟩
    · obtain rfl := Option.some.inj ht'
      exact ⟨htoken, howner⟩
    · obtain rfl := Option.some.inj hu
      exact Or.inr ⟨rfl, rfl⟩

/-- A token that is given is the tenant's own, or a new one. -/
theorem tokenFor_rises {owner : String} {now : ℚ} {t : LeaseTerm}
    (hgiven : tokenFor owner now (some t) ≠ 0) :
    t.token < tokenFor owner now (some t) ∨
    t.token = tokenFor owner now (some t) ∧ t.owner = owner := by
  have hnext : t.token < t.token + 1 := by omega
  simp only [tokenFor] at hgiven ⊢
  by_cases hreleased : t.released = true
  · simp [hreleased, hnext]
  · by_cases howned : t.owner = owner
    · simp [hreleased, howned]
    · by_cases hexpired : t.expires < now
      · simp [hreleased, howned, hexpired, hnext]
      · simp [hreleased, howned, hexpired] at hgiven

/-- The lease that is given follows the one there was. -/
theorem termFollows_tokenFor {owner : String} {now expires : ℚ} (howner : owner ≠ "")
    {term : Option LeaseTerm} (hproper : ∀ t ∈ term, t.Proper) :
    TermFollows term (termFrom term owner expires (tokenFor owner now term)) := by
  unfold termFrom
  -- Refused, the term stays; granted, the token is the next, or the same for the same owner.
  split
  · exact .refl hproper
  · next hgiven =>
    cases term with
    | none =>
      refine ⟨fun t' ht' => ?_, nofun⟩
      obtain rfl := Option.some.inj ht'
      exact ⟨le_refl 1, howner⟩
    | some t =>
      have htoken := (hproper t rfl).token
      have hrises := tokenFor_rises hgiven
      refine ⟨fun t' ht' => ?_, fun u hu => ⟨_, rfl, ?_⟩⟩
      · obtain rfl := Option.some.inj ht'
        refine ⟨?_, howner⟩
        rcases hrises with hlt | ⟨heq, _⟩
        · exact le_trans htoken (le_of_lt hlt)
        · exact heq ▸ htoken
      · obtain rfl := Option.some.inj hu
        exact hrises

/-- What `acquire` writes is the lease it gives. -/
theorem acquired_row {owner : String} (ttl : ℚ) {now : ℚ} (howner : owner ≠ "") (hnow : 0 < now)
    {term : Option LeaseTerm} (hproper : ∀ t ∈ term, t.Proper) :
    tokenFor owner now term = issuedIn (acquired owner ttl now (term.map LeaseTerm.row)) ∧
    (acquired owner ttl now (term.map LeaseTerm.row)).or (term.map LeaseTerm.row)
      = (termFrom term owner (now + ttl) (tokenFor owner now term)).map LeaseTerm.row := by
  cases term with
  | none => exact ⟨rfl, rfl⟩
  | some t =>
    obtain ⟨htoken, hnamed⟩ := hproper t rfl
    have hnext : t.token + 1 ≠ 0 := by omega
    have hsame : t.token ≠ 0 := by omega
    by_cases hreleased : t.released = true
    · simp [tokenFor, acquired, PostgresSteps.takeover, termFrom, LeaseTerm.row, issuedIn,
        hreleased, hnow, Ne.symm howner, hnext]
    · by_cases howned : t.owner = owner
      · simp [tokenFor, acquired, PostgresSteps.takeover, termFrom, LeaseTerm.row, issuedIn,
          hreleased, howned, hsame]
      · by_cases hexpired : t.expires < now
        · simp [tokenFor, acquired, PostgresSteps.takeover, termFrom, LeaseTerm.row, issuedIn,
            hreleased, howned, hexpired, hnext]
        · simp [tokenFor, acquired, PostgresSteps.takeover, termFrom, LeaseTerm.row, issuedIn,
            hreleased, howned, hexpired]

/-- What the log says of the leases, and the rows that store them. -/
structure LeaseRows (log : List (PgEvent V)) (db : Database (PgRow V)) : Prop where
  rows : ∀ b, db (.lease b) = (termOf b log).map LeaseTerm.row
  proper : ∀ b, ∀ t ∈ termOf b log, t.Proper
  /-- The term on record is the newest. -/
  newest : ∀ e ∈ log, ∀ b owner token, tenantOf e = some ((b, token), owner) →
    ∃ t ∈ termOf b log, token < t.token ∨ token = t.token ∧ owner = t.owner
  right : Always LeaseRight log
  tells : Always TellsTenants log

variable {log : List (PgEvent V)} {db db' : Database (PgRow V)}

theorem leaseRows_init : LeaseRows ([] : List (PgEvent V)) fun _ => none where
  rows _ := rfl
  proper _ _ h := nomatch h
  newest _ h := nomatch h
  right := always_nil
  tells := always_nil

theorem termOf_concat (b : String) (log : List (PgEvent V)) (e : PgEvent V) :
    termOf b (log ++ [e]) = termAfter b (termOf b log) e := by
  simp [termOf]

/-- An event that moves every lease to one that follows it. -/
theorem LeaseRows.step (h : LeaseRows log db) {e : PgEvent V}
    (hrows : ∀ b, db' (.lease b) = (termAfter b (termOf b log) e).map LeaseTerm.row)
    (hfollows : ∀ b, TermFollows (termOf b log) (termAfter b (termOf b log) e))
    (htenant : ∀ b owner token, tenantOf e = some ((b, token), owner) →
      ∃ t ∈ termAfter b (termOf b log) e, token = t.token ∧ owner = t.owner)
    (hright : LeaseRight log e) : LeaseRows (log ++ [e]) db' := by
  refine ⟨fun b => ?_, fun b => ?_, fun a ha b owner token hgrant => ?_,
    always_concat.mpr ⟨h.right, hright⟩, always_concat.mpr ⟨h.tells, ?_⟩⟩
  · rw [termOf_concat, hrows]
  · -- newest: an earlier grant is below the term, and the term only rises.
    rw [termOf_concat]
    exact (hfollows b).proper
  · rw [termOf_concat]
    rcases List.mem_append.mp ha with ha | ha
    · obtain ⟨t, ht, hnewest⟩ := h.newest a ha b owner token hgrant
      obtain ⟨t', ht', hrises⟩ := (hfollows b).rises t ht
      refine ⟨t', ht', ?_⟩
      rcases hnewest with hlt | ⟨heq, howner⟩
      · left
        rcases hrises with hlt' | ⟨heq', _⟩ <;> omega
      · rw [heq, howner]
        exact hrises
    · rw [List.mem_singleton.mp ha] at hgrant
      obtain ⟨t, ht, hnewest⟩ := htenant b owner token hgrant
      exact ⟨t, ht, Or.inr hnewest⟩
  · intro a ha b owner owner' token token' hbefore hgrant
    obtain ⟨t, ht, hnewest⟩ := h.newest a ha b owner token hbefore
    obtain ⟨t', ht', hrises⟩ := (hfollows b).rises t ht
    obtain ⟨given, hgiven, rfl, rfl⟩ := htenant b owner' token' hgrant
    obtain rfl : given = t' := Option.mem_unique hgiven ht'
    -- exclusive: the same token again means the same owner.
    rcases hnewest with hlt | ⟨rfl, rfl⟩
    · rcases hrises with hlt' | ⟨heq', _⟩
      · exact ⟨by omega, fun _ => by omega⟩
      · exact ⟨by omega, fun _ => by omega⟩
    · rcases hrises with hlt' | ⟨heq', howner⟩
      · exact ⟨by omega, fun _ => by omega⟩
      · exact ⟨by omega, fun _ => howner⟩

/-- An event that neither gives a lease nor takes one back. -/
theorem LeaseRows.idle (h : LeaseRows log db) {e : PgEvent V}
    (hdb : ∀ b, db' (.lease b) = db (.lease b)) (hidle : ∀ b t, termAfter b t e = t)
    (htenant : tenantOf e = none) (hright : LeaseRight log e) : LeaseRows (log ++ [e]) db' := by
  refine h.step (fun b => ?_) (fun b => ?_) (fun b owner token hgrant => ?_) hright
  · rw [hidle, hdb, h.rows]
  · rw [hidle]
    exact .refl (h.proper b)
  · rw [htenant] at hgrant
    cases hgrant

/-- An acquisition that found the row as it is. -/
theorem LeaseRows.acquire (h : LeaseRows log db) (tid : Nat) {b owner : String} {ttl now : ℚ}
    {token : Int} (wrote : Bool) (howner : owner ≠ "") (hnow : 0 < now)
    (htoken : token = issuedIn (acquired owner ttl now (db (.lease b))))
    (hrow : db' (.lease b) = (acquired owner ttl now (db (.lease b))).or (db (.lease b)))
    (hothers : ∀ b', b' ≠ b → db' (.lease b') = db (.lease b')) :
    LeaseRows (log ++ [.committed tid ⟨.acquire b owner ttl, now⟩ token wrote]) db' := by
  -- the statement read the row that the acquisitions committed so far add up to
  rw [h.rows] at htoken hrow
  obtain ⟨hgiven, hwritten⟩ := acquired_row ttl howner hnow (h.proper b)
  rw [← hgiven] at htoken
  subst htoken
  -- rows, then how the term moves on, then what the grant says
  refine h.step (fun b' => ?_) (fun b' => ?_) (fun b' owner' token' hgrant => ?_) rfl
  · rw [termAfter_acquire]
    split
    · next hb =>
      subst hb
      rw [hrow, hwritten]
    · next hb => rw [hothers b' (Ne.symm hb), h.rows]
  · rw [termAfter_acquire]
    split
    · next hb =>
      subst hb
      exact termFollows_tokenFor howner (h.proper b)
    · exact .refl (h.proper b')
  · rw [termAfter_acquire]
    obtain ⟨⟨grantedTo, grantedToken⟩, hgrant', heq⟩ := Option.map_eq_some_iff.mp hgrant
    unfold granted at hgrant'
    split at hgrant'
    · cases hgrant'
    · next hnonzero =>
      cases hgrant'
      cases heq
      rw [if_pos rfl, termFrom, if_neg hnonzero]
      exact ⟨_, rfl, rfl, rfl⟩

/-- A release of the row of its owner. -/
theorem LeaseRows.release (h : LeaseRows log db) (tid : Nat) {b owner : String} {now : ℚ}
    (howner : owner ≠ "") {row : LeaseRow} (hheld : db (.lease b) = some row)
    (howned : row.owner = owner) (hrow : db' (.lease b) = some ⟨"", row.token, 0⟩)
    (hothers : ∀ b', b' ≠ b → db' (.lease b') = db (.lease b')) :
    LeaseRows (log ++ [.committed tid ⟨.release b owner, now⟩ () true]) db' := by
  rw [h.rows] at hheld
  obtain ⟨t, ht, rfl⟩ := Option.map_eq_some_iff.mp hheld
  refine h.step (fun b' => ?_) (fun b' => ?_) (fun b' owner' token' hgrant => nomatch hgrant) ?_
  · rw [termAfter_release]
    split
    · next hb =>
      subst hb
      rw [hrow, ht]
      unfold LeaseTerm.row
      split <;> rfl
    · next hb => rw [hothers b' (Ne.symm hb), h.rows]
  · rw [termAfter_release]
    split
    · exact .released (h.proper b')
    · exact .refl (h.proper b')
  · refine ⟨t, ht, ?_⟩
    unfold LeaseTerm.row at howned
    -- Nobody's name is the owner's, so the term was not released already.
    split at howned
    · exact absurd howned.symm howner
    · next hreleased => exact ⟨by simpa using hreleased, howned⟩

/-! ## Section 4: Every schedule -/

/-- What a commit does to the leases. -/
theorem LeaseRows.committed [BEq V] (h : LeaseRows log db) (tid : Nat) (call : PgCall V)
    (result : call.op.Reply) (wrote : Bool) {f : Footprint (PgRow V)}
    (hf : ∀ k, ¬ call.op.Touches k → f k = none) (hleaves : LeavesLease call result f)
    (hof : f.Of db) (hwrote : wrote = true ↔ f.Wrote)
    (hnamed : OwnerNamed (.committed tid call result wrote)) :
    LeaseRows (log ++ [.committed tid call result wrote]) (f.onto db) := by
  obtain ⟨op, now⟩ := call
  cases op with
  | acquire b owner ttl =>
    obtain ⟨row, hrow, htoken⟩ := hleaves
    obtain rfl : row = db (.lease b) := hof _ _ hrow
    obtain ⟨howner, hnow⟩ := hnamed owner rfl
    refine h.acquire tid wrote howner hnow htoken ?_ fun b' hb' => Footprint.onto_of_none (hf _ ?_)
    · simp [Footprint.onto, hrow]
    · exact fun htouched => hb' (PgKey.lease.inj htouched)
  | release b owner =>
    rcases hleaves with hnone | ⟨row, howned, hrow⟩
    · -- the statement found no row of this owner: nothing is written
      have hclean : ¬ f.Wrote := Footprint.not_wrote_of_only hf (by rw [hnone]; rfl)
      obtain rfl : wrote = false := Bool.eq_false_iff.mpr fun htrue => hclean (hwrote.mp htrue)
      rw [Footprint.onto_of_not_wrote hclean]
      exact h.idle (fun _ => rfl) (fun _ _ => rfl) rfl trivial
    · obtain rfl : wrote = true := hwrote.mpr (Footprint.wrote_of_held hrow)
      refine h.release tid (hnamed owner rfl).1 (hof _ _ hrow).symm howned
        (Footprint.onto_of_held hrow) fun b' hb' => Footprint.onto_of_none (hf _ ?_)
      exact fun htouched => hb' (PgKey.lease.inj htouched)
  | _ =>
    -- every other method leaves all lease rows alone
    exact h.idle (fun b' => Footprint.onto_of_none (hf _ (by simp [PgOp.Touches])))
      (fun _ _ => rfl) rfl trivial

/-- **Leases under READ COMMITTED.** In every schedule of calls and of their statements, in the
    order of the commits, an acquisition is given the token that the lease is then to have, or zero
    if the branch is then another's; only its tenant releases a lease; tokens do not fall; and no
    token is given to two owners. -/
theorem leases_exclusive [BEq V] (schedule : List (Action (PgCall V)))
    (hnamed : ∀ e ∈ (PgWorld.after schedule).log, OwnerNamed e) :
    Always LeaseRight (PgWorld.after schedule).log ∧
    Always TellsTenants (PgWorld.after schedule).log := by
  have hrows : (∀ e ∈ (PgWorld.after schedule).log, OwnerNamed e) →
      LeaseRows (PgWorld.after schedule).log (PgWorld.after schedule).db := by
    refine World.committed_rows (J := fun log db => (∀ e ∈ log, OwnerNamed e) → LeaseRows log db)
      leaves_lease (fun _ => leaseRows_init) ?_ ?_ ?_ schedule
    · intro log db tid stmt reply hbefore hnamed
      exact (hbefore fun e he => hnamed e (List.mem_append_left _ he)).idle (fun _ => rfl)
        (fun _ _ => rfl) rfl trivial
    · intro log db tid c error hbefore hnamed
      exact (hbefore fun e he => hnamed e (List.mem_append_left _ he)).idle (fun _ => rfl)
        (fun _ _ => rfl) rfl trivial
    · intro log db tid c result wrote f hbefore hleaves hof hwrote hnamed
      exact (hbefore fun e he => hnamed e (List.mem_append_left _ he)).committed tid c result wrote
        hleaves.1 hleaves.2 hof hwrote (hnamed _ (List.mem_append_right _ List.mem_cons_self))
  exact ⟨(hrows hnamed).right, (hrows hnamed).tells⟩

/-- `w2` waits for the row that `w1` has locked, takes the lease when it has run out, and is not
    troubled by the release that `w1` began before. -/
def contested : List (Action (PgCall Nat)) :=
  [.begin ⟨.acquire "b" "w1" 60, 1⟩, .run 0, .begin ⟨.acquire "b" "w2" 60, 62⟩, .run 1, .finish 0,
   .run 1, .begin ⟨.release "b" "w1", 63⟩, .finish 1, .run 2, .finish 2]

theorem leases_exclusive_contested :
    Always LeaseRight (PgWorld.after contested).log ∧
    Always TellsTenants (PgWorld.after contested).log :=
  leases_exclusive contested (by decide +kernel)

end leases

end Semora
