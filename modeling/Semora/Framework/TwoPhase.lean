import Semora.Framework.Machine
import Semora.Framework.OneAtATime

/-! # Strict Two-Phase Locking

    A statement that locks its row whatever is in it keeps the row to its
    transaction until the transaction ends. Where every statement of every
    transaction does so, nobody moves what a transaction has seen before it
    is over: run again at its commit, alone, it does the same.

    So under every schedule the committed database is what the committed
    transactions leave one at a time, in the order of their commits, and each
    has returned what it returns there (`serial_in_commit_order`). -/

namespace ReadCommitted

variable {K : Type} {Row : K → Type}

/-! ## Section 1: Statements that lock -/

/-- The statement locks its row, whatever is in it. -/
def Sql.Locks : Sql Row → Prop
  | .upsert .. => True
  | _ => False

namespace Sql.Locks

variable {stmt : Sql Row} (h : stmt.Locks)

include h

theorem lock (serial : Nat) (row : Option (Row stmt.key)) :
    (stmt.effect serial row).lock = true := by
  cases stmt with
  | upsert k fresh change =>
    cases row with
    | none => rfl
    | some old =>
      simp only [Sql.effect]
      split <;> rfl
  | _ => exact h.elim

/-- It has no use for the serial. -/
theorem effect_eq (serial serial' : Nat) (row : Option (Row stmt.key)) :
    stmt.effect serial row = stmt.effect serial' row := by
  cases stmt with
  | upsert k fresh change => rfl
  | _ => exact h.elim

end Sql.Locks

/-! ## Section 2: Running again -/

section replays

variable [DecidableEq K]

theorem Tables.rows_ran_ne (t : Tables Row) (stmt : Sql Row) {k : K} (h : stmt.key ≠ k) :
    (t.ran stmt).rows k = t.rows k := by
  unfold Tables.ran
  rw [Tables.rows_draw, Tables.rows_put]
  split
  · exact Function.update_of_ne (Ne.symm h) ..
  · rfl

/-- A statement that sees the same row leaves the same one. -/
theorem Tables.rows_ran_congr {t t' : Tables Row} {stmt : Sql Row} (h : stmt.Locks)
    (hseen : t'.rows stmt.key = t.rows stmt.key) :
    (t'.ran stmt).rows stmt.key = (t.ran stmt).rows stmt.key := by
  unfold Tables.ran
  rw [Tables.rows_draw, Tables.rows_draw, Tables.rows_put, Tables.rows_put, hseen,
    h.effect_eq t'.serial t.serial]
  simp

/-- Run from `t₀`, these statements are answered as they were, and leave `t`. -/
inductive Replays (t₀ : Tables Row) : List (World.Exchange Row) → Tables Row → Prop where
  | nil : Replays t₀ [] t₀
  | concat {done : List (World.Exchange Row)} {t : Tables Row} (h : Replays t₀ done t)
      (stmt : Sql Row) :
      Replays t₀ (done ++ [⟨stmt, (stmt.effect t.serial (t.rows stmt.key)).reply⟩]) (t.ran stmt)

variable {t₀ t : Tables Row} {done : List (World.Exchange Row)}

theorem Replays.of_nil (h : Replays t₀ done t) (hdone : done = []) : t = t₀ := by
  cases h with
  | nil => rfl
  | concat h stmt => simp at hdone

theorem Replays.of_concat {more : List (World.Exchange Row)} {stmt : Sql Row} {r : stmt.Reply}
    (h : Replays t₀ more t) (hmore : more = done ++ [⟨stmt, r⟩]) :
    ∃ t', Replays t₀ done t' ∧ r = (stmt.effect t'.serial (t'.rows stmt.key)).reply ∧
      t = t'.ran stmt := by
  cases h with
  | nil => simp at hmore
  | concat h stmt' =>
    obtain ⟨rfl, hlast⟩ := List.append_inj' hmore rfl
    obtain ⟨rfl, hreply⟩ := Sigma.mk.inj (List.cons.inj hlast).1
    exact ⟨_, h, (eq_of_heq hreply).symm, rfl⟩

/-- What is left of a program goes on from where its statements have led. -/
theorem Replays.eval {α : Type} {p rest : Prog (Sql Row) Sql.Reply α} (h : Replays t₀ done t)
    (hpath : Prog.Path p done rest) : evalProg p t₀ = evalProg rest t := by
  induction hpath generalizing t with
  | nil => rw [h.of_nil rfl]
  | concat _ r ih =>
    obtain ⟨t', hbefore, rfl, rfl⟩ := h.of_concat rfl
    exact ih hbefore

/-- Other rows are left alone. -/
theorem Replays.untouched (h : Replays t₀ done t) {k : K} (hk : ∀ x ∈ done, x.1.key ≠ k) :
    t.rows k = t₀.rows k := by
  induction h with
  | nil => rfl
  | @concat done t h stmt ih =>
    have hlast : stmt.key ≠ k := hk _ (List.mem_append_right _ List.mem_cons_self)
    rw [Tables.rows_ran_ne t stmt hlast]
    exact ih fun x hx => hk x (List.mem_append_left _ hx)

/-- **Run again** where its rows are as they were, a transaction does the same. -/
theorem Replays.frame (h : Replays t₀ done t) (hlocks : ∀ x ∈ done, x.1.Locks) {t₀' : Tables Row}
    (hsame : ∀ x ∈ done, t₀'.rows x.1.key = t₀.rows x.1.key) :
    ∃ t', Replays t₀' done t' ∧ ∀ x ∈ done, t'.rows x.1.key = t.rows x.1.key := by
  -- Induction on the statements done so far.
  induction h with
  | nil => exact ⟨t₀', .nil, fun x hx => nomatch hx⟩
  | @concat done t h stmt ih =>
    obtain ⟨t', hagain, hrows⟩ := ih (fun x hx => hlocks x (List.mem_append_left _ hx))
      fun x hx => hsame x (List.mem_append_left _ hx)
    have hstmt : stmt.Locks := hlocks _ (List.mem_append_right _ List.mem_cons_self)
    -- the statement sees what it saw: its row as an earlier statement left it, or as it was
    have hseen : t'.rows stmt.key = t.rows stmt.key := by
      by_cases hearlier : ∃ x ∈ done, x.1.key = stmt.key
      · obtain ⟨x, hx, heq⟩ := hearlier
        have hrow := hrows x hx
        rwa [heq] at hrow
      · have hother : ∀ x ∈ done, x.1.key ≠ stmt.key := fun x hx heq => hearlier ⟨x, hx, heq⟩
        rw [hagain.untouched hother, h.untouched hother]
        exact hsame _ (List.mem_append_right _ List.mem_cons_self)
    have hconcat := hagain.concat stmt
    rw [hseen, hstmt.effect_eq t'.serial t.serial] at hconcat
    refine ⟨_, hconcat, fun x hx => ?_⟩
    -- It leaves its row the same, and every other row alone.
    by_cases hkey : stmt.key = x.1.key
    · rw [← hkey]
      exact Tables.rows_ran_congr hstmt hseen
    · rw [Tables.rows_ran_ne t' stmt hkey, Tables.rows_ran_ne t stmt hkey]
      rcases List.mem_append.mp hx with hx | hx
      · exact hrows x hx
      · obtain rfl := List.mem_singleton.mp hx
        exact absurd rfl hkey

end replays

/-! ## Section 3: The order of commits -/

variable {C ε : Type} {ρ : C → Type} [DecidableEq K]

/-- Transactions one at a time. -/
def oneAtATime (body : (c : C) → Txn Row ε (ρ c)) :
    Machine (Tables Row) C fun c => Except ε (ρ c) where
  step t c := (body c).alone t

namespace World

/-- The calls that were committed, with what they returned, in the order of their commits. -/
def committed (log : List (Event Row ε ρ)) : List (Machine.Event fun c : C => Except ε (ρ c)) :=
  log.filterMap fun e =>
    match e with
    | .committed _ call result _ => some ⟨call, .ok result⟩
    | _ => none

/-- The tables that the committed calls leave, one at a time. -/
def inCommitOrder (body : (c : C) → Txn Row ε (ρ c)) (log : List (Event Row ε ρ)) : Tables Row :=
  (oneAtATime body).after .empty ((committed log).map Sigma.fst)

/-- What open transactions have seen is as they saw it, and what is committed was committed in an
    order. -/
structure TwoPhase (body : (c : C) → Txn Row ε (ρ c)) (w : World Row ε ρ) : Prop
    extends SessionInv body w where
  locks : ∀ t s, w.sessions t = some s → ∀ x ∈ exchanges w.log t, x.1.key ∈ s.locks
  replays : ∀ t s, w.sessions t = some s → ∀ t₀ : Tables Row, t₀.rows = w.db →
    ∃ t₁, Replays t₀ (exchanges w.log t) t₁ ∧ t₁.rows = w.merged s
  db : w.db = (inCommitOrder body w.log).rows
  results : (oneAtATime body).trace .empty ((committed w.log).map Sigma.fst) = committed w.log
  raised : ∀ tid call error, Event.raised tid call error ∈ w.log →
    ∃ t, ((body call).alone t).1 = .error error

variable {body : (c : C) → Txn Row ε (ρ c)} {w : World Row ε ρ}

/-- What a transaction has not run a statement about, it has not written. -/
theorem written_untouched {done : List (Exchange Row)} {k : K} (hk : ∀ x ∈ done, x.1.key ≠ k) :
    written done k = none := by
  induction done using List.reverseRecOn with
  | nil => rfl
  | append_singleton done x ih =>
    have hbefore := ih fun y hy => hk y (List.mem_append_left _ hy)
    have hlast : x.1.key ≠ k := hk x (List.mem_append_right _ List.mem_cons_self)
    rw [written_concat]
    split
    · rw [Function.update_of_ne (Ne.symm hlast)]
      exact hbefore
    · exact hbefore

omit [DecidableEq K] in
theorem exchanges_concat_other {log : List (Event Row ε ρ)} {tid t : Nat} (ht : t ≠ tid)
    (stmt : Sql Row) (reply : stmt.Reply) :
    exchanges (log ++ [.ran tid stmt reply]) t = exchanges log t := by
  simp [exchanges, Ne.symm ht]

omit [DecidableEq K] in
theorem exchanges_concat_own {log : List (Event Row ε ρ)} {tid : Nat} (stmt : Sql Row)
    (reply : stmt.Reply) :
    exchanges (log ++ [.ran tid stmt reply]) tid = exchanges log tid ++ [⟨stmt, reply⟩] := by
  simp [exchanges]

/-- A transaction begins: it has seen nothing. -/
theorem TwoPhase.begin (h : TwoPhase body w) {call : C} {w' : World Row ε ρ}
    (hact : w.act body (.begin call) = some w') : TwoPhase body w' := by
  have hsessions := sessionInv_act h.toSessionInv hact
  obtain rfl := Option.some.inj hact
  have hnil : exchanges w.log w.begun = [] := h.fresh _ (Nat.le_refl _)
  refine ⟨hsessions, fun t s hs x hx => ?_, fun t s hs t₀ ht₀ => ?_, h.db, h.results,
    h.raised⟩
  · by_cases ht : t = w.begun
    · subst ht
      rw [show exchanges _ w.begun = [] from hnil] at hx
      cases hx
    · exact h.locks t s (by simpa [Function.update_of_ne ht] using hs) x hx
  · by_cases ht : t = w.begun
    · subst ht
      simp only [Function.update_self, Option.some.injEq] at hs
      subst hs
      show ∃ t₁, Replays t₀ (exchanges w.log w.begun) t₁ ∧ _
      rw [hnil]
      exact ⟨t₀, .nil, ht₀⟩
    · exact h.replays t s (by simpa [Function.update_of_ne ht] using hs) t₀ ht₀

/-- A statement sees what its transaction sees when it is run again. -/
theorem TwoPhase.run (hbody : ∀ c, (body c).All Sql.Locks) (h : TwoPhase body w) {tid : Nat}
    {w' : World Row ε ρ} (hact : w.act body (.run tid) = some w') : TwoPhase body w' := by
  have hsessions := sessionInv_act h.toSessionInv hact
  obtain ⟨_, heq, _⟩ | ⟨tid', s, stmt, next, e, heq, hs, hrest, -, he, rfl⟩ |
    ⟨_, _, _, heq, _⟩ | ⟨_, _, _, heq, _⟩ | ⟨_, heq, _⟩ := act_cases hact
  all_goals cases heq
  -- The statement is one of the body's, so it locks its row.
  have hstmt : stmt.Locks := by
    have hall := (h.ok tid s hs).path.ensures (hbody s.call)
    rw [hrest] at hall
    exact hall.1
  refine ⟨hsessions, fun t s' hs' x hx => ?_, fun t s' hs' t₀ ht₀ => ?_, ?_, ?_,
    fun i call error hraised => ?_⟩
  · -- locks: the row of the statement is locked from now on.
    by_cases ht : t = tid
    · subst ht
      simp only [Function.update_self, Option.some.injEq] at hs'
      subst hs'
      have hlock : e.lock = true := by
        rw [← he]
        exact hstmt.lock _ _
      rw [exchanges_concat_own] at hx
      show x.1.key ∈ if e.lock then stmt.key :: s.locks else s.locks
      rw [if_pos hlock]
      rcases List.mem_append.mp hx with hx | hx
      · exact List.mem_cons_of_mem _ (h.locks t s hs x hx)
      · obtain rfl := List.mem_singleton.mp hx
        exact List.mem_cons_self
    · rw [exchanges_concat_other ht] at hx
      exact h.locks t s' (by simpa [Function.update_of_ne ht] using hs') x hx
  · -- replays: replayed alone, the statement sees what it saw, for its row was locked.
    by_cases ht : t = tid
    · subst ht
      simp only [Function.update_self, Option.some.injEq] at hs'
      subst hs'
      obtain ⟨t₁, hagain, hrows⟩ := h.replays t s hs t₀ ht₀
      have hseen : t₁.rows stmt.key = s.sees w.db stmt.key := by
        rw [hrows]
        rfl
      have heffect : stmt.effect t₁.serial (t₁.rows stmt.key) = e := by
        rw [← he, hseen]
        exact hstmt.effect_eq _ _ _
      have hconcat := hagain.concat stmt
      rw [heffect] at hconcat
      refine ⟨t₁.ran stmt, ?_, ?_⟩
      · rw [exchanges_concat_own]
        exact hconcat
      · funext k
        show _ = ((s.ran stmt e (next e.reply)).writes k).or (w.db k)
        have hk : t₁.rows k = (s.writes k).or (w.db k) := congrFun hrows k
        unfold Tables.ran Session.ran
        rw [heffect, Tables.rows_draw, Tables.rows_put]
        cases hwrite : e.write with
        | none => exact hk
        | some row =>
          by_cases hkey : k = stmt.key
          · subst hkey
            simp
          · simpa [Function.update_of_ne hkey] using hk
    · have hs' : w.sessions t = some s' := by simpa [Function.update_of_ne ht] using hs'
      rw [exchanges_concat_other ht]
      exact h.replays t s' hs' t₀ ht₀
  · simpa [inCommitOrder, committed] using h.db
  · simpa [committed] using h.results
  · exact h.raised i call error (by simpa using hraised)

/-- A transaction is gone and has left nothing. -/
theorem TwoPhase.gone (h : TwoPhase body w) {tid : Nat} {w' : World Row ε ρ}
    (hinv : SessionInv body w') (hdb : w'.db = w.db)
    (hsessions : w'.sessions = Function.update w.sessions tid none)
    (hlog : ∀ t, exchanges w'.log t = exchanges w.log t)
    (hcommitted : committed w'.log = committed w.log)
    (hraised : ∀ i call error, Event.raised i call error ∈ w'.log →
      Event.raised i call error ∈ w.log ∨ ∃ t, ((body call).alone t).1 = .error error) :
    TwoPhase body w' := by
  -- Whoever is left was there before, and nothing it depends on has changed.
  have hleft : ∀ t s, w'.sessions t = some s → w.sessions t = some s := by
    intro t s hs
    rw [hsessions] at hs
    by_cases ht : t = tid
    · simp [ht] at hs
    · simpa [Function.update_of_ne ht] using hs
  refine ⟨hinv, fun t s hs x hx => ?_, fun t s hs t₀ ht₀ => ?_, ?_, ?_,
    fun i call error hmem => (hraised i call error hmem).elim (h.raised i call error) id⟩
  · rw [hlog] at hx
    exact h.locks t s (hleft t s hs) x hx
  · rw [hlog]
    have hmerged : w'.merged s = w.merged s := by
      unfold merged
      rw [hdb]
    rw [hmerged]
    exact h.replays t s (hleft t s hs) t₀ (ht₀.trans hdb)
  · unfold inCommitOrder
    rw [hdb, hcommitted]
    exact h.db
  · rw [hcommitted]
    exact h.results

/-- A transaction commits: run again now it does the same, and nobody else has seen its rows. -/
theorem TwoPhase.commit (hbody : ∀ c, (body c).All Sql.Locks) (h : TwoPhase body w) {tid : Nat}
    {s : Session Row ε ρ} {result : ρ s.call} (hs : w.sessions tid = some s)
    (hrest : s.rest = .pure (.ok result)) {w' : World Row ε ρ} (hinv : SessionInv body w')
    (hw' : w' = { w with
      db := w.merged s
      sessions := Function.update w.sessions tid none
      log := w.log ++ [.committed tid s.call result s.wrote] }) : TwoPhase body w' := by
  subst hw'
  obtain ⟨t₁, hagain, hrows⟩ := h.replays tid s hs _ h.db.symm
  have hpath := (h.ok tid s hs).path
  rw [hrest] at hpath
  -- Alone on what was committed before it, the transaction answers the same and leaves the same
  -- rows.
  have halone : (body s.call).alone (inCommitOrder body w.log) = (.ok result, t₁) :=
    Txn.alone_of_ok (hagain.eval hpath)
  have hcommitted : committed (w.log ++ [.committed tid s.call result s.wrote])
      = committed w.log ++ [⟨s.call, .ok result⟩] := by
    simp [committed]
  have hleft : ∀ t s', Function.update w.sessions tid none t = some s' →
      t ≠ tid ∧ w.sessions t = some s' := by
    intro t s' hs'
    by_cases ht : t = tid
    · simp [ht] at hs'
    · exact ⟨ht, by simpa [Function.update_of_ne ht] using hs'⟩
  have hlog : ∀ t, exchanges (w.log ++ [.committed tid s.call result s.wrote]) t
      = exchanges w.log t := by
    intro t
    simp [exchanges]
  refine ⟨hinv, fun t s' hs' x hx => ?_, fun t s' hs' t₀ ht₀ => ?_, ?_, ?_,
    fun i call error hmem => h.raised i call error (by simpa using hmem)⟩
  · rw [hlog] at hx
    exact h.locks t s' (hleft t s' hs').2 x hx
  · obtain ⟨hne, hs'⟩ := hleft t s' hs'
    have hok := h.ok t s' hs'
    have hdone : ∀ x ∈ exchanges w.log t, x.1.Locks := hok.path.ensures_done (hbody s'.call)
    -- the rows that the other has seen are its own
    have hown : ∀ k ∈ s'.locks, s.writes k = none := by
      intro k hk
      by_contra hwritten
      exact hne (h.exclusive t tid s' s k hs' hs hk ((h.ok tid s hs).locked k hwritten))
    have hkept : ∀ k ∈ s'.locks, w.merged s k = w.db k := by
      intro k hk
      unfold merged
      rw [hown k hk]
      rfl
    obtain ⟨t₂, hbefore, hrows'⟩ := h.replays t s' hs' _ h.db.symm
    have hstill : ∀ x ∈ exchanges w.log t, t₀.rows x.1.key
        = (inCommitOrder body w.log).rows x.1.key := by
      intro x hx
      rw [ht₀, ← h.db]
      exact hkept _ (h.locks t s' hs' x hx)
    obtain ⟨t₃, hafter, hsame⟩ := hbefore.frame hdone hstill
    refine ⟨t₃, by rw [hlog]; exact hafter, ?_⟩
    funext k
    show t₃.rows k = (s'.writes k).or (w.merged s k)
    -- Rows the other has touched are as they were; the rest it takes from the table.
    by_cases htouched : ∃ x ∈ exchanges w.log t, x.1.key = k
    · obtain ⟨x, hx, rfl⟩ := htouched
      rw [hsame x hx, hrows', hkept _ (h.locks t s' hs' x hx)]
      rfl
    · have hnone : ∀ x ∈ exchanges w.log t, x.1.key ≠ k := fun x hx heq => htouched ⟨x, hx, heq⟩
      rw [hafter.untouched hnone, ht₀, hok.writes, written_untouched hnone]
      rfl
  · show w.merged s = (inCommitOrder body _).rows
    unfold inCommitOrder
    rw [hcommitted, List.map_append, List.map_singleton, Machine.after_concat]
    show _ = ((body s.call).alone (inCommitOrder body w.log)).2.rows
    rw [halone]
    exact hrows.symm
  · rw [hcommitted, List.map_append, List.map_singleton, Machine.trace_concat, h.results]
    have hreply : (oneAtATime body).reply (inCommitOrder body w.log) s.call = .ok result :=
      congrArg Prod.fst halone
    exact congrArg (fun r => committed w.log ++ [⟨s.call, r⟩]) hreply

/-- Every action keeps to it. -/
theorem TwoPhase.act (hbody : ∀ c, (body c).All Sql.Locks) (h : TwoPhase body w) {a : Action C}
    {w' : World Row ε ρ} (hact : w.act body a = some w') : TwoPhase body w' := by
  have hinv := sessionInv_act h.toSessionInv hact
  cases a with
  | begin call => exact h.begin hact
  | run tid => exact h.run hbody hact
  | abort tid =>
    obtain rfl := Option.some.inj hact
    exact h.gone hinv rfl rfl (fun _ => rfl) rfl fun _ _ _ hmem => Or.inl hmem
  | finish tid =>
    obtain ⟨_, heq, _⟩ | ⟨_, _, _, _, _, heq, _⟩ | ⟨tid', s, result, heq, hs, hrest, hw'⟩ |
      ⟨tid', s, error, heq, hs, hrest, rfl⟩ | ⟨_, heq, _⟩ := act_cases hact
    all_goals cases heq
    · exact h.commit hbody hs hrest hinv hw'
    · refine h.gone hinv rfl rfl (fun t => by simp [exchanges]) (by simp [committed])
        fun i call e hmem => ?_
      rcases List.mem_append.mp hmem with hmem | hmem
      · exact Or.inl hmem
      · obtain ⟨rfl, rfl, heq⟩ := Event.raised.inj (List.mem_singleton.mp hmem)
        obtain ⟨t₁, hagain, _⟩ := h.replays i s hs _ h.db.symm
        have hpath := (h.ok i s hs).path
        rw [hrest] at hpath
        exact Or.inr ⟨_, heq ▸ congrArg Prod.fst (Txn.alone_of_error (hagain.eval hpath))⟩

/-- **Serializable in the order of commits**: where every statement locks its row, the committed
    database is, after every schedule, what the committed calls leave one at a time in the order in
    which they were committed; each of them has returned what it returns there, and what was raised
    is what the call raises alone. -/
theorem serial_in_commit_order (hbody : ∀ c, (body c).All Sql.Locks) (schedule : List (Action C)) :
    let w := World.after body ({ db := fun _ => none } : World Row ε ρ) schedule
    w.db = (inCommitOrder body w.log).rows ∧
      (oneAtATime body).trace .empty ((committed w.log).map Sigma.fst) = committed w.log ∧
      ∀ tid call error, Event.raised tid call error ∈ w.log →
        ∃ t, ((body call).alone t).1 = .error error := by
  have hinv := after_invariant (I := TwoPhase body) (fun w w' a h hact => h.act hbody hact)
    (w := { db := fun _ => none })
    ⟨sessionInv_init (fun _ => rfl) rfl, nofun, nofun, rfl, rfl, nofun⟩ schedule
  exact ⟨hinv.db, hinv.results, hinv.raised⟩

end World

end ReadCommitted
