import Mathlib.Logic.Function.Basic
import Semora.Framework.Prog

/-! # Transactions under READ COMMITTED

    Transactions are programs of SQL statements, each about one row given by
    its primary key. The statements of different transactions interleave:

    * a statement sees what was committed before it ran, and what its own
      transaction wrote;
    * a write, and a `select … for update`, locks its row until the
      transaction ends, and waits while another transaction holds the lock;
      a plain select neither locks nor waits;
    * what a transaction wrote becomes visible to others when it commits. A
      transaction that raises is rolled back, and one may be cut off anywhere.

    The library proves that row locks are exclusive, that what is left of a
    transaction is determined by the statements it ran, and from these the
    rule `monotone`: an order that every statement keeps between the old and
    the new value of a row is kept by the committed database. -/

namespace ReadCommitted

variable {K : Type} {Row : K → Type}

/-! ## Section 1: Statements -/

/-- The rows there are, by primary key. -/
abbrev Database (Row : K → Type) := (k : K) → Option (Row k)

/-- A statement about one row. -/
inductive Sql (Row : K → Type) where
  | select (k : K)
  | selectForUpdate (k : K)
  /-- `update … where …`: `change` is `none` on rows the condition leaves out. -/
  | update (k : K) (change : Row k → Option (Row k))
  /-- `insert … on conflict do update … where …`. -/
  | upsert (k : K) (fresh : Row k) (change : Row k → Option (Row k))
  /-- `insert`, without a row when the key exists. -/
  | insert (k : K) (fresh : Row k)
  /-- `insert` of a row with a serial column, drawn whether or not the key exists. -/
  | insertSerial (k : K) (fresh : Nat → Row k)

namespace Sql

/-- The row a statement is about. -/
def key : Sql Row → K
  | .select k => k
  | .selectForUpdate k => k
  | .update k _ => k
  | .upsert k _ _ => k
  | .insert k _ => k
  | .insertSerial k _ => k

/-- What a statement gives back: the row it selected, or the one it wrote, if any. -/
abbrev Reply (stmt : Sql Row) : Type := Option (Row stmt.key)

/-- What a statement does to its row. -/
structure Effect (R : Type) where
  reply : Option R := none
  write : Option R := none
  lock : Bool := false

/-- The effect of a statement on the row it sees, with the next number of the serial. -/
def effect (stmt : Sql Row) (serial : Nat) (row : Option (Row stmt.key)) :
    Effect (Row stmt.key) :=
  match stmt with
  | .select _ => { reply := row }
  | .selectForUpdate _ => { reply := row, lock := row.isSome }
  | .update k change =>
    match (row : Option (Row k)).bind change with
    | some new => { reply := some new, write := some new, lock := true }
    | none => {}
  | .upsert k fresh change =>
    match (row : Option (Row k)) with
    | none => { reply := some fresh, write := some fresh, lock := true }
    | some old =>
      match change old with
      | some new => { reply := some new, write := some new, lock := true }
      | none => { lock := true }
  | .insert k fresh =>
    match (row : Option (Row k)) with
    | none => { reply := some fresh, write := some fresh, lock := true }
    | some _ => {}
  | .insertSerial k fresh =>
    match (row : Option (Row k)) with
    | none => { reply := some (fresh serial), write := some (fresh serial), lock := true }
    | some _ => {}

/-- Whether a statement has to wait for the lock of its row, given the row it sees.
    An insert waits for another transaction's uncommitted row of the same key. -/
def waits (stmt : Sql Row) (row : Option (Row stmt.key)) : Bool :=
  match stmt with
  | .select _ => false
  | .selectForUpdate _ => row.isSome
  | .update k change => ((row : Option (Row k)).bind change).isSome
  | .upsert .. => true
  | .insert .. => row.isNone
  | .insertSerial .. => row.isNone

/-- Whether a statement writes the row it gives back. -/
def writing : Sql Row → Bool
  | .select _ => false
  | .selectForUpdate _ => false
  | _ => true

/-- The numbers a statement draws from the serial. -/
def draws : Sql Row → Nat
  | .insertSerial .. => 1
  | _ => 0

theorem write_eq (stmt : Sql Row) (serial : Nat) (row : Option (Row stmt.key)) :
    (stmt.effect serial row).write
      = if stmt.writing then (stmt.effect serial row).reply else none := by
  cases stmt with
  | select k => rfl
  | selectForUpdate k => rfl
  | update k change =>
    simp only [effect, writing, if_true]
    split <;> rfl
  | upsert k fresh change =>
    cases row with
    | none => rfl
    | some old =>
      simp only [effect, writing, if_true]
      split <;> rfl
  | insert k fresh => cases row <;> rfl
  | insertSerial k fresh => cases row <;> rfl

theorem waits_of_lock {stmt : Sql Row} {serial : Nat} {row : Option (Row stmt.key)}
    (h : (stmt.effect serial row).lock = true) : stmt.waits row = true := by
  cases stmt with
  | select k => cases h
  | selectForUpdate k => exact h
  | update k change =>
    simp only [effect, waits] at h ⊢
    split at h
    · next heq => rw [heq]; rfl
    · cases h
  | upsert k fresh change => rfl
  | insert k fresh =>
    cases row with
    | none => rfl
    | some old => cases h
  | insertSerial k fresh =>
    cases row with
    | none => rfl
    | some old => cases h

theorem lock_of_write {stmt : Sql Row} {serial : Nat} {row : Option (Row stmt.key)}
    {new : Row stmt.key} (h : (stmt.effect serial row).write = some new) :
    (stmt.effect serial row).lock = true := by
  -- One case a statement: the kinds that write are the kinds that lock.
  cases stmt with
  | select k => cases h
  | selectForUpdate k => cases h
  | update k change =>
    simp only [effect] at h ⊢
    split at h
    · rfl
    · cases h
  | upsert k fresh change =>
    cases row with
    | none => rfl
    | some old =>
      simp only [effect] at h ⊢
      split <;> rfl
  | insert k fresh =>
    cases row with
    | none => rfl
    | some old => cases h
  | insertSerial k fresh =>
    cases row with
    | none => rfl
    | some old => cases h

/-- A statement keeps `R`: the row it writes is `R`-above the row it replaces. -/
def Keeps (R : ∀ k, Row k → Row k → Prop) : Sql Row → Prop
  | .update k change => ∀ old new, change old = some new → R k old new
  | .upsert k _ change => ∀ old new, change old = some new → R k old new
  | _ => True

theorem Keeps.effect {R : ∀ k, Row k → Row k → Prop} {stmt : Sql Row} (hstmt : stmt.Keeps R)
    {serial : Nat} {old new : Row stmt.key}
    (h : (stmt.effect serial (some old)).write = some new) : R stmt.key old new := by
  cases stmt with
  | select k => cases h
  | selectForUpdate k => cases h
  | update k change =>
    simp only [Sql.effect] at h
    split at h
    · next heq =>
      obtain rfl := Option.some.inj h
      exact hstmt old _ heq
    · cases h
  | upsert k fresh change =>
    simp only [Sql.effect] at h
    split at h
    · next heq =>
      obtain rfl := Option.some.inj h
      exact hstmt old _ heq
    · cases h
  | insert k fresh => cases h
  | insertSerial k fresh => cases h

end Sql

/-! ## Section 2: Transactions and their interleavings -/

/-- A transaction: it returns, and is committed, or raises, and is rolled back. -/
abbrev Txn (Row : K → Type) (ε α : Type) := ExceptT ε (Prog (Sql Row) Sql.Reply) α

/-- Run one statement. -/
def Txn.exec {ε : Type} (stmt : Sql Row) : Txn Row ε (Option (Row stmt.key)) :=
  ExceptT.lift (Prog.op stmt)

namespace Txn

variable {ε α β : Type} {φ : Sql Row → Prop}

/-- Every statement the transaction can run satisfies `φ`. -/
def All (φ : Sql Row → Prop) (t : Txn Row ε α) : Prop := Prog.All φ t.run

theorem all_pure (a : α) : All φ (pure a : Txn Row ε α) := trivial

theorem all_throw (e : ε) : All φ (throw e : Txn Row ε α) := trivial

theorem all_exec {stmt : Sql Row} (h : φ stmt) : All φ (exec stmt : Txn Row ε _) :=
  ⟨h, fun _ => trivial⟩

theorem all_bind {t : Txn Row ε α} {f : α → Txn Row ε β} (ht : All φ t)
    (hf : ∀ a, All φ (f a)) : All φ (t >>= f) := by
  refine Prog.All.bind (f := ExceptT.bindCont f) ht ?_
  rintro (e | a)
  · trivial
  · exact hf a

theorem all_forM {ι : Type} {f : ι → Txn Row ε PUnit} (hf : ∀ i, All φ (f i)) (items : List ι) :
    All φ (items.forM f) := by
  induction items with
  | nil => exact all_pure _
  | cons i items ih => exact all_bind (hf i) fun _ => ih

end Txn

variable {C ε : Type} {ρ : C → Type}

/-- An open transaction. -/
structure Session (Row : K → Type) (ε : Type) {C : Type} (ρ : C → Type) where
  /-- The call the transaction serves. -/
  call : C
  /-- What is left of it. -/
  rest : Prog (Sql Row) Sql.Reply (Except ε (ρ call))
  /-- The rows it wrote, which nobody else sees yet. -/
  writes : Database Row
  wrote : Bool
  /-- The rows it locked. -/
  locks : List K

/-- What the run of a database can be observed to do. -/
inductive Event (Row : K → Type) (ε : Type) {C : Type} (ρ : C → Type) where
  /-- A transaction ran a statement. -/
  | ran (tid : Nat) (stmt : Sql Row) (reply : stmt.Reply)
  /-- A transaction committed its result, and whether it had written anything. -/
  | committed (tid : Nat) (call : C) (result : ρ call) (wrote : Bool)
  /-- A transaction raised and was rolled back. -/
  | raised (tid : Nat) (call : C) (error : ε)

/-- The database with its open transactions, and the log of what happened so far. -/
structure World (Row : K → Type) (ε : Type) {C : Type} (ρ : C → Type) where
  db : Database Row
  serial : Nat := 0
  sessions : Nat → Option (Session Row ε ρ) := fun _ => none
  /-- The number of transactions begun so far: they are numbered in that order. -/
  begun : Nat := 0
  log : List (Event Row ε ρ) := []

/-- What may happen next. -/
inductive Action (C : Type) where
  | begin (call : C)
  | run (tid : Nat)
  | finish (tid : Nat)
  /-- The client is cut off: crash, cancellation, or a lost connection. -/
  | abort (tid : Nat)

namespace Session

variable (s : Session Row ε ρ)

/-- The row a transaction sees. -/
def sees (db : Database Row) (k : K) : Option (Row k) := (s.writes k).or (db k)

variable [DecidableEq K]

/-- The transaction after its next statement. -/
def ran (stmt : Sql Row) (e : Sql.Effect (Row stmt.key))
    (rest : Prog (Sql Row) Sql.Reply (Except ε (ρ s.call))) : Session Row ε ρ where
  call := s.call
  rest := rest
  writes := if e.write.isSome then Function.update s.writes stmt.key e.write else s.writes
  wrote := s.wrote || e.write.isSome
  locks := if e.lock then stmt.key :: s.locks else s.locks

end Session

namespace World

variable [DecidableEq K] (w : World Row ε ρ)

/-- Another transaction holds the lock of row `k`. -/
def lockedByOther (tid : Nat) (k : K) : Bool :=
  (List.range w.begun).any fun other =>
    other ≠ tid && ((w.sessions other).any fun s => k ∈ s.locks)

/-- The committed rows once a transaction's writes are among them. -/
def merged (s : Session Row ε ρ) : Database Row := fun k => (s.writes k).or (w.db k)

/-- The world after an action; `none` when it cannot happen now. -/
def act (body : (c : C) → Txn Row ε (ρ c)) : Action C → Option (World Row ε ρ)
  | .begin call =>
    some { w with
      sessions := Function.update w.sessions w.begun
        (some ⟨call, (body call).run, fun _ => none, false, []⟩)
      begun := w.begun + 1 }
  | .run tid =>
    match w.sessions tid with
    | none => none
    | some s =>
      match s.rest with
      | .pure _ => none
      | .perform stmt next =>
        if stmt.waits (s.sees w.db stmt.key) && w.lockedByOther tid stmt.key then none
        else
          let e := stmt.effect w.serial (s.sees w.db stmt.key)
          some { w with
            serial := w.serial + stmt.draws
            sessions := Function.update w.sessions tid (some (s.ran stmt e (next e.reply)))
            log := w.log ++ [.ran tid stmt e.reply] }
  | .finish tid =>
    match w.sessions tid with
    | none => none
    | some s =>
      match s.rest with
      | .perform .. => none
      | .pure (.ok result) =>
        some { w with
          db := w.merged s
          sessions := Function.update w.sessions tid none
          log := w.log ++ [.committed tid s.call result s.wrote] }
      | .pure (.error error) =>
        some { w with
          sessions := Function.update w.sessions tid none
          log := w.log ++ [.raised tid s.call error] }
  | .abort tid => some { w with sessions := Function.update w.sessions tid none }

/-- The world after a schedule. An action that cannot happen when it is its turn is skipped. -/
def after (body : (c : C) → Txn Row ε (ρ c)) (w : World Row ε ρ) (schedule : List (Action C)) :
    World Row ε ρ :=
  schedule.foldl (fun w a => (w.act body a).getD w) w

/-- What every action preserves, every schedule preserves. -/
theorem after_invariant {body : (c : C) → Txn Row ε (ρ c)} {I : World Row ε ρ → Prop}
    (hact : ∀ w w' a, I w → w.act body a = some w' → I w') {w : World Row ε ρ} (hw : I w)
    (schedule : List (Action C)) : I (w.after body schedule) := by
  induction schedule generalizing w with
  | nil => exact hw
  | cons a schedule ih =>
    refine ih (w := (w.act body a).getD w) ?_
    cases h : w.act body a with
    | none => exact hw
    | some w' => exact hact w w' a hw h

/-! ## Section 3: What holds in every reachable world -/

/-- A statement and its reply. -/
abbrev Exchange (Row : K → Type) : Type := Prog.Exchange fun stmt : Sql Row => stmt.Reply

/-- The statements transaction `tid` ran, with their replies. -/
def exchanges (log : List (Event Row ε ρ)) (tid : Nat) :
    List (Exchange Row) :=
  log.filterMap fun e =>
    match e with
    | .ran other stmt reply => if other = tid then some ⟨stmt, reply⟩ else none
    | _ => none

/-- The rows a transaction has written, from its statements. -/
def written (done : List (Exchange Row)) : Database Row :=
  done.foldl (fun db x => if x.1.writing && x.2.isSome then Function.update db x.1.key x.2 else db)
    fun _ => none

theorem written_concat (done : List (Exchange Row)) (stmt : Sql Row)
    (reply : stmt.Reply) :
    written (done ++ [⟨stmt, reply⟩])
      = if stmt.writing && reply.isSome then Function.update (written done) stmt.key reply
        else written done := by
  simp [written]

theorem written_singleton {stmt : Sql Row} {reply : stmt.Reply} (hstmt : stmt.writing = true)
    (hreply : reply.isSome = true) : written [⟨stmt, reply⟩] stmt.key = reply := by
  simp [written, hstmt, hreply]

/-- What an open transaction has to do with the log. -/
structure SessionOk (body : (c : C) → Txn Row ε (ρ c)) (log : List (Event Row ε ρ)) (t : Nat)
    (s : Session Row ε ρ) : Prop where
  /-- The statements it ran lead to what is left of it. -/
  path : Prog.Path (body s.call).run (exchanges log t) s.rest
  writes : s.writes = written (exchanges log t)
  /-- It has locked what it wrote. -/
  locked : ∀ k, s.writes k ≠ none → k ∈ s.locks

/-- What the open transactions have to do with each other and with the log. -/
structure SessionInv (body : (c : C) → Txn Row ε (ρ c)) (w : World Row ε ρ) : Prop where
  begun : ∀ t s, w.sessions t = some s → t < w.begun
  fresh : ∀ t, w.begun ≤ t → exchanges w.log t = []
  ok : ∀ t s, w.sessions t = some s → SessionOk body w.log t s
  /-- No two transactions hold the lock of one row. -/
  exclusive : ∀ t t' s s' k, w.sessions t = some s → w.sessions t' = some s' →
    k ∈ s.locks → k ∈ s'.locks → t = t'

variable {body : (c : C) → Txn Row ε (ρ c)} {w w' : World Row ε ρ}

theorem sessionInv_init (h : ∀ t, w.sessions t = none) (hlog : w.log = []) :
    SessionInv body w where
  begun t s hs := by simp [h] at hs
  fresh t _ := by simp [hlog, exchanges]
  ok t s hs := by simp [h] at hs
  exclusive t _ s _ k hs := by simp [h] at hs

/-- One transaction moved: it has a new state, or is gone, and nobody else is affected. -/
theorem sessionInv_update (hinv : SessionInv body w) {tid : Nat}
    {moved : Option (Session Row ε ρ)}
    (hsessions : w'.sessions = Function.update w.sessions tid moved)
    (hbegun : w.begun ≤ w'.begun)
    (hothers : ∀ t ≠ tid, exchanges w'.log t = exchanges w.log t)
    (hfresh : w'.begun ≤ tid → exchanges w'.log tid = [])
    (hmoved : ∀ s, moved = some s → tid < w'.begun ∧ SessionOk body w'.log tid s ∧
      ∀ t s' k, t ≠ tid → w.sessions t = some s' → k ∈ s.locks → k ∉ s'.locks) :
    SessionInv body w' := by
  -- Every session of the new world is the one that moved, or was there before.
  have hcases : ∀ t s, w'.sessions t = some s →
      (t = tid ∧ moved = some s) ∨ (t ≠ tid ∧ w.sessions t = some s) := by
    intro t s hs
    rw [hsessions] at hs
    by_cases ht : t = tid
    · subst ht
      exact Or.inl ⟨rfl, by simpa using hs⟩
    · exact Or.inr ⟨ht, by simpa [Function.update_of_ne ht] using hs⟩
  -- One bullet a field, each split on whether the session is `tid`'s.
  refine ⟨?_, ?_, ?_, ?_⟩
  · intro t s hs
    rcases hcases t s hs with ⟨rfl, hs⟩ | ⟨_, hs⟩
    · exact (hmoved s hs).1
    · exact Nat.lt_of_lt_of_le (hinv.begun t s hs) hbegun
  · intro t ht
    by_cases heq : t = tid
    · subst heq
      exact hfresh ht
    · rw [hothers t heq]
      exact hinv.fresh t (Nat.le_trans hbegun ht)
  · intro t s hs
    rcases hcases t s hs with ⟨rfl, hs⟩ | ⟨hne, hs⟩
    · exact (hmoved s hs).2.1
    · have hok := hinv.ok t s hs
      exact ⟨by rw [hothers t hne]; exact hok.path, by rw [hothers t hne]; exact hok.writes,
        hok.locked⟩
  · intro t t' s s' k hs hs' hk hk'
    rcases hcases t s hs with ⟨rfl, hs⟩ | ⟨hne, hs⟩
    · rcases hcases t' s' hs' with ⟨rfl, _⟩ | ⟨hne', hs'⟩
      · rfl
      · exact absurd hk' ((hmoved s hs).2.2 t' s' k hne' hs' hk)
    · rcases hcases t' s' hs' with ⟨rfl, hs'⟩ | ⟨_, hs'⟩
      · exact absurd hk ((hmoved s' hs').2.2 t s k hne hs hk')
      · exact hinv.exclusive t t' s s' k hs hs' hk hk'

theorem not_lockedByOther (hinv : SessionInv body w) {tid : Nat} {k : K}
    (h : w.lockedByOther tid k = false) {other : Nat} {s : Session Row ε ρ} (hne : other ≠ tid)
    (hs : w.sessions other = some s) : k ∉ s.locks := by
  intro hk
  have hmem : other ∈ List.range w.begun := List.mem_range.mpr (hinv.begun other s hs)
  have hall := List.any_eq_false.mp h other hmem
  simp [hne, hs, hk] at hall

/-- A statement keeps its transaction in order. -/
theorem sessionOk_ran {log : List (Event Row ε ρ)} {tid : Nat} {s : Session Row ε ρ}
    (hok : SessionOk body log tid s) {stmt : Sql Row}
    {next : stmt.Reply → Prog (Sql Row) Sql.Reply (Except ε (ρ s.call))}
    (hrest : s.rest = .perform stmt next) {serial : Nat} {row : Option (Row stmt.key)}
    {e : Sql.Effect (Row stmt.key)} (he : stmt.effect serial row = e) :
    SessionOk body (log ++ [.ran tid stmt e.reply]) tid (s.ran stmt e (next e.reply)) := by
  have hran : exchanges (log ++ [.ran tid stmt e.reply]) tid
      = exchanges log tid ++ [⟨stmt, e.reply⟩] := by
    simp [exchanges]
  refine ⟨?_, ?_, ?_⟩
  · -- path: the program is one exchange further on.
    have hpath := hok.path
    rw [hrest] at hpath
    rw [hran]
    exact hpath.concat e.reply
  · -- writes: what has been written is what the exchanges say.
    have hwrite := Sql.write_eq stmt serial row
    rw [he] at hwrite
    rw [hran, written_concat, ← hok.writes]
    unfold Session.ran
    cases hw : stmt.writing <;> simp [hwrite, hw]
  · intro k hk
    unfold Session.ran at hk ⊢
    -- locked: whatever is written was locked by the same statement.
    by_cases hwrite : e.write.isSome = true
    · obtain ⟨new, hnew⟩ := Option.isSome_iff_exists.mp hwrite
      have hlock : e.lock = true := by
        rw [← he] at hnew ⊢
        exact Sql.lock_of_write hnew
      simp only [if_pos hwrite] at hk
      simp only [if_pos hlock, List.mem_cons]
      by_cases hkey : k = stmt.key
      · exact Or.inl hkey
      · rw [Function.update_of_ne hkey] at hk
        exact Or.inr (hok.locked k hk)
    · simp only [if_neg hwrite] at hk
      have hold := hok.locked k hk
      dsimp only
      split
      · exact List.mem_cons_of_mem _ hold
      · exact hold

/-- What an action can do to the world. -/
theorem act_cases {a : Action C} (hact : w.act body a = some w') :
    (∃ call, a = .begin call ∧ w' = { w with
      sessions := Function.update w.sessions w.begun
        (some ⟨call, (body call).run, fun _ => none, false, []⟩)
      begun := w.begun + 1 }) ∨
    (∃ tid s stmt next e, a = .run tid ∧ w.sessions tid = some s ∧
      s.rest = .perform stmt next ∧
      (stmt.waits (s.sees w.db stmt.key) = true → w.lockedByOther tid stmt.key = false) ∧
      stmt.effect w.serial (s.sees w.db stmt.key) = e ∧
      w' = { w with
        serial := w.serial + stmt.draws
        sessions := Function.update w.sessions tid (some (s.ran stmt e (next e.reply)))
        log := w.log ++ [.ran tid stmt e.reply] }) ∨
    (∃ tid s result, a = .finish tid ∧ w.sessions tid = some s ∧ s.rest = .pure (.ok result) ∧
      w' = { w with
        db := w.merged s
        sessions := Function.update w.sessions tid none
        log := w.log ++ [.committed tid s.call result s.wrote] }) ∨
    (∃ tid s error, a = .finish tid ∧ w.sessions tid = some s ∧
      s.rest = .pure (.error error) ∧
      w' = { w with
        sessions := Function.update w.sessions tid none
        log := w.log ++ [.raised tid s.call error] }) ∨
    (∃ tid, a = .abort tid ∧ w' = { w with sessions := Function.update w.sessions tid none }) := by
  cases a with
  | begin call => exact Or.inl ⟨call, rfl, (Option.some.inj hact).symm⟩
  | run tid =>
    simp only [act] at hact
    -- A session runs its next statement, unless it has to wait for a lock.
    split at hact
    · cases hact
    · next s hs =>
      split at hact
      · cases hact
      · next stmt next hrest =>
        split at hact
        · cases hact
        · next hwait =>
          refine Or.inr (Or.inl ⟨tid, s, stmt, next, _, rfl, hs, hrest, ?_, rfl,
            (Option.some.inj hact).symm⟩)
          intro hw
          simpa [hw] using hwait
  | finish tid =>
    simp only [act] at hact
    split at hact
    · cases hact
    · next s hs =>
      split at hact
      · cases hact
      · next result hrest =>
        exact Or.inr (Or.inr (Or.inl ⟨tid, s, result, rfl, hs, hrest,
          (Option.some.inj hact).symm⟩))
      · next error hrest =>
        exact Or.inr (Or.inr (Or.inr (Or.inl ⟨tid, s, error, rfl, hs, hrest,
          (Option.some.inj hact).symm⟩)))
  | abort tid =>
    exact Or.inr (Or.inr (Or.inr (Or.inr ⟨tid, rfl, (Option.some.inj hact).symm⟩)))

/-- **Every action keeps the session invariant.** -/
theorem sessionInv_act (hinv : SessionInv body w) {a : Action C} (hact : w.act body a = some w') :
    SessionInv body w' := by
  obtain ⟨call, rfl, rfl⟩ | ⟨tid, s, stmt, next, e, rfl, hs, hrest, hwait, he, rfl⟩ |
    ⟨tid, s, result, rfl, hs, hrest, rfl⟩ | ⟨tid, s, error, rfl, hs, hrest, rfl⟩ |
    ⟨tid, rfl, rfl⟩ := act_cases hact
  · refine sessionInv_update hinv rfl (Nat.le_succ _) (fun _ _ => rfl)
      (fun h => absurd h (Nat.not_succ_le_self _)) ?_
    intro s hs
    obtain rfl := Option.some.inj hs
    -- A session that begins has done nothing.
    have hnil : exchanges w.log w.begun = [] := hinv.fresh _ (Nat.le_refl _)
    refine ⟨Nat.lt_succ_self _, ⟨?_, ?_, fun k hk => absurd rfl hk⟩, ?_⟩
    · rw [hnil]
      exact Prog.Path.nil
    · rw [hnil]
      rfl
    · intro t s' k _ _ hk
      cases hk
  · -- A statement ran: a lock it takes was free, or it would have waited.
    have hbegun := hinv.begun tid s hs
    refine sessionInv_update hinv rfl (Nat.le_refl _) ?_
      (fun h => absurd hbegun (Nat.not_lt.mpr h)) ?_
    · intro t ht
      simp [exchanges, Ne.symm ht]
    · intro s' hs'
      obtain rfl := Option.some.inj hs'
      refine ⟨hbegun, sessionOk_ran (hinv.ok tid s hs) hrest he, ?_⟩
      intro t s' k ht hs' hk
      unfold Session.ran at hk
      by_cases hlock : e.lock = true
      · simp only [if_pos hlock, List.mem_cons] at hk
        rcases hk with rfl | hk
        · have hw := Sql.waits_of_lock (by rw [he]; exact hlock)
          exact not_lockedByOther hinv (hwait hw) ht hs'
        · exact fun hk' => ht (hinv.exclusive t tid s' s k hs' hs hk' hk)
      · simp only [if_neg hlock] at hk
        exact fun hk' => ht (hinv.exclusive t tid s' s k hs' hs hk' hk)
  · refine sessionInv_update hinv rfl (Nat.le_refl _) (fun t _ => by simp [exchanges]) ?_
      (fun _ h => nomatch h)
    exact fun h => absurd (hinv.begun tid s hs) (Nat.not_lt.mpr h)
  · refine sessionInv_update hinv rfl (Nat.le_refl _) (fun t _ => by simp [exchanges]) ?_
      (fun _ h => nomatch h)
    exact fun h => absurd (hinv.begun tid s hs) (Nat.not_lt.mpr h)
  · exact sessionInv_update hinv rfl (Nat.le_refl _) (fun _ _ => rfl) (hinv.fresh tid)
      (fun _ h => nomatch h)

/-! ## Section 4: Orders the statements keep -/

/-- A transaction's own rows are above the committed ones. -/
structure AboveInv (body : (c : C) → Txn Row ε (ρ c)) (R : ∀ k, Row k → Row k → Prop)
    (w : World Row ε ρ) : Prop extends SessionInv body w where
  above : ∀ t s k old new, w.sessions t = some s → s.writes k = some new →
    w.db k = some old → R k old new

/-- **Monotone rows**: what every statement keeps between a row and the row it writes in
    its place, an action keeps between the committed rows before and after it. -/
theorem monotone {R : ∀ k, Row k → Row k → Prop} (hrefl : ∀ k r, R k r r)
    (htrans : ∀ k r₁ r₂ r₃, R k r₁ r₂ → R k r₂ r₃ → R k r₁ r₃)
    (hbody : ∀ c, (body c).All (Sql.Keeps R))
    (hinv : AboveInv body R w) {a : Action C} (hact : w.act body a = some w') :
    AboveInv body R w' ∧
      ∀ k old, w.db k = some old → ∃ new, w'.db k = some new ∧ R k old new := by
  have hnext := sessionInv_act hinv.toSessionInv hact
  have hsame : ∀ k old, w.db k = some old → ∃ new, w.db k = some new ∧ R k old new :=
    fun k old h => ⟨old, h, hrefl k old⟩
  -- The sessions that remain when one ends are as they were.
  have hdrop : ∀ tid t s k, Function.update w.sessions tid none t = some s →
      s.writes k ≠ none → t ≠ tid ∧ w.sessions t = some s := by
    intro tid t s k hs _
    by_cases ht : t = tid
    · simp [ht] at hs
    · exact ⟨ht, by simpa [Function.update_of_ne ht] using hs⟩
  obtain ⟨call, rfl, rfl⟩ | ⟨tid, s, stmt, next, e, rfl, hs, hrest, hwait, he, rfl⟩ |
    ⟨tid, s, result, rfl, hs, hrest, rfl⟩ | ⟨tid, s, error, rfl, hs, hrest, rfl⟩ |
    ⟨tid, rfl, rfl⟩ := act_cases hact
  · refine ⟨⟨hnext, ?_⟩, hsame⟩
    intro t s k old new hs hnew hold
    by_cases ht : t = w.begun
    · subst ht
      dsimp only at hs
      rw [Function.update_self, Option.some.injEq] at hs
      subst hs
      cases hnew
    · exact hinv.above t s k old new (by simpa [Function.update_of_ne ht] using hs) hnew hold
  · refine ⟨⟨hnext, ?_⟩, hsame⟩
    intro t s' k old new hs' hnew hold
    by_cases ht : t = tid
    · subst ht
      dsimp only at hs'
      rw [Function.update_self, Option.some.injEq] at hs'
      subst hs'
      unfold Session.ran at hnew
      by_cases hwrite : e.write.isSome = true
      · simp only [if_pos hwrite] at hnew
        by_cases hkey : k = stmt.key
        · subst hkey
          rw [Function.update_self] at hnew
          -- The statement is one of the body's, so it keeps the relation.
          have hkeeps : stmt.Keeps R := by
            have hall := (hinv.ok t s hs).path.ensures (hbody s.call)
            rw [hrest] at hall
            exact hall.1
          rw [← he] at hnew
          -- It rewrote its own version of the row, or the committed one.
          cases hmine : s.writes stmt.key with
          | none =>
            have hsees : s.sees w.db stmt.key = some old := by
              simpa [Session.sees, hmine] using hold
            rw [hsees] at hnew
            exact hkeeps.effect hnew
          | some mine =>
            have hsees : s.sees w.db stmt.key = some mine := by
              simp [Session.sees, hmine]
            rw [hsees] at hnew
            exact htrans _ _ _ _ (hinv.above t s _ old mine hs hmine hold) (hkeeps.effect hnew)
        · rw [Function.update_of_ne hkey] at hnew
          exact hinv.above t s k old new hs hnew hold
      · simp only [if_neg hwrite] at hnew
        exact hinv.above t s k old new hs hnew hold
    · exact hinv.above t s' k old new (by simpa [Function.update_of_ne ht] using hs') hnew hold
  · refine ⟨⟨hnext, ?_⟩, ?_⟩
    · intro t s' k old new hs' hnew hold
      obtain ⟨ht, hs'⟩ := hdrop tid t s' k hs' (by simp [hnew])
      -- the committing transaction cannot have written a row that another one has locked
      have hmine : s.writes k = none := by
        by_contra hne
        exact ht (hinv.exclusive t tid s' s k hs' hs
          ((hinv.ok t s' hs').locked k (by simp [hnew])) ((hinv.ok tid s hs).locked k hne))
      have hdb : w.db k = some old := by simpa [merged, hmine] using hold
      exact hinv.above t s' k old new hs' hnew hdb
    · intro k old hold
      cases hmine : s.writes k with
      | none => exact ⟨old, by simp [merged, hmine, hold], hrefl k old⟩
      | some new =>
        -- A commit replaces each row by one above it.
        exact ⟨new, by simp [merged, hmine], hinv.above tid s k old new hs hmine hold⟩
  · refine ⟨⟨hnext, ?_⟩, hsame⟩
    intro t s' k old new hs' hnew hold
    obtain ⟨_, hs'⟩ := hdrop tid t s' k hs' (by simp [hnew])
    exact hinv.above t s' k old new hs' hnew hold
  · refine ⟨⟨hnext, ?_⟩, hsame⟩
    intro t s' k old new hs' hnew hold
    obtain ⟨_, hs'⟩ := hdrop tid t s' k hs' (by simp [hnew])
    exact hinv.above t s' k old new hs' hnew hold

end World

end ReadCommitted
