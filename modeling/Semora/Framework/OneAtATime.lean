import Semora.Framework.ReadCommitted

/-! # Transactions One at a Time

    A transaction that nobody overlaps sees the rows as they are and leaves
    them as its statements do, or, when it raises, as they were.

    * `Tables`: the rows there are, and the order in which they were made.
    * `Txn.eval`: what a transaction returns or raises, and what it wrote.
    * `Txn.alone`: what is left of it, by its own commit or rollback.
    * `after_alone`: it is what happens to the database when the transaction's
      statements run with no other one open. -/

namespace ReadCommitted

variable {K : Type} {Row : K → Type}

/-! ## Section 1: Tables -/

/-- The rows there are, and their keys, the oldest first. -/
structure Tables (Row : K → Type) where
  rows : Database Row
  keys : List K
  serial : Nat
  nodup : keys.Nodup
  mem_keys : ∀ k, k ∈ keys ↔ rows k ≠ none

namespace Tables

variable (t : Tables Row)

/-- No rows. -/
def empty : Tables Row where
  rows _ := none
  keys := []
  serial := 0
  nodup := List.nodup_nil
  mem_keys k := by simp

/-- Numbers are drawn from the serial. -/
def draw (n : Nat) : Tables Row := { t with serial := t.serial + n }

@[simp] theorem rows_empty (k : K) : (empty : Tables Row).rows k = none := rfl

@[simp] theorem keys_empty : (empty : Tables Row).keys = [] := rfl

@[simp] theorem rows_draw (n : Nat) : (t.draw n).rows = t.rows := rfl

@[simp] theorem keys_draw (n : Nat) : (t.draw n).keys = t.keys := rfl

@[simp] theorem serial_draw (n : Nat) : (t.draw n).serial = t.serial + n := rfl

@[simp] theorem draw_zero : t.draw 0 = t := rfl

variable [DecidableEq K]

/-- The keys once `k` is among them. -/
def keysWith (k : K) : List K := if k ∈ t.keys then t.keys else t.keys ++ [k]

/-- A row is written: over the one there was, or as the newest. -/
def write (k : K) (row : Row k) : Tables Row where
  rows := Function.update t.rows k (some row)
  keys := t.keysWith k
  serial := t.serial
  nodup := by
    unfold keysWith
    split
    · exact t.nodup
    · next hnew =>
      refine List.nodup_append.mpr ⟨t.nodup, by simp, ?_⟩
      rintro a ha b hb rfl
      obtain rfl := List.mem_singleton.mp hb
      exact hnew ha
  mem_keys k' := by
    unfold keysWith
    by_cases hk : k' = k
    · subst hk
      split
      · next hold => simp [hold]
      · simp
    · rw [Function.update_of_ne hk, ← t.mem_keys]
      split
      · rfl
      · simp [hk]

/-- A row is written, if there is one to write. -/
def put (k : K) : Option (Row k) → Tables Row
  | none => t
  | some row => t.write k row

/-- The tables after a statement. -/
def ran (stmt : Sql Row) : Tables Row :=
  (t.put stmt.key (stmt.effect t.serial (t.rows stmt.key)).write).draw stmt.draws

@[simp] theorem rows_write_self (k : K) (row : Row k) : (t.write k row).rows k = some row :=
  Function.update_self ..

@[simp] theorem rows_write_ne {k k' : K} (row : Row k) (h : k' ≠ k) :
    (t.write k row).rows k' = t.rows k' :=
  Function.update_of_ne h ..

@[simp] theorem serial_write (k : K) (row : Row k) : (t.write k row).serial = t.serial := rfl

@[simp] theorem keys_write (k : K) (row : Row k) : (t.write k row).keys = t.keysWith k := rfl

@[simp] theorem put_none (k : K) : t.put k none = t := rfl

@[simp] theorem put_some (k : K) (row : Row k) : t.put k (some row) = t.write k row := rfl

@[simp] theorem serial_put (k : K) (row : Option (Row k)) : (t.put k row).serial = t.serial := by
  cases row <;> rfl

theorem rows_put (k k' : K) (row : Option (Row k)) :
    (t.put k row).rows k' = if row.isSome then Function.update t.rows k row k' else t.rows k' := by
  cases row <;> rfl

/-- Writing over a row keeps the order. -/
theorem keysWith_of_some {k : K} {row : Row k} (h : t.rows k = some row) :
    t.keysWith k = t.keys := by
  have hmem : k ∈ t.keys := (t.mem_keys k).mpr (by rw [h]; exact Option.some_ne_none _)
  exact if_pos hmem

theorem keysWith_of_none {k : K} (h : t.rows k = none) : t.keysWith k = t.keys ++ [k] := by
  have hnew : k ∉ t.keys := fun hmem => (t.mem_keys k).mp hmem h
  exact if_neg hnew

end Tables

/-! ## Section 2: One transaction -/

variable [DecidableEq K]

/-- What a program of statements returns, and the tables it leaves. -/
def evalProg {α : Type} : Prog (Sql Row) Sql.Reply α → Tables Row → α × Tables Row
  | .pure a, t => (a, t)
  | .perform stmt next, t =>
    evalProg (next (stmt.effect t.serial (t.rows stmt.key)).reply) (t.ran stmt)

theorem evalProg_bind {α β : Type} (p : Prog (Sql Row) Sql.Reply α)
    (f : α → Prog (Sql Row) Sql.Reply β) (t : Tables Row) :
    evalProg (p >>= f) t = evalProg (f (evalProg p t).1) (evalProg p t).2 := by
  induction p generalizing t with
  | pure a => rfl
  | perform stmt next ih => exact ih _ _

namespace Txn

variable {ε α β : Type}

/-- What a transaction returns or raises, and the tables it wrote. -/
def eval (x : Txn Row ε α) (t : Tables Row) : Except ε α × Tables Row := evalProg x.run t

/-- What is left of a transaction that began in `t` and wrote `t'`: it is committed when it
    returned, and rolled back when it raised. Numbers drawn from the serial are not given back. -/
def ended (t : Tables Row) : Except ε α → Tables Row → Tables Row
  | .ok _, t' => t'
  | .error _, t' => { t with serial := t'.serial }

/-- A transaction that nobody overlaps. -/
def alone (x : Txn Row ε α) (t : Tables Row) : Except ε α × Tables Row :=
  ((x.eval t).1, ended t (x.eval t).1 (x.eval t).2)

@[simp] theorem eval_pure (a : α) (t : Tables Row) : (pure a : Txn Row ε α).eval t = (.ok a, t) :=
  rfl

@[simp] theorem eval_throw (e : ε) (t : Tables Row) :
    (throw e : Txn Row ε α).eval t = (.error e, t) := rfl

theorem eval_bind (x : Txn Row ε α) (f : α → Txn Row ε β) (t : Tables Row) :
    (x >>= f).eval t =
      match x.eval t with
      | (.ok a, t') => (f a).eval t'
      | (.error e, t') => (.error e, t') := by
  refine (evalProg_bind x.run (ExceptT.bindCont f) t).trans ?_
  unfold eval
  obtain ⟨_ | _, _⟩ := evalProg x.run t <;> rfl

/-- A transaction goes on after a part that returned. -/
theorem eval_bind_of_ok {x : Txn Row ε α} {t t' : Tables Row} {a : α} (h : x.eval t = (.ok a, t'))
    (f : α → Txn Row ε β) : (x >>= f).eval t = (f a).eval t' := by
  rw [eval_bind, h]

/-- A transaction ends with a part that raised. -/
theorem eval_bind_of_error {x : Txn Row ε α} {t t' : Tables Row} {e : ε}
    (h : x.eval t = (.error e, t')) (f : α → Txn Row ε β) :
    (x >>= f).eval t = (.error e, t') := by
  rw [eval_bind, h]

theorem eval_exec (stmt : Sql Row) (t : Tables Row) :
    (exec stmt : Txn Row ε _).eval t
      = (.ok (stmt.effect t.serial (t.rows stmt.key)).reply, t.ran stmt) := rfl

@[simp] theorem eval_select (k : K) (t : Tables Row) :
    (exec (.select k) : Txn Row ε _).eval t = (.ok (t.rows k), t) := rfl

@[simp] theorem eval_selectForUpdate (k : K) (t : Tables Row) :
    (exec (.selectForUpdate k) : Txn Row ε _).eval t = (.ok (t.rows k), t) := rfl

theorem eval_update (k : K) (change : Row k → Option (Row k)) (t : Tables Row) :
    (exec (.update k change) : Txn Row ε _).eval t
      = (.ok ((t.rows k).bind change), t.put k ((t.rows k).bind change)) := by
  rw [eval_exec]
  unfold Tables.ran Sql.effect
  dsimp only [Sql.key]
  cases (t.rows k).bind change <;> rfl

theorem eval_upsert (k : K) (fresh : Row k) (change : Row k → Option (Row k)) (t : Tables Row) :
    (exec (.upsert k fresh change) : Txn Row ε _).eval t
      = (.ok ((t.rows k).elim (some fresh) change),
          t.put k ((t.rows k).elim (some fresh) change)) := by
  rw [eval_exec]
  unfold Tables.ran Sql.effect
  dsimp only [Sql.key]
  cases t.rows k with
  | none => rfl
  | some old =>
    dsimp only [Option.elim]
    cases change old <;> rfl

theorem eval_insert (k : K) (fresh : Row k) (t : Tables Row) :
    (exec (.insert k fresh) : Txn Row ε _).eval t
      = (.ok ((t.rows k).elim (some fresh) fun _ => none),
          t.put k ((t.rows k).elim (some fresh) fun _ => none)) := by
  rw [eval_exec]
  unfold Tables.ran Sql.effect
  dsimp only [Sql.key]
  cases t.rows k <;> rfl

theorem eval_insertSerial (k : K) (fresh : Nat → Row k) (t : Tables Row) :
    (exec (.insertSerial k fresh) : Txn Row ε _).eval t
      = (.ok ((t.rows k).elim (some (fresh t.serial)) fun _ => none),
          (t.put k ((t.rows k).elim (some (fresh t.serial)) fun _ => none)).draw 1) := by
  rw [eval_exec]
  unfold Tables.ran Sql.effect
  dsimp only [Sql.key]
  cases t.rows k <;> rfl

theorem alone_of_ok {x : Txn Row ε α} {t t' : Tables Row} {a : α} (h : x.eval t = (.ok a, t')) :
    x.alone t = (.ok a, t') := by
  unfold alone
  rw [h]
  rfl

theorem alone_of_error {x : Txn Row ε α} {t t' : Tables Row} {e : ε}
    (h : x.eval t = (.error e, t')) : x.alone t = (.error e, { t with serial := t'.serial }) := by
  unfold alone
  rw [h]
  rfl

/-- The serial never falls. -/
theorem serial_le_eval (x : Txn Row ε α) (t : Tables Row) : t.serial ≤ (x.eval t).2.serial := by
  have hprog : ∀ (p : Prog (Sql Row) Sql.Reply (Except ε α)) (t : Tables Row),
      t.serial ≤ (evalProg p t).2.serial := by
    intro p
    induction p with
    | pure r => exact fun t => Nat.le_refl _
    | perform stmt next ih =>
      intro t
      have hran : (t.ran stmt).serial = t.serial + stmt.draws := by
        unfold Tables.ran
        rw [Tables.serial_draw, Tables.serial_put]
      have hrest := ih (stmt.effect t.serial (t.rows stmt.key)).reply (t.ran stmt)
      rw [hran] at hrest
      exact Nat.le_trans (Nat.le_add_right _ _) hrest
  exact hprog x.run t

/-! ### Transactions that do not raise -/

/-- The transaction returns, whatever the tables. -/
def Returns (x : Txn Row ε α) : Prop := ∀ t, ∃ a t', x.eval t = (.ok a, t')

theorem returns_pure (a : α) : Returns (pure a : Txn Row ε α) := fun t => ⟨a, t, rfl⟩

theorem returns_exec (stmt : Sql Row) : Returns (exec stmt : Txn Row ε _) :=
  fun t => ⟨_, _, eval_exec stmt t⟩

theorem Returns.bind {x : Txn Row ε α} {f : α → Txn Row ε β} (hx : Returns x)
    (hf : ∀ a, Returns (f a)) : Returns (x >>= f) := by
  intro t
  obtain ⟨a, t', hx⟩ := hx t
  obtain ⟨b, t'', hf⟩ := hf a t'
  exact ⟨b, t'', (eval_bind_of_ok hx f).trans hf⟩

theorem returns_forM {ι : Type} {f : ι → Txn Row ε PUnit} (hf : ∀ i, Returns (f i))
    (items : List ι) : Returns (items.forM f) := by
  induction items with
  | nil => exact returns_pure _
  | cons i items ih => exact (hf i).bind fun _ => ih

end Txn

/-! ## Section 3: In the world of all transactions -/

section world

variable {C ε : Type} {ρ : C → Type} {body : (c : C) → Txn Row ε (ρ c)} {w : World Row ε ρ}

/-- The world holds these rows, and no transaction is open. -/
structure Idle (t : Tables Row) (w : World Row ε ρ) : Prop where
  db : w.db = t.rows
  serial : w.serial = t.serial
  sessions : ∀ tid, w.sessions tid = none

/-- Transaction `tid` is the only one open, and sees the rows of `t`. -/
structure OnlyOpen (tid : Nat) (s : Session Row ε ρ) (t : Tables Row) (w : World Row ε ρ) :
    Prop where
  session : w.sessions tid = some s
  others : ∀ other ≠ tid, w.sessions other = none
  sees : w.merged s = t.rows
  serial : w.serial = t.serial

theorem OnlyOpen.unlocked {tid : Nat} {s : Session Row ε ρ} {t : Tables Row}
    (h : OnlyOpen tid s t w) (k : K) : w.lockedByOther tid k = false := by
  unfold World.lockedByOther
  refine List.any_eq_false.mpr fun other _ => ?_
  by_cases hother : other = tid
  · simp [hother]
  · simp [h.others other hother]

/-- What is left of the only open transaction runs to its end. -/
theorem OnlyOpen.runs (body : (c : C) → Txn Row ε (ρ c)) {tid : Nat} {call : C}
    {rest : Prog (Sql Row) Sql.Reply (Except ε (ρ call))}
    {writes : Database Row} {wrote : Bool} {locks : List K} {t : Tables Row}
    (h : OnlyOpen tid ⟨call, rest, writes, wrote, locks⟩ t w) :
    ∃ n writes' wrote' locks',
      OnlyOpen tid ⟨call, .pure (evalProg rest t).1, writes', wrote', locks'⟩ (evalProg rest t).2
        (w.after body (List.replicate n (.run tid))) ∧
      (w.after body (List.replicate n (.run tid))).db = w.db := by
  -- Induction on the program: alone, a session never waits and sees what it evaluates on.
  induction rest generalizing w writes wrote locks t with
  | pure r => exact ⟨0, writes, wrote, locks, h, rfl⟩
  | perform stmt next ih =>
    let s : Session Row ε ρ := ⟨call, .perform stmt next, writes, wrote, locks⟩
    let e := stmt.effect t.serial (t.rows stmt.key)
    let w' : World Row ε ρ := { w with
      serial := t.serial + stmt.draws
      sessions := Function.update w.sessions tid (some (s.ran stmt e (next e.reply)))
      log := w.log ++ [.ran tid stmt e.reply] }
    have hsees : s.sees w.db stmt.key = t.rows stmt.key := congrFun h.sees stmt.key
    -- No other session has a lock, so the statement runs at once.
    have hact : w.act body (.run tid) = some w' := by
      have hwaits : (stmt.waits (s.sees w.db stmt.key) && w.lockedByOther tid stmt.key) = false := by
        rw [h.unlocked, Bool.and_false]
      unfold World.act
      simp only [h.session]
      rw [if_neg (by rw [hwaits]; decide), hsees, h.serial]
    have hopen : OnlyOpen tid (s.ran stmt e (next e.reply)) (t.ran stmt) w' := by
      refine ⟨Function.update_self .., fun other hother => ?_, ?_, ?_⟩
      · exact (Function.update_of_ne hother ..).trans (h.others other hother)
      · funext k
        have hk : (writes k).or (w.db k) = t.rows k := congrFun h.sees k
        show ((s.ran stmt e (next e.reply)).writes k).or (w.db k) = (t.put stmt.key e.write).rows k
        unfold Session.ran
        rw [Tables.rows_put]
        cases hwrite : e.write with
        | none => exact hk
        | some row =>
          -- It sees its own row as written, and every other as before.
          by_cases hkey : k = stmt.key
          · subst hkey
            simp
          · simpa [Function.update_of_ne hkey] using hk
      · show t.serial + stmt.draws = (t.ran stmt).serial
        unfold Tables.ran
        rw [Tables.serial_draw, Tables.serial_put]
    obtain ⟨n, writes', wrote', locks', hrest, hdb⟩ := ih e.reply hopen
    have hafter : w.after body (List.replicate (n + 1) (.run tid))
        = w'.after body (List.replicate n (.run tid)) := by
      rw [List.replicate_succ]
      unfold World.after
      rw [List.foldl_cons, hact]
      rfl
    refine ⟨n + 1, writes', wrote', locks', ?_⟩
    rw [hafter]
    exact ⟨hrest, hdb⟩

/-- The only open transaction ends: its rows are committed, or it is rolled back. -/
theorem OnlyOpen.finishes {tid : Nat} {call : C} {r : Except ε (ρ call)} {writes : Database Row}
    {wrote : Bool} {locks : List K} {t₀ t : Tables Row}
    (h : OnlyOpen tid ⟨call, .pure r, writes, wrote, locks⟩ t w) (hdb : w.db = t₀.rows) :
    Idle (Txn.ended t₀ r t) ((w.act body (.finish tid)).getD w) := by
  have hnone : ∀ other, Function.update w.sessions tid none other = none := by
    intro other
    by_cases hother : other = tid
    · rw [hother, Function.update_self]
    · rw [Function.update_of_ne hother, h.others other hother]
  unfold World.act
  simp only [h.session]
  cases r with
  | error e => exact ⟨hdb, h.serial, hnone⟩
  | ok a => exact ⟨h.sees, h.serial, hnone⟩

/-- **One at a time**: where no other transaction is open, a call that is run to its end leaves
    the database as its transaction alone does. -/
theorem after_alone {t : Tables Row} (h : Idle t w) (call : C) :
    ∃ n, Idle ((body call).alone t).2 (w.after body
      (.begin call :: List.replicate n (.run w.begun) ++ [.finish w.begun])) := by
  let w₁ : World Row ε ρ := { w with
    sessions := Function.update w.sessions w.begun
      (some ⟨call, (body call).run, fun _ => none, false, []⟩)
    begun := w.begun + 1 }
  have hopen : OnlyOpen w.begun ⟨call, (body call).run, fun _ => none, false, []⟩ t w₁ := by
    refine ⟨Function.update_self .., fun other hother => ?_, ?_, h.serial⟩
    · exact (Function.update_of_ne hother ..).trans (h.sessions other)
    · rw [← h.db]
      rfl
  obtain ⟨n, writes, wrote, locks, hend, hdb⟩ := hopen.runs body
  refine ⟨n, ?_⟩
  have hafter : w.after body (.begin call :: List.replicate n (.run w.begun) ++ [.finish w.begun])
      = ((w₁.after body (List.replicate n (.run w.begun))).act body (.finish w.begun)).getD
          (w₁.after body (List.replicate n (.run w.begun))) := by
    unfold World.after
    rw [List.cons_append, List.foldl_cons, List.foldl_append]
    rfl
  rw [hafter]
  exact hend.finishes (hdb.trans h.db)

end world

end ReadCommitted
