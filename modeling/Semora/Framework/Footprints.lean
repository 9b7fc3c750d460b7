import Semora.Framework.ReadCommitted

/-! # Footprints

    Under READ COMMITTED a transaction sees rows that others change between
    its statements. What it has locked they do not change: those rows are, at
    its commit, still as they were committed when it locked them. This is the
    transaction's footprint, and on its footprint it is atomic.

    A transaction is checked alone, against any answers about rows that it
    has not locked (`Txn.Leaves`). What was checked holds of each of its
    commits, in every schedule: the rule `committed_rows` says that what
    every footprint keeps, between the log and the committed rows, every
    schedule keeps. -/

namespace ReadCommitted

variable {K : Type} {Row : K → Type}

/-! ## Section 1: Footprints -/

section effects

variable {k : K} (serial : Nat) (row : Option (Row k))

theorem Sql.effect_update (change : Row k → Option (Row k)) :
    (Sql.update k change).effect serial row
      = ⟨row.bind change, row.bind change, (row.bind change).isSome⟩ := by
  simp only [Sql.effect]
  split
  · next new hnew =>
    have hchange : row.bind change = some new := hnew
    show (⟨some new, some new, true⟩ : Sql.Effect (Row k))
      = ⟨row.bind change, row.bind change, (row.bind change).isSome⟩
    rw [hchange]
    rfl
  · next hnew =>
    have hchange : row.bind change = none := hnew
    show ({} : Sql.Effect (Row k))
      = ⟨row.bind change, row.bind change, (row.bind change).isSome⟩
    rw [hchange]
    rfl

theorem Sql.effect_upsert (fresh : Row k) (change : Row k → Option (Row k)) :
    (Sql.upsert k fresh change).effect serial row
      = ⟨row.elim (some fresh) change, row.elim (some fresh) change, true⟩ := by
  cases row with
  | none => rfl
  | some old =>
    simp only [Sql.effect]
    split
    · next new hnew =>
      show (⟨some new, some new, true⟩ : Sql.Effect (Row k)) = ⟨change old, change old, true⟩
      rw [hnew]
    · next hnew =>
      show ({ lock := true } : Sql.Effect (Row k)) = ⟨change old, change old, true⟩
      rw [hnew]

end effects

/-- A row that a transaction has locked: as it was committed, and what the transaction has written
    over it, if anything. -/
structure Held (R : Type) where
  committed : Option R
  write : Option R

/-- The row as its transaction sees it. -/
def Held.own {R : Type} (held : Held R) : Option R := held.write.or held.committed

/-- The rows that a transaction has locked. -/
abbrev Footprint (Row : K → Type) := (k : K) → Option (Held (Row k))

namespace Footprint

/-- No row is locked. -/
def nothing : Footprint Row := fun _ => none

variable (f : Footprint Row)

/-- A statement may be shown this row: any, if it is not locked. -/
def Shows (k : K) (row : Option (Row k)) : Prop := ∀ held, f k = some held → row = held.own

/-- The footprint is of these committed rows. -/
def Of (db : Database Row) : Prop := ∀ k held, f k = some held → held.committed = db k

/-- The committed rows once the transaction's are among them. -/
def onto (db : Database Row) : Database Row := fun k => ((f k).bind Held.write).or (db k)

/-- The transaction has written something. -/
def Wrote : Prop := ∃ k, (f k).bind Held.write ≠ none

section onto

variable {f} {db : Database Row} {k : K}

theorem onto_of_none (hk : f k = none) : f.onto db k = db k := by
  simp [onto, hk]

theorem onto_of_held {committed : Option (Row k)} {new : Row k}
    (hk : f k = some ⟨committed, some new⟩) : f.onto db k = some new := by
  simp [onto, hk]

/-- Rows do not go away. -/
theorem onto_ne_none (hk : db k ≠ none) : f.onto db k ≠ none := by
  simp [onto, hk]

theorem wrote_of_held {committed : Option (Row k)} {new : Row k}
    (hk : f k = some ⟨committed, some new⟩) : f.Wrote :=
  ⟨k, by simp [hk]⟩

/-- A transaction that has locked one row, and not written it, has written nothing. -/
theorem not_wrote_of_only (hothers : ∀ k', k' ≠ k → f k' = none)
    (hk : (f k).bind Held.write = none) : ¬ f.Wrote := by
  rintro ⟨k', hwritten⟩
  by_cases hkey : k' = k
  · subst hkey
    exact hwritten hk
  · exact hwritten (by rw [hothers k' hkey]; rfl)

theorem onto_of_not_wrote (h : ¬ f.Wrote) : f.onto db = db := by
  funext k
  have hnone : (f k).bind Held.write = none := by
    by_contra hk
    exact h ⟨k, hk⟩
  simp [onto, hnone]

end onto

variable [DecidableEq K]

/-- The footprint after a statement about row `k` that was shown `row`. -/
def after (k : K) (row : Option (Row k)) (e : Sql.Effect (Row k)) : Footprint Row :=
  if (f k).isSome || e.lock then
    Function.update f k
      (some ⟨(f k).elim row Held.committed, e.write.or ((f k).bind Held.write)⟩)
  else f

variable {k : K} (row : Option (Row k)) (e : Sql.Effect (Row k))

theorem after_self : f.after k row e k =
    if (f k).isSome || e.lock then
      some ⟨(f k).elim row Held.committed, e.write.or ((f k).bind Held.write)⟩
    else f k := by
  unfold after
  split
  · exact Function.update_self ..
  · rfl

theorem after_ne {k' : K} (h : k' ≠ k) : f.after k row e k' = f k' := by
  unfold after
  split
  · exact Function.update_of_ne h ..
  · rfl

variable {e} in
/-- Only a statement that locks writes, so that nothing is written outside the footprint. -/
theorem write_after_self (hlock : e.write ≠ none → e.lock = true) :
    (f.after k row e k).bind Held.write = e.write.or ((f k).bind Held.write) := by
  rw [after_self]
  cases hwrite : e.write with
  | none => split <;> rfl
  | some new =>
    rw [hlock (by simp [hwrite]), Bool.or_true, if_pos rfl]
    rfl

theorem after_held {held : Held (Row k)} (hk : f k = some held) :
    f.after k row e = Function.update f k (some ⟨held.committed, e.write.or held.write⟩) := by
  simp [after, hk]

theorem after_locked (hk : f k = none) (hlock : e.lock = true) :
    f.after k row e = Function.update f k (some ⟨row, e.write⟩) := by
  simp [after, hk, hlock]

theorem after_free (hk : f k = none) (hlock : e.lock = false) : f.after k row e = f := by
  simp [after, hk, hlock]

/-- A statement that only reads leaves the footprint. -/
theorem after_read (hwrite : e.write = none) (hlock : e.lock = false) : f.after k row e = f := by
  cases hk : f k with
  | none => exact f.after_free row e hk hlock
  | some held =>
    rw [f.after_held row e hk, hwrite, Option.none_or]
    exact Function.update_eq_self_iff.mpr hk.symm

end Footprint

/-! ## Section 2: What a transaction leaves -/

variable [DecidableEq K] {ε α β : Type}

/-- From footprint `f`, whatever it is shown of other rows, the program ends with what `Q` says. -/
def LeavesRows (Q : α → Footprint Row → Prop) : Prog (Sql Row) Sql.Reply α → Footprint Row → Prop
  | .pure a, f => Q a f
  | .perform stmt next, f => ∀ serial row, f.Shows stmt.key row →
      LeavesRows Q (next (stmt.effect serial row).reply)
        (f.after stmt.key row (stmt.effect serial row))

theorem LeavesRows.mono {Q Q' : α → Footprint Row → Prop} (hQ : ∀ a f, Q a f → Q' a f)
    {p : Prog (Sql Row) Sql.Reply α} {f : Footprint Row} (hp : LeavesRows Q p f) :
    LeavesRows Q' p f := by
  induction p generalizing f with
  | pure a => exact hQ a f hp
  | perform stmt next ih => exact fun serial row hrow => ih _ (hp serial row hrow)

theorem LeavesRows.and {Q Q' : α → Footprint Row → Prop} {p : Prog (Sql Row) Sql.Reply α}
    {f : Footprint Row} (hp : LeavesRows Q p f) (hp' : LeavesRows Q' p f) :
    LeavesRows (fun a f => Q a f ∧ Q' a f) p f := by
  induction p generalizing f with
  | pure a => exact ⟨hp, hp'⟩
  | perform stmt next ih =>
    exact fun serial row hrow => ih _ (hp serial row hrow) (hp' serial row hrow)

theorem LeavesRows.bind {Q : α → Footprint Row → Prop} {Q' : β → Footprint Row → Prop}
    {p : Prog (Sql Row) Sql.Reply α} {g : α → Prog (Sql Row) Sql.Reply β} {f : Footprint Row}
    (hp : LeavesRows Q p f) (hg : ∀ a f, Q a f → LeavesRows Q' (g a) f) :
    LeavesRows Q' (p >>= g) f := by
  induction p generalizing f with
  | pure a => exact hg a f hp
  | perform stmt next ih => exact fun serial row hrow => ih _ (hp serial row hrow)

/-- What every statement keeps of the footprint, the program keeps. -/
theorem leaves_invariant {φ : Sql Row → Prop} {I : Footprint Row → Prop}
    (hstmt : ∀ stmt, φ stmt → ∀ f serial row, I f →
      I (f.after stmt.key row (stmt.effect serial row)))
    {p : Prog (Sql Row) Sql.Reply α} (hp : p.All φ) {f : Footprint Row} (hf : I f) :
    LeavesRows (fun _ f' => I f') p f := by
  induction p generalizing f with
  | pure a => exact hf
  | perform stmt next ih =>
    exact fun serial row _ => ih _ (hp.2 _) (hstmt stmt hp.1 f serial row hf)

namespace Txn

/-- From footprint `f` the transaction returns, if it does not raise, with what `Q` says. -/
def Leaves (x : Txn Row ε α) (f : Footprint Row) (Q : α → Footprint Row → Prop) : Prop :=
  LeavesRows (fun r f => ∀ a, r = .ok a → Q a f) x.run f

variable {f : Footprint Row} {Q : α → Footprint Row → Prop} {Q' : β → Footprint Row → Prop}

theorem leaves_pure {a : α} (h : Q a f) : (pure a : Txn Row ε α).Leaves f Q := by
  intro b hb
  rw [← Except.ok.inj hb]
  exact h

theorem leaves_throw (e : ε) : (throw e : Txn Row ε α).Leaves f Q := nofun

theorem Leaves.mono {Q' : α → Footprint Row → Prop} {x : Txn Row ε α} (hx : x.Leaves f Q)
    (hQ : ∀ a f, Q a f → Q' a f) : x.Leaves f Q' :=
  LeavesRows.mono (fun _ f h a ha => hQ a f (h a ha)) hx

theorem Leaves.and {Q' : α → Footprint Row → Prop} {x : Txn Row ε α} (hx : x.Leaves f Q)
    (hx' : x.Leaves f Q') : x.Leaves f fun a f => Q a f ∧ Q' a f :=
  (LeavesRows.and hx hx').mono fun _ _ h a ha => ⟨h.1 a ha, h.2 a ha⟩

theorem Leaves.bind {x : Txn Row ε α} {g : α → Txn Row ε β} (hx : x.Leaves f Q)
    (hg : ∀ a f, Q a f → (g a).Leaves f Q') : (x >>= g).Leaves f Q' := by
  refine LeavesRows.bind (g := ExceptT.bindCont g) hx ?_
  rintro (e | a) f' h
  · exact nofun
  · exact hg a f' (h a rfl)

/-- One statement. -/
theorem leaves_exec {stmt : Sql Row} {Q : stmt.Reply → Footprint Row → Prop}
    (h : ∀ serial row, f.Shows stmt.key row →
      Q (stmt.effect serial row).reply (f.after stmt.key row (stmt.effect serial row))) :
    (exec stmt : Txn Row ε _).Leaves f Q := by
  intro serial row hrow a ha
  rw [← Except.ok.inj ha]
  exact h serial row hrow

/-- A plain select leaves the footprint. -/
theorem leaves_select {k : K} {Q : Option (Row k) → Footprint Row → Prop} (h : ∀ row, Q row f) :
    (exec (.select k) : Txn Row ε _).Leaves f Q := by
  refine leaves_exec fun serial row _ => ?_
  rw [f.after_read _ _ rfl rfl]
  exact h row

section statements

variable {k : K} {Q : Option (Row k) → Footprint Row → Prop}

/-- `select … for update` locks the row if there is one. -/
theorem leaves_selectForUpdate (hk : f k = none) (hnone : Q none f)
    (hsome : ∀ row, Q (some row) (Function.update f k (some ⟨some row, none⟩))) :
    (exec (.selectForUpdate k) : Txn Row ε _).Leaves f Q := by
  refine leaves_exec fun serial (row : Option (Row k)) _ => ?_
  cases row with
  | none =>
    rw [← f.after_free none ⟨none, none, false⟩ hk rfl] at hnone
    exact hnone
  | some row =>
    have hlocked := hsome row
    rw [← f.after_locked (some row) ⟨some row, none, true⟩ hk rfl] at hlocked
    exact hlocked

/-- An update of a row that is not locked changes it, or leaves it to others. -/
theorem leaves_update {change : Row k → Option (Row k)} (hk : f k = none) (hleft : Q none f)
    (hchanged : ∀ row new, change row = some new →
      Q (some new) (Function.update f k (some ⟨some row, some new⟩))) :
    (exec (.update k change) : Txn Row ε _).Leaves f Q := by
  refine leaves_exec fun serial (row : Option (Row k)) _ => ?_
  rw [Sql.effect_update]
  cases row with
  | none =>
    rw [← f.after_free none ⟨none, none, false⟩ hk rfl] at hleft
    exact hleft
  | some old =>
    show Q (change old) (f.after k (some old) ⟨change old, change old, (change old).isSome⟩)
    cases hnew : change old with
    | none => rwa [f.after_free _ _ hk rfl]
    | some new =>
      rw [f.after_locked _ _ hk rfl]
      exact hchanged old new hnew

/-- An update of a locked row changes it as the transaction sees it. -/
theorem leaves_update_held {change : Row k → Option (Row k)} {held : Held (Row k)}
    (hk : f k = some held)
    (h : Q (held.own.bind change)
      (Function.update f k (some ⟨held.committed, (held.own.bind change).or held.write⟩))) :
    (exec (.update k change) : Txn Row ε _).Leaves f Q := by
  refine leaves_exec fun serial (row : Option (Row k)) hrow => ?_
  obtain rfl : row = held.own := hrow held hk
  rw [Sql.effect_update]
  show Q (held.own.bind change) (f.after k held.own ⟨_, held.own.bind change, _⟩)
  rwa [f.after_held _ _ hk]

/-- An upsert locks its row on every path. -/
theorem leaves_upsert {fresh : Row k} {change : Row k → Option (Row k)} (hk : f k = none)
    (h : ∀ row : Option (Row k), Q (row.elim (some fresh) change)
      (Function.update f k (some ⟨row, row.elim (some fresh) change⟩))) :
    (exec (.upsert k fresh change) : Txn Row ε _).Leaves f Q := by
  refine leaves_exec fun serial (row : Option (Row k)) _ => ?_
  rw [Sql.effect_upsert]
  show Q (row.elim (some fresh) change) (f.after k row ⟨_, row.elim (some fresh) change, true⟩)
  rw [f.after_locked _ _ hk rfl]
  exact h row

/-- An insert locks the row that it makes. -/
theorem leaves_insert {fresh : Row k} (hk : f k = none) (hthere : Q none f)
    (hmade : Q (some fresh) (Function.update f k (some ⟨none, some fresh⟩))) :
    (exec (.insert k fresh) : Txn Row ε _).Leaves f Q := by
  refine leaves_exec fun serial (row : Option (Row k)) _ => ?_
  cases row with
  | none =>
    rw [← f.after_locked none ⟨some fresh, some fresh, true⟩ hk rfl] at hmade
    exact hmade
  | some old =>
    rw [← f.after_free (some old) ⟨none, none, false⟩ hk rfl] at hthere
    exact hthere

end statements

theorem leaves_of_all {φ : Sql Row → Prop} {I : Footprint Row → Prop}
    (hstmt : ∀ stmt, φ stmt → ∀ f serial row, I f →
      I (f.after stmt.key row (stmt.effect serial row)))
    {x : Txn Row ε α} (hx : x.All φ) {f : Footprint Row} (hf : I f) :
    x.Leaves f fun _ f' => I f' :=
  (leaves_invariant hstmt hx hf).mono fun _ _ h _ _ => h

end Txn

/-- The statement neither writes nor locks row `k`. -/
def Sql.Away (k : K) (stmt : Sql Row) : Prop := stmt.key = k → ∃ k', stmt = .select k'

/-- The rows that the statement writes. -/
def Sql.Writes (P : ∀ k, Row k → Prop) (stmt : Sql Row) : Prop :=
  ∀ serial row new, (stmt.effect serial row).write = some new → P stmt.key new

section writes

omit [DecidableEq K]

variable {P : ∀ k, Row k → Prop} {k : K}

theorem Sql.writes_selectForUpdate : (Sql.selectForUpdate k : Sql Row).Writes P := nofun

theorem Sql.writes_update {change : Row k → Option (Row k)}
    (hchange : ∀ old new, change old = some new → P k new) : (Sql.update k change).Writes P := by
  intro serial row new h
  simp only [Sql.effect] at h
  split at h
  · next found hfound =>
    obtain ⟨old, _, hold⟩ := Option.bind_eq_some_iff.mp hfound
    rw [← Option.some.inj h]
    exact hchange old _ hold
  · cases h

theorem Sql.writes_upsert {fresh : Row k} {change : Row k → Option (Row k)} (hfresh : P k fresh)
    (hchange : ∀ old new, change old = some new → P k new) :
    (Sql.upsert k fresh change).Writes P := by
  intro serial row new h
  cases row with
  | none =>
    rw [← Option.some.inj h]
    exact hfresh
  | some old =>
    simp only [Sql.effect] at h
    split at h
    · next heq =>
      rw [← Option.some.inj h]
      exact hchange old _ heq
    · cases h

theorem Sql.writes_insert {fresh : Row k} (hfresh : P k fresh) :
    (Sql.insert k fresh : Sql Row).Writes P := by
  intro serial row new h
  cases row with
  | none =>
    rw [← Option.some.inj h]
    exact hfresh
  | some old => cases h

theorem Sql.writes_insertSerial {fresh : Nat → Row k} (hfresh : ∀ serial, P k (fresh serial)) :
    (Sql.insertSerial k fresh : Sql Row).Writes P := by
  intro serial row new h
  cases row with
  | none =>
    rw [← Option.some.inj h]
    exact hfresh serial
  | some old => cases h

end writes

/-- A row that a transaction keeps away from, it leaves alone. -/
theorem Sql.Away.after {k : K} {stmt : Sql Row} (h : stmt.Away k) (f : Footprint Row) (serial : Nat)
    (row : Option (Row stmt.key)) : f.after stmt.key row (stmt.effect serial row) k = f k := by
  by_cases hkey : stmt.key = k
  · obtain ⟨k', rfl⟩ := h hkey
    rw [f.after_read _ _ rfl rfl]
  · exact f.after_ne row _ (Ne.symm hkey)

/-- All that was written is as `P` says. -/
def Footprint.Written (P : ∀ k, Row k → Prop) (f : Footprint Row) : Prop :=
  ∀ k new, (f k).bind Held.write = some new → P k new

theorem Sql.Writes.after {P : ∀ k, Row k → Prop} {stmt : Sql Row} (h : stmt.Writes P)
    (f : Footprint Row) (serial : Nat) (row : Option (Row stmt.key)) (hf : f.Written P) :
    (f.after stmt.key row (stmt.effect serial row)).Written P := by
  intro k new hnew
  by_cases hkey : k = stmt.key
  · subst hkey
    rw [f.after_self] at hnew
    split at hnew
    · cases hwrite : (stmt.effect serial row).write with
      | none =>
        rw [hwrite] at hnew
        exact hf _ new hnew
      | some written =>
        rw [hwrite] at hnew
        rw [← Option.some.inj hnew]
        exact h serial row written hwrite
    · exact hf _ new hnew
  · rw [f.after_ne row _ hkey] at hnew
    exact hf k new hnew

/-! ## Section 3: In every schedule -/

namespace World

variable {C : Type} {ρ : C → Type} {body : (c : C) → Txn Row ε (ρ c)} {w : World Row ε ρ}
  {db : Database Row} {s : Session Row ε ρ} {f : Footprint Row}

/-- The footprint is of rows that the transaction has locked, and of all that it has written. -/
structure Matches (db : Database Row) (s : Session Row ε ρ) (f : Footprint Row) : Prop where
  locked : ∀ k, f k ≠ none → k ∈ s.locks
  committed : f.Of db
  writes : ∀ k, s.writes k = (f k).bind Held.write
  wrote : s.wrote = true ↔ ∃ k, s.writes k ≠ none

/-- Open transactions are on their way to what they leave. -/
structure OnTheirWay (body : (c : C) → Txn Row ε (ρ c)) (Q : (c : C) → ρ c → Footprint Row → Prop)
    (w : World Row ε ρ) : Prop extends SessionInv body w where
  leaves : ∀ t s, w.sessions t = some s → ∃ f, Matches w.db s f ∧
    LeavesRows (fun r f => ∀ a, r = .ok a → Q s.call a f) s.rest f

omit [DecidableEq K] in
/-- What a transaction sees, it may be shown. -/
theorem Matches.shows (h : Matches db s f) (k : K) : f.Shows k (s.sees db k) := by
  intro held hheld
  show (s.writes k).or (db k) = held.write.or held.committed
  rw [h.writes, h.committed k held hheld, hheld]
  rfl

section session

variable (s) (stmt : Sql Row) (e : Sql.Effect (Row stmt.key))
  (rest : Prog (Sql Row) Sql.Reply (Except ε (ρ s.call)))

theorem mem_locks_ran {k : K} : k ∈ (s.ran stmt e rest).locks ↔
    (e.lock = true ∧ k = stmt.key) ∨ k ∈ s.locks := by
  show k ∈ (if e.lock then stmt.key :: s.locks else s.locks) ↔ _
  split
  · next hlocked => simp [hlocked]
  · next hfree => simp [hfree]

theorem writes_ran_self :
    (s.ran stmt e rest).writes stmt.key = e.write.or (s.writes stmt.key) := by
  show (if e.write.isSome then Function.update s.writes stmt.key e.write else s.writes) _ = _
  cases hwrite : e.write with
  | none => rfl
  | some new => exact Function.update_self ..

theorem writes_ran_ne {k : K} (hkey : k ≠ stmt.key) :
    (s.ran stmt e rest).writes k = s.writes k := by
  show (if e.write.isSome then Function.update s.writes stmt.key e.write else s.writes) _ = _
  split
  · exact Function.update_of_ne hkey ..
  · rfl

variable {s} in
theorem wrote_ran (hwrote : s.wrote = true ↔ ∃ k, s.writes k ≠ none) :
    (s.ran stmt e rest).wrote = true ↔ ∃ k, (s.ran stmt e rest).writes k ≠ none := by
  show (s.wrote || e.write.isSome) = true ↔ _
  rw [Bool.or_eq_true, hwrote]
  -- A write shows at the statement's row, or was there before.
  constructor
  · intro h
    rcases h with ⟨k, hk⟩ | hsome
    · refine ⟨k, ?_⟩
      by_cases hkey : k = stmt.key
      · subst hkey
        simp [writes_ran_self, hk]
      · rwa [writes_ran_ne s stmt e rest hkey]
    · refine ⟨stmt.key, ?_⟩
      rw [writes_ran_self]
      cases hwrite : e.write with
      | none => simp [hwrite] at hsome
      | some new => simp
  · rintro ⟨k, hk⟩
    by_cases hkey : k = stmt.key
    · subst hkey
      rw [writes_ran_self] at hk
      cases hwrite : e.write with
      | none =>
        rw [hwrite, Option.none_or] at hk
        exact Or.inl ⟨_, hk⟩
      | some new => exact Or.inr rfl
    · rw [writes_ran_ne s stmt e rest hkey] at hk
      exact Or.inl ⟨k, hk⟩

end session

/-- A statement of the transaction moves its footprint. -/
theorem Matches.ran (h : Matches db s f) {stmt : Sql Row} {serial : Nat}
    {e : Sql.Effect (Row stmt.key)} (he : stmt.effect serial (s.sees db stmt.key) = e)
    (rest : Prog (Sql Row) Sql.Reply (Except ε (ρ s.call))) :
    Matches db (s.ran stmt e rest) (f.after stmt.key (s.sees db stmt.key) e) := by
  have hlock : e.write ≠ none → e.lock = true := by
    intro hwrite
    obtain ⟨new, hnew⟩ := Option.ne_none_iff_exists'.mp hwrite
    rw [← he] at hnew ⊢
    exact Sql.lock_of_write hnew
  refine ⟨fun k hk => ?_, fun k held hk => ?_, fun k => ?_, wrote_ran stmt e rest h.wrote⟩
  · rw [mem_locks_ran]
    -- locks: the statement's own row, when it is locked, and those that were locked before.
    by_cases hkey : k = stmt.key
    · subst hkey
      by_cases hlocked : e.lock = true
      · exact Or.inl ⟨hlocked, rfl⟩
      · refine Or.inr (h.locked _ fun hnone => hk ?_)
        rw [f.after_free _ e hnone (by simpa using hlocked), hnone]
    · rw [f.after_ne _ e hkey] at hk
      exact Or.inr (h.locked k hk)
  · -- held: the first statement on a row notes what it found; a later one keeps that note.
    by_cases hkey : k = stmt.key
    · subst hkey
      cases hf : f stmt.key with
      | some before =>
        -- a row that was locked before stays as it was then
        rw [f.after_held _ e hf, Function.update_self] at hk
        rw [← Option.some.inj hk]
        exact h.committed _ before hf
      | none =>
        rw [f.after_self, hf] at hk
        split at hk
        · rw [← Option.some.inj hk]
          show (s.writes stmt.key).or (db stmt.key) = _
          rw [h.writes, hf]
          rfl
        · cases hk
    · rw [f.after_ne _ e hkey] at hk
      exact h.committed k held hk
  · -- writes: the statement's own row is what the effect has written.
    by_cases hkey : k = stmt.key
    · subst hkey
      rw [writes_ran_self, f.write_after_self _ hlock, h.writes]
    · rw [writes_ran_ne s stmt e rest hkey, f.after_ne _ e hkey, h.writes]

omit [DecidableEq K] in
/-- What another transaction commits is not in the footprint. -/
theorem Matches.kept (h : Matches db s f) {db' : Database Row} (hdb : ∀ k ∈ s.locks, db' k = db k) :
    Matches db' s f := by
  refine ⟨h.locked, fun k held hk => ?_, h.writes, h.wrote⟩
  rw [hdb k (h.locked k (by rw [hk]; exact Option.some_ne_none _))]
  exact h.committed k held hk

omit [DecidableEq K] in
/-- What is committed is the footprint, over the rows there were. -/
theorem Matches.merged (h : Matches w.db s f) : w.merged s = f.onto w.db := by
  funext k
  show (s.writes k).or (w.db k) = _
  rw [h.writes]
  rfl

variable {Q : (c : C) → ρ c → Footprint Row → Prop}

/-- **Every action keeps open transactions on their way.** -/
theorem OnTheirWay.act (hbody : ∀ c, (body c).Leaves .nothing (Q c)) (h : OnTheirWay body Q w)
    {a : Action C} {w' : World Row ε ρ} (hact : w.act body a = some w') : OnTheirWay body Q w' := by
  refine ⟨sessionInv_act h.toSessionInv hact, ?_⟩
  -- Whoever remains when a session ends is where it was.
  have hdrop : ∀ {tid t s}, Function.update w.sessions tid none t = some s →
      t ≠ tid ∧ w.sessions t = some s := by
    intro tid t s hs
    by_cases ht : t = tid
    · simp [ht] at hs
    · exact ⟨ht, by simpa [Function.update_of_ne ht] using hs⟩
  obtain ⟨call, rfl, rfl⟩ | ⟨tid, s, stmt, next, e, rfl, hs, hrest, hwait, he, rfl⟩ |
    ⟨tid, s, result, rfl, hs, hrest, rfl⟩ | ⟨tid, s, error, rfl, hs, hrest, rfl⟩ |
    ⟨tid, rfl, rfl⟩ := act_cases hact
  · -- A session that begins has touched nothing.
    intro t s hs
    by_cases ht : t = w.begun
    · subst ht
      simp only [Function.update_self, Option.some.injEq] at hs
      subst hs
      refine ⟨.nothing, ⟨fun k hk => absurd rfl hk, nofun, fun _ => rfl, ?_⟩, hbody call⟩
      exact ⟨nofun, fun ⟨k, hk⟩ => absurd rfl hk⟩
    · exact h.leaves t s (by simpa [Function.update_of_ne ht] using hs)
  · -- A statement ran: its own session is one step further on.
    intro t s' hs'
    by_cases ht : t = tid
    · subst ht
      simp only [Function.update_self, Option.some.injEq] at hs'
      subst hs'
      obtain ⟨f, hmatches, hleaves⟩ := h.leaves t s hs
      rw [hrest] at hleaves
      have hnext := hleaves w.serial (s.sees w.db stmt.key) (hmatches.shows stmt.key)
      rw [he] at hnext
      exact ⟨_, hmatches.ran he _, hnext⟩
    · exact h.leaves t s' (by simpa [Function.update_of_ne ht] using hs')
  · -- A commit writes rows that it alone had locked, so what another has touched is as it was.
    intro t s' hs'
    obtain ⟨hne, hs'⟩ := hdrop hs'
    obtain ⟨f, hmatches, hleaves⟩ := h.leaves t s' hs'
    refine ⟨f, hmatches.kept fun k hk => ?_, hleaves⟩
    -- the row is locked by the other, so the one that commits has not written it
    have hnone : s.writes k = none := by
      by_contra hwritten
      exact hne (h.exclusive t tid s' s k hs' hs hk ((h.ok tid s hs).locked k hwritten))
    show (s.writes k).or (w.db k) = w.db k
    rw [hnone]
    rfl
  · exact fun t s' hs' => h.leaves t s' (hdrop hs').2
  · exact fun t s' hs' => h.leaves t s' (hdrop hs').2

/-- **Committed rows**: what every commit keeps, between the log and the committed rows, with its
    footprint taken as it is when it commits, every schedule keeps. -/
theorem committed_rows (hbody : ∀ c, (body c).Leaves .nothing (Q c))
    {J : List (Event Row ε ρ) → Database Row → Prop} (hnil : J [] fun _ => none)
    (hran : ∀ log db tid stmt reply, J log db → J (log ++ [.ran tid stmt reply]) db)
    (hraised : ∀ log db tid c error, J log db → J (log ++ [.raised tid c error]) db)
    (hcommit : ∀ log db tid c result wrote f, J log db → Q c result f → f.Of db →
      (wrote = true ↔ f.Wrote) → J (log ++ [.committed tid c result wrote]) (f.onto db))
    (schedule : List (Action C)) :
    let w := World.after body ({ db := fun _ => none } : World Row ε ρ) schedule
    J w.log w.db := by
  have hinv := after_invariant (I := fun w => OnTheirWay body Q w ∧ J w.log w.db)
    (fun w w' a ⟨h, hJ⟩ hact => ⟨h.act hbody hact, ?_⟩) (w := { db := fun _ => none })
    ⟨⟨sessionInv_init (fun _ => rfl) rfl, nofun⟩, hnil⟩ schedule
  · exact hinv.2
  · obtain ⟨call, rfl, rfl⟩ | ⟨tid, s, stmt, next, e, rfl, hs, hrest, hwait, he, rfl⟩ |
      ⟨tid, s, result, rfl, hs, hrest, rfl⟩ | ⟨tid, s, error, rfl, hs, hrest, rfl⟩ |
      ⟨tid, rfl, rfl⟩ := act_cases hact
    · exact hJ
    · exact hran _ _ tid stmt e.reply hJ
    · -- Committed: the session's footprint is what it leaves in the table.
      obtain ⟨f, hmatches, hleaves⟩ := h.leaves tid s hs
      rw [hrest] at hleaves
      show J _ (w.merged s)
      rw [hmatches.merged]
      have hwrote : s.wrote = true ↔ f.Wrote := by
        rw [hmatches.wrote]
        simp only [hmatches.writes]
        rfl
      exact hcommit _ _ tid s.call result s.wrote f hJ (hleaves result rfl) hmatches.committed
        hwrote
    · exact hraised _ _ tid s.call error hJ
    · exact hJ

end World

end ReadCommitted
