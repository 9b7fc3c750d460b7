import Semora.Agent.Attempt

/-! # Running Alone

    A program that nobody interrupts, against a ledger that nobody else uses:
    what it returns or raises, and the ledger it leaves. -/

namespace Semora

/-- A program run by itself against the ledger: what it returns, and the ledger it leaves. -/
def runAlone (x : Env) {α : Type} : Prog Op Op.Reply α → MemorySteps Record →
    α × MemorySteps Record
  | .pure a, s => (a, s)
  | .perform o next, s => runAlone x (next (perform s x o).1) (perform s x o).2

section alone

variable {x : Env} {α β : Type} {s s' : MemorySteps Record}

theorem runAlone_bind (p : Prog Op Op.Reply α) (f : α → Prog Op Op.Reply β)
    (s : MemorySteps Record) :
    runAlone x (p >>= f) s = runAlone x (f (runAlone x p s).1) (runAlone x p s).2 := by
  induction p generalizing s with
  | pure a => rfl
  | perform o next ih => exact ih _ _

theorem Code.runAlone_ok {body : Code α} {f : α → Code β} {a : α}
    (h : runAlone x body.run s = (Except.ok a, s')) :
    runAlone x (body >>= f).run s = runAlone x (f a).run s' := by
  show runAlone x (body.run >>= _) s = _
  rw [runAlone_bind, h]
  rfl

/-- Code that returned did so after its first part had. -/
theorem Code.runAlone_bind_ok {body : Code α} {f : α → Code β} {b : β}
    (h : runAlone x (body >>= f).run s = (Except.ok b, s')) :
    ∃ a t, runAlone x body.run s = (Except.ok a, t) ∧
      runAlone x (f a).run t = (Except.ok b, s') := by
  rcases heq : runAlone x body.run s with ⟨first, t⟩
  have hrest : runAlone x (body >>= f).run s
      = runAlone x (ExceptT.bindCont f first) t := by
    show runAlone x (body.run >>= _) s = _
    rw [runAlone_bind, heq]
  rw [hrest] at h
  cases first with
  | error e => cases (Prod.mk.inj h).1
  | ok a => exact ⟨a, t, rfl, h⟩

theorem Code.runAlone_ledger_ok {op : LedgerOp Record} {r : op.Reply}
    (h : runAlone x (Code.ledger op).run s = (Except.ok r, s')) :
    op.perform x.now x.later s = (.ok r, s') := by
  rcases heq : op.perform x.now x.later s with ⟨outcome, t⟩
  have h : ((op.perform x.now x.later s).1.mapError Raised.store, (op.perform x.now x.later s).2)
    = (Except.ok r, s') := h
  rw [heq] at h
  obtain ⟨hr, rfl⟩ := Prod.mk.inj h
  cases outcome with
  | error e => cases hr
  | ok r' => rw [Except.ok.inj (hr : Except.ok r' = Except.ok r)]

theorem AttemptM.runAlone_ok {body : AttemptM α} {f : α → AttemptM β} {a : α}
    {st st' : AttemptState} (h : runAlone x (body.runFrom st) s = ((.ok a, st'), s')) :
    runAlone x ((body >>= f).runFrom st) s = runAlone x ((f a).runFrom st') s' := by
  rw [AttemptM.bind_runFrom, runAlone_bind, h]

theorem AttemptM.runAlone_code {body : Code α} {r : Except Raised α}
    (h : runAlone x body.run s = (r, s')) (st : AttemptState) :
    runAlone x ((AttemptM.code body).runFrom st) s = ((r, st), s') := by
  show runAlone x (body.run >>= _) s = _
  rw [runAlone_bind, h]
  rfl

end alone

end Semora
