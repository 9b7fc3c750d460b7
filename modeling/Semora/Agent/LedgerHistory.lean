import Semora.Framework.Accounts
import Semora.Agent.Triples

/-! # A Pool's History of the Ledger

    What a schedule of workers carries out against the ledger is one history
    of calls, in the order of the log. So what is proved of every history of
    calls holds of every schedule, and what a history adds up to is what the
    log adds up to. -/

namespace Semora

open Pool

section carries

variable {C : Type}

/-- The calls that the log has carried out, each answered as the ledger answers it. -/
inductive CarriesOut : List (Code.Event C) → List (LedgerCall Record) → Prop where
  | nil : CarriesOut [] []
  | call {log : List (Code.Event C)} {calls : List (LedgerCall Record)} (h : CarriesOut log calls)
      (tid : Nat) (call : C) (op : LedgerOp Record) (now later : ℚ) :
      CarriesOut (log ++ [⟨tid, call, .ledger op,
          (op.perform now later ((ledger Record).after .init calls)).1,
          (op.perform now later ((ledger Record).after .init calls)).2⟩])
        (calls ++ [⟨op, now, later⟩])
  | outside {log : List (Code.Event C)} {calls : List (LedgerCall Record)}
    (h : CarriesOut log calls)
      (tid : Nat) (call : C) (e : External) (r : Op.Reply (.ext e)) :
      CarriesOut (log ++ [⟨tid, call, .ext e, r, (ledger Record).after .init calls⟩]) calls

theorem CarriesOut.now_eq {log : List (Code.Event C)} {calls : List (LedgerCall Record)}
    (h : CarriesOut log calls) : stateAfter .init log = (ledger Record).after .init calls := by
  induction h with
  | nil => rfl
  | call h tid call op now later ih =>
    rw [stateAfter_concat, Machine.after_concat]
    rfl
  | outside h tid call e r ih => rw [stateAfter_concat]

/-- A weight of events that is one of calls adds up to the same. -/
theorem CarriesOut.tally_eq {log : List (Code.Event C)} {calls : List (LedgerCall Record)}
    (h : CarriesOut log calls) {v : List (Code.Event C) → Code.Event C → Nat}
    {w : MemorySteps Record → LedgerCall Record → Nat}
    (hledger : ∀ before tid call op now later,
      v before ⟨tid, call, .ledger op, (op.perform now later (stateAfter .init before)).1,
          (op.perform now later (stateAfter .init before)).2⟩
        = w (stateAfter .init before) ⟨op, now, later⟩)
    (hext : ∀ before tid call e (r : Op.Reply (.ext e)),
      v before ⟨tid, call, .ext e, r, stateAfter .init before⟩ = 0) :
    Pool.tally v log = (ledger Record).tally w .init calls := by
  induction h with
  | nil => rfl
  | call h tid call op now later ih =>
    rw [tally_concat, Machine.tally_concat, ih, ← h.now_eq, hledger]
  | outside h tid call e r ih =>
    rw [tally_concat, ih, ← h.now_eq, hext]
    rfl

/-- What holds of every answer of the ledger, and of what comes from outside, holds of every
    event. -/
theorem CarriesOut.always {log : List (Code.Event C)} {calls : List (LedgerCall Record)}
    (h : CarriesOut log calls) {φ : MemorySteps Record → Code.Event C → Prop}
    (hledger : ∀ s tid call op now later,
      φ s ⟨tid, call, .ledger op, (op.perform now later s).1, (op.perform now later s).2⟩)
    (hext : ∀ s tid call e (r : Op.Reply (.ext e)), φ s ⟨tid, call, .ext e, r, s⟩) :
    Always (fun before e => φ (stateAfter .init before) e) log := by
  induction h with
  | nil => exact always_nil
  | call h tid call op now later ih =>
    refine always_concat.mpr ⟨ih, ?_⟩
    rw [h.now_eq]
    exact hledger _ tid call op now later
  | outside h tid call e r ih =>
    refine always_concat.mpr ⟨ih, ?_⟩
    rw [h.now_eq]
    exact hext _ tid call e r

end carries

/-- What relates the states around every event, what is left of the log keeps. -/
theorem related_of_always {C : Type} {R : MemorySteps Record → MemorySteps Record → Prop}
    (hrefl : ∀ s, R s s) (htrans : ∀ s t u, R s t → R t u → R s u)
    {before rest : List (Code.Event C)}
    (h : Always (fun log e => R (stateAfter .init log) e.after) (before ++ rest)) {mid after}
    (hsplit : rest = mid ++ after) :
    R (stateAfter .init before) (stateAfter .init (before ++ mid)) := by
  subst hsplit
  induction mid using List.reverseRecOn generalizing after with
  | nil =>
    rw [List.append_nil]
    exact hrefl _
  | append_singleton mid e ih =>
    have hall : Always (fun log e => R (stateAfter .init log) e.after)
        ((before ++ mid) ++ e :: after) := by simpa using h
    have hbefore := @ih (e :: after) (by simpa using h)
    rw [← List.append_assoc, stateAfter_concat]
    exact htrans _ _ _ hbefore hall.split

/-- **Every schedule carries out a history of the ledger.** -/
theorem carries_after {C : Type} {ρ : C → Type}
    (body : Nat → (call : C) → Prog Op Op.Reply (ρ call))
    (schedule : List (Action C Env)) :
    ∃ calls, CarriesOut ((Code.system body).after { hist := ⟨.init, []⟩ } schedule).hist.log calls := by
  have hinv := hist_after (S := Code.system body)
    (J := fun log s => ∃ calls, CarriesOut log calls ∧ s = (ledger Record).after .init calls)
    (fun log s tid call x o ⟨calls, hcarries, hs⟩ => ?_)
    (w := { hist := ⟨.init, []⟩ }) ⟨[], .nil, rfl⟩ schedule
  · obtain ⟨calls, hcarries, _⟩ := hinv
    exact ⟨calls, hcarries⟩
  · subst hs
    cases o with
    | ledger op =>
      refine ⟨_, hcarries.call tid call op x.now x.later, ?_⟩
      rw [Machine.after_concat]
      rfl
    | ext e => exact ⟨calls, hcarries.outside tid call e (x.reply e), rfl⟩

end Semora
