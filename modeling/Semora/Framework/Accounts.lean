import Mathlib.Algebra.BigOperators.Group.Finset.Piecewise
import Mathlib.Algebra.Order.BigOperators.Group.Finset
import Semora.Framework.Monitor

/-! # Accounts of a Log

    What the events of a log add up to, where an event may be weighed by what
    came before it, and the accounting rule for threads: if each event of a
    thread spends out of a credit of its own thread and of what it earns,
    then all threads together spend no more than they earn. -/

namespace Pool

/-! ## Section 1: Sums over a log -/

section tally

variable {ε : Type} (w v : List ε → ε → Nat)

/-- The sum of what each event weighs after those before it. -/
def tallyFrom (before : List ε) : List ε → Nat
  | [] => 0
  | e :: log => w before e + tallyFrom (before ++ [e]) log

def tally (log : List ε) : Nat := tallyFrom w [] log

theorem tallyFrom_concat (before log : List ε) (e : ε) :
    tallyFrom w before (log ++ [e]) = tallyFrom w before log + w (before ++ log) e := by
  induction log generalizing before with
  | nil => simp [tallyFrom]
  | cons d log ih =>
    simp only [List.cons_append, tallyFrom, ih, List.append_assoc, List.nil_append]
    omega

@[simp] theorem tally_nil : tally w ([] : List ε) = 0 := rfl

theorem tally_concat (log : List ε) (e : ε) : tally w (log ++ [e]) = tally w log + w log e := by
  simp [tally, tallyFrom_concat]

theorem tally_add (log : List ε) :
    tally (fun before e => w before e + v before e) log = tally w log + tally v log := by
  induction log using List.reverseRecOn with
  | nil => rfl
  | append_singleton log e ih =>
    rw [tally_concat, tally_concat, tally_concat, ih]
    omega

end tally

/-! ## Section 2: Credits of threads -/

section credits

variable {σ Op C μ : Type} {Res : Op → Type}
  (M : Monitor Op Res μ) (m : μ) (credit : μ → Nat)
  {spent earned : List (Event σ C Res) → Event σ C Res → Nat}

/-- All credits together move as the credit of the event's own thread does. -/
theorem sum_credits_concat (log : List (Event σ C Res)) (e : Event σ C Res) {threads : Finset Nat}
    (htid : e.tid ∈ threads) :
    (threads.sum fun i => credit (M.seen m i (log ++ [e]))) + credit (M.seen m e.tid log)
      = (threads.sum fun i => credit (M.seen m i log))
        + credit (M.next (M.seen m e.tid log) e.op e.reply) := by
  have hothers : ((threads.erase e.tid).sum fun i => credit (M.seen m i (log ++ [e])))
      = (threads.erase e.tid).sum fun i => credit (M.seen m i log) := by
    apply Finset.sum_congr rfl
    intro i hi
    rw [Monitor.seen_concat, if_neg (Ne.symm (Finset.ne_of_mem_erase hi))]
  rw [← Finset.add_sum_erase threads _ htid, ← Finset.add_sum_erase threads _ htid, hothers,
    Monitor.seen_concat, if_pos rfl]
  omega

/-- **What threads spend, they have earned**: if each event pays for what it spends, and for the
    credit that it leaves its thread, out of its thread's credit and of what it earns. -/
theorem spent_le_earned (hnone : credit m = 0) {log : List (Event σ C Res)}
    (hpaid : Always (fun before e =>
      spent before e + credit (M.next (M.seen m e.tid before) e.op e.reply)
        ≤ credit (M.seen m e.tid before) + earned before e) log) :
    tally spent log ≤ tally earned log := by
  have hall : ∀ threads : Finset Nat, (∀ e ∈ log, e.tid ∈ threads) →
      tally spent log + (threads.sum fun i => credit (M.seen m i log)) ≤ tally earned log := by
    intro threads hthreads
    induction log using List.reverseRecOn with
    | nil => simp [hnone]
    | append_singleton log e ih =>
      obtain ⟨hbefore, hlast⟩ := always_concat.mp hpaid
      have hearlier := ih hbefore fun d hd => hthreads d (List.mem_append_left _ hd)
      have hmoved := sum_credits_concat M m credit log e
        (hthreads e (List.mem_append_right _ List.mem_cons_self))
      rw [tally_concat, tally_concat]
      omega
  have htids := hall (log.map Event.tid).toFinset fun e he =>
    List.mem_toFinset.mpr (List.mem_map_of_mem he)
  omega

end credits

end Pool
