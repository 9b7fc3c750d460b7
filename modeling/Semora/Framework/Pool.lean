import Mathlib.Logic.Function.Basic
import Semora.Framework.Prog

/-! # Threads over Shared State, by Rely and Guarantee

    A pool of threads, each running a program over one shared state. The
    scheduler lets any thread perform its next operation, starts new threads
    and crashes old ones, in any order; a thread it never lets move again has
    stalled for good. The log records every operation that was carried out.

    What a thread may do is said by a contract: the *guarantee* of a thread
    relates the histories around each of its operations, and its *rely* the
    histories between two of them, where others have moved. The rule
    `contract_after` says that a pool whose programs are safe one by one keeps
    the contract's invariant under every schedule. -/

namespace Pool

variable {σ Op X C α β : Type} {Res : Op → Type} {ρ : C → Type}

/-! ## Section 1: Pools -/

/-- An operation that was carried out: by which thread, for which call, the answer, and
    the state it left. -/
structure Event (σ C : Type) {Op : Type} (Res : Op → Type) where
  tid : Nat
  call : C
  op : Op
  reply : Res op
  after : σ

/-- The shared state, and everything that was carried out so far. -/
structure Hist (σ C : Type) {Op : Type} (Res : Op → Type) where
  now : σ
  log : List (Event σ C Res) := []

/-- A thread: the call it serves and what is left of it. -/
structure Thread {C Op : Type} (Res : Op → Type) (ρ : C → Type) where
  call : C
  rest : Prog Op Res (ρ call)

/-- The event is that `o` was answered `r`. -/
def Event.did (e : Event σ C Res) (o : Op) (r : Res o) : Prop :=
  (⟨e.op, e.reply⟩ : Prog.Exchange Res) = ⟨o, r⟩

theorem Event.op_of_did {e : Event σ C Res} {o : Op} {r : Res o} (hdid : e.did o r) :
    e.op = o := congrArg Sigma.fst hdid

/-- A shared state with the threads over it; threads are numbered as they are begun. -/
structure World (σ : Type) {C Op : Type} (Res : Op → Type) (ρ : C → Type) where
  hist : Hist σ C Res
  calls : List C := []
  threads : Nat → Option (Thread Res ρ) := fun _ => none

/-- What the scheduler may do. `x` is what the outside contributes to an operation. -/
inductive Action (C X : Type) where
  | begin (call : C)
  | run (tid : Nat) (x : X)
  | crash (tid : Nat)

/-- What operations do to the shared state, and the program of each call. -/
structure System (σ X : Type) {C Op : Type} (Res : Op → Type) (ρ : C → Type) where
  sem : σ → X → (o : Op) → Res o × σ
  body : Nat → (call : C) → Prog Op Res (ρ call)

namespace System

variable (S : System σ X Res ρ)

/-- The answer to an operation of thread `tid`, and the history with it. -/
def perform (h : Hist σ C Res) (tid : Nat) (call : C) (x : X) (o : Op) :
    Res o × Hist σ C Res :=
  let (r, s) := S.sem h.now x o
  (r, ⟨s, h.log ++ [⟨tid, call, o, r, s⟩]⟩)

/-- The world after an action. An action that cannot happen changes nothing. -/
def act (w : World σ Res ρ) : Action C X → World σ Res ρ
  | .begin call =>
    { w with
      calls := w.calls ++ [call]
      threads := Function.update w.threads w.calls.length
        (some ⟨call, S.body w.calls.length call⟩) }
  | .run tid x =>
    match w.threads tid with
    | some ⟨call, .perform o next⟩ =>
      let (r, h) := S.perform w.hist tid call x o
      { w with hist := h, threads := Function.update w.threads tid (some ⟨call, next r⟩) }
    | _ => w
  | .crash tid => { w with threads := Function.update w.threads tid none }

/-- The world after a schedule. -/
def after (w : World σ Res ρ) (schedule : List (Action C X)) : World σ Res ρ :=
  schedule.foldl S.act w

@[simp] theorem after_nil (w : World σ Res ρ) : S.after w [] = w := rfl

@[simp] theorem after_cons (w : World σ Res ρ) (a : Action C X) (schedule : List (Action C X)) :
    S.after w (a :: schedule) = S.after (S.act w a) schedule := rfl

end System

/-! ## Section 2: Contracts -/

/-- What the threads of a pool owe each other. -/
structure Contract (σ X C : Type) {Op : Type} (Res : Op → Type) where
  /-- What holds of every history. -/
  inv : Hist σ C Res → Prop
  /-- The operations that are allowed to happen. -/
  ok : Nat → C → Hist σ C Res → (o : Op) → X → Prop
  /-- What a thread may rely on between its operations. -/
  rely : Nat → Hist σ C Res → Hist σ C Res → Prop
  /-- What each operation of a thread guarantees. -/
  guar : Nat → C → Hist σ C Res → (o : Op) → Res o → Hist σ C Res → Prop
  rely_refl : ∀ i h, rely i h h
  rely_trans : ∀ {i h₁ h₂ h₃}, rely i h₁ h₂ → rely i h₂ h₃ → rely i h₁ h₃
  /-- The guarantee keeps the invariant. -/
  keep : ∀ {i call h o r h'}, inv h → guar i call h o r h' → inv h'
  /-- What one thread guarantees, the others may rely on. -/
  others : ∀ {i j call h o r h'}, inv h → guar i call h o r h' → j ≠ i → rely j h h'

variable (S : System σ X Res ρ) (K : Contract σ X C Res)

/-- From history `h`, the program keeps the guarantee at each operation, whatever its
    rely lets others do in between, and returns only results `Q` allows. -/
def Safe (tid : Nat) (call : C) (Q : α → Hist σ C Res → Prop) :
    Prog Op Res α → Hist σ C Res → Prop
  | .pure a, h => ∀ h', K.rely tid h h' → K.inv h' → Q a h'
  | .perform o next, h => ∀ h₁, K.rely tid h h₁ → K.inv h₁ → ∀ x, K.ok tid call h₁ o x →
      K.guar tid call h₁ o (S.perform h₁ tid call x o).1 (S.perform h₁ tid call x o).2 ∧
      Safe tid call Q (next (S.perform h₁ tid call x o).1) (S.perform h₁ tid call x o).2

/-- An assertion that what others do cannot invalidate. -/
def Stable (tid : Nat) (P : Hist σ C Res → Prop) : Prop :=
  ∀ h h', P h → K.rely tid h h' → K.inv h' → P h'

/-- From every history `P` holds of, the program is safe and returns what `Q` allows. -/
def Triple (tid : Nat) (call : C) (P : Hist σ C Res → Prop) (p : Prog Op Res α)
    (Q : α → Hist σ C Res → Prop) : Prop :=
  ∀ h, K.inv h → P h → Safe S K tid call Q p h

section rules

variable {S K} {tid : Nat} {call : C} {P : Hist σ C Res → Prop}

theorem Stable.and {P Q : Hist σ C Res → Prop} (hP : Stable K tid P) (hQ : Stable K tid Q) :
    Stable K tid fun h => P h ∧ Q h :=
  fun h h' hPQ hrely hinv => ⟨hP h h' hPQ.1 hrely hinv, hQ h h' hPQ.2 hrely hinv⟩

theorem Stable.imp {a : Prop} {P : Hist σ C Res → Prop} (hP : a → Stable K tid P) :
    Stable K tid fun h => a → P h :=
  fun h h' hpre hrely hinv ha => hP ha h h' (hpre ha) hrely hinv

theorem Stable.forall {ι : Sort*} {P : ι → Hist σ C Res → Prop} (hP : ∀ i, Stable K tid (P i)) :
    Stable K tid fun h => ∀ i, P i h :=
  fun h h' hpre hrely hinv i => hP i h h' (hpre i) hrely hinv

theorem stable_const {a : Prop} : Stable K tid fun _ => a := fun _ _ h _ _ => h

/-- What others do leaves a program safe. -/
theorem Safe.stable {Q : α → Hist σ C Res → Prop} {p : Prog Op Res α} {h h' : Hist σ C Res}
    (hp : Safe S K tid call Q p h) (hrely : K.rely tid h h') : Safe S K tid call Q p h' := by
  cases p with
  | pure a => exact fun h₁ h₁' hinv => hp h₁ (K.rely_trans hrely h₁') hinv
  | perform o next => exact fun h₁ h₁' hinv x hok => hp h₁ (K.rely_trans hrely h₁') hinv x hok

theorem Safe.mono {Q Q' : α → Hist σ C Res → Prop} (hQ : ∀ a h, K.inv h → Q a h → Q' a h)
    {p : Prog Op Res α} {h : Hist σ C Res} (hp : Safe S K tid call Q p h) :
    Safe S K tid call Q' p h := by
  induction p generalizing h with
  | pure a => exact fun h' hrely hinv => hQ a h' hinv (hp h' hrely hinv)
  | perform o next ih =>
    intro h₁ hrely hinv x hok
    obtain ⟨hguar, hnext⟩ := hp h₁ hrely hinv x hok
    exact ⟨hguar, ih _ hnext⟩

theorem Safe.bind {Q : α → Hist σ C Res → Prop} {Q' : β → Hist σ C Res → Prop}
    {p : Prog Op Res α} {f : α → Prog Op Res β} {h : Hist σ C Res} (hinv : K.inv h)
    (hp : Safe S K tid call Q p h)
    (hf : ∀ a h, K.inv h → Q a h → Safe S K tid call Q' (f a) h) :
    Safe S K tid call Q' (p >>= f) h := by
  induction p generalizing h with
  | pure a => exact hf a h hinv (hp h (K.rely_refl tid h) hinv)
  | perform o next ih =>
    intro h₁ hrely hinv₁ x hok
    obtain ⟨hguar, hnext⟩ := hp h₁ hrely hinv₁ x hok
    exact ⟨hguar, ih _ (K.keep hinv₁ hguar) hnext⟩

/-- A program given up half-way keeps what all its operations keep. -/
theorem Safe.take {φ : Op → Prop} {R : Hist σ C Res → Prop} {Q : α → Hist σ C Res → Prop}
    {p : Prog Op Res α} {h : Hist σ C Res} (hp : Safe S K tid call Q p h) (hφ : p.All φ)
    (hR : Stable K tid R) (hkeep : ∀ {h o r h'}, K.inv h → R h → φ o →
      K.guar tid call h o r h' → R h') (hpre : R h) (n : Nat) :
    Safe S K tid call (fun r h => R h ∧ ∀ a, r = some a → Q a h) (p.take n) h := by
  induction p generalizing h n with
  | pure a =>
    cases n <;> exact fun h' hrely hinv =>
      ⟨hR h h' hpre hrely hinv, fun _ ha => Option.some.inj ha ▸ hp h' hrely hinv⟩
  | perform o next ih =>
    cases n with
    | zero => exact fun h' hrely hinv => ⟨hR h h' hpre hrely hinv, fun _ ha => nomatch ha⟩
    | succ n =>
      intro h₁ hrely hinv x hok
      obtain ⟨hguar, hnext⟩ := hp h₁ hrely hinv x hok
      exact ⟨hguar, ih _ hnext (hφ.2 _)
        (hkeep hinv (hR h h₁ hpre hrely hinv) hφ.1 hguar) n⟩

theorem Triple.pure {Q : α → Hist σ C Res → Prop} {a : α} (hP : Stable K tid P)
    (h : ∀ h, K.inv h → P h → Q a h) : Triple S K tid call P (.pure a) Q :=
  fun h₀ _ hpre h' hrely hinv => h h' hinv (hP h₀ h' hpre hrely hinv)

theorem Triple.bind {Q : α → Hist σ C Res → Prop} {Q' : β → Hist σ C Res → Prop}
    {p : Prog Op Res α} {f : α → Prog Op Res β} (hp : Triple S K tid call P p Q)
    (hf : ∀ a, Triple S K tid call (Q a) (f a) Q') : Triple S K tid call P (p >>= f) Q' :=
  fun h hinv hpre => Safe.bind hinv (hp h hinv hpre) fun a h hinv hQ => hf a h hinv hQ

/-- A precondition that says something of the world but the history. -/
theorem Triple.known {a : Prop} {p : Prog Op Res α} {Q : α → Hist σ C Res → Prop}
    (ha : ∀ h, P h → a) (hp : a → Triple S K tid call P p Q) : Triple S K tid call P p Q :=
  fun h hinv hpre => hp (ha h hpre) h hinv hpre

/-- A precondition that names something. -/
theorem Triple.exists {ι : Type} {P : ι → Hist σ C Res → Prop} {p : Prog Op Res α}
    {Q : α → Hist σ C Res → Prop} (hp : ∀ i, Triple S K tid call (P i) p Q) :
    Triple S K tid call (fun h => ∃ i, P i h) p Q :=
  fun h hinv ⟨i, hpre⟩ => hp i h hinv hpre

/-- One operation and what follows it. -/
theorem Triple.perform {Q : α → Hist σ C Res → Prop} {o : Op} {next : Res o → Prog Op Res α}
    {M : Res o → Hist σ C Res → Prop} (hP : Stable K tid P)
    (hop : ∀ h x, K.inv h → P h → K.ok tid call h o x →
      K.guar tid call h o (S.perform h tid call x o).1 (S.perform h tid call x o).2 ∧
      M (S.perform h tid call x o).1 (S.perform h tid call x o).2)
    (hnext : ∀ r, Triple S K tid call (M r) (next r) Q) :
    Triple S K tid call P (.perform o next) Q := by
  intro h _ hpre h₁ hrely hinv x hok
  obtain ⟨hguar, hmid⟩ := hop h₁ x hinv (hP h h₁ hpre hrely hinv) hok
  exact ⟨hguar, hnext _ _ (K.keep hinv hguar) hmid⟩

theorem Triple.mono {P' : Hist σ C Res → Prop} {Q Q' : α → Hist σ C Res → Prop}
    {p : Prog Op Res α} (hP : ∀ h, K.inv h → P' h → P h) (hQ : ∀ a h, K.inv h → Q a h → Q' a h)
    (hp : Triple S K tid call P p Q) : Triple S K tid call P' p Q' :=
  fun h hinv hpre => (hp h hinv (hP h hinv hpre)).mono hQ

/-- A stable assertion that every operation of the program keeps. -/
theorem Triple.invariant {φ : Op → Prop} {R : α → Prop} {p : Prog Op Res α}
    (hp : p.Ensures φ R) (hP : Stable K tid P)
    (hop : ∀ o, φ o → ∀ h x, K.inv h → P h → K.ok tid call h o x →
      K.guar tid call h o (S.perform h tid call x o).1 (S.perform h tid call x o).2 ∧
      P (S.perform h tid call x o).2) :
    Triple S K tid call P p fun a h => R a ∧ P h := by
  induction p with
  | pure a => exact Triple.pure hP fun _ _ hpre => ⟨hp, hpre⟩
  | perform o next ih =>
    exact Triple.perform (M := fun _ => P) hP (hop o hp.1) fun r => ih r (hp.2 r)

end rules

/-! ## Section 3: Soundness -/

/-- Every operation the schedule carries out is allowed when it is. -/
def Admissible (w : World σ Res ρ) : List (Action C X) → Prop
  | [] => True
  | a :: schedule =>
    (∀ tid x call o next, a = .run tid x → w.threads tid = some ⟨call, .perform o next⟩ →
      K.ok tid call w.hist o x) ∧ Admissible (S.act w a) schedule

/-- The invariant of the history, and every thread safe in what is left of it. -/
structure PoolInv (w : World σ Res ρ) : Prop where
  inv : K.inv w.hist
  begun : ∀ tid th, w.threads tid = some th → tid < w.calls.length
  logged : ∀ e ∈ w.hist.log, e.tid < w.calls.length
  safe : ∀ tid th, w.threads tid = some th →
    Safe S K tid th.call (fun _ _ => True) th.rest w.hist

variable {S K}

/-- Where everything is allowed, every schedule is admissible. -/
theorem admissible_of_ok (h : ∀ tid call hist o x, K.ok tid call hist o x) (w : World σ Res ρ)
    (schedule : List (Action C X)) : Admissible S K w schedule := by
  induction schedule generalizing w with
  | nil => exact trivial
  | cons a schedule ih => exact ⟨fun tid x call o _ _ _ => h tid call w.hist o x, ih _⟩

theorem log_act (w : World σ Res ρ) (a : Action C X) :
    w.hist.log <+: (S.act w a).hist.log := by
  cases a with
  | begin call => exact List.prefix_refl _
  | crash tid => exact List.prefix_refl _
  | run tid x =>
    unfold System.act
    dsimp only
    split
    · exact List.prefix_append _ _
    · exact List.prefix_refl _

/-- The log only grows. -/
theorem log_after (w : World σ Res ρ) (schedule : List (Action C X)) :
    w.hist.log <+: (S.after w schedule).hist.log := by
  induction schedule generalizing w with
  | nil => exact List.prefix_refl _
  | cons a schedule ih => exact (log_act w a).trans (ih (S.act w a))

/-- What holds of every call that is begun holds of the call of every event. -/
theorem calls_after {R : C → Prop} {w : World σ Res ρ} {schedule : List (Action C X)}
    (hlog : ∀ e ∈ w.hist.log, R e.call) (hthreads : ∀ i th, w.threads i = some th → R th.call)
    (hbegin : ∀ call, Action.begin call ∈ schedule → R call) :
    ∀ e ∈ (S.after w schedule).hist.log, R e.call := by
  -- Induction on the schedule: an event's call is its thread's, and a thread's is one that was
  -- begun.
  induction schedule generalizing w with
  | nil => exact hlog
  | cons a schedule ih =>
    have hthread : ∀ {threads : Nat → Option (Thread Res ρ)} {i : Nat}
        {next : Option (Thread Res ρ)},
        (∀ j th, threads j = some th → R th.call) → (∀ th, next = some th → R th.call) →
        ∀ j th, Function.update threads i next j = some th → R th.call := by
      intro threads i next hthreads hnext j th hth
      by_cases hj : j = i
      · subst hj
        rw [Function.update_self] at hth
        exact hnext th hth
      · rw [Function.update_of_ne hj] at hth
        exact hthreads j th hth
    have hmore : ∀ call, Action.begin call ∈ schedule → R call := fun call hcall =>
      hbegin call (List.mem_cons_of_mem _ hcall)
    cases a with
    | begin call =>
      refine ih hlog (hthread hthreads ?_) hmore
      rintro th hth
      obtain rfl := Option.some.inj hth
      exact hbegin call List.mem_cons_self
    | crash tid =>
      refine ih hlog (hthread hthreads ?_) hmore
      intro th hth
      cases hth
    | run tid x =>
      rw [System.after_cons]
      unfold System.act
      dsimp only
      split
      · next call o next hth =>
        have hcall : R call := hthreads tid _ hth
        refine ih ?_ (hthread hthreads ?_) hmore
        · intro e he
          rcases List.mem_append.mp he with he | he
          · exact hlog e he
          · obtain rfl := List.mem_singleton.mp he
            exact hcall
        · rintro th hnext
          obtain rfl := Option.some.inj hnext
          exact hcall
      · exact ih hlog hthreads hmore

/-- A thread that is gone was gone before, or has crashed. -/
theorem threads_act_none {w : World σ Res ρ} {a : Action C X} {tid : Nat}
    (hbegun : tid < (S.act w a).calls.length) (hnone : (S.act w a).threads tid = none) :
    (tid < w.calls.length ∧ w.threads tid = none) ∨ a = .crash tid := by
  have hother : ∀ {i next}, tid ≠ i → Function.update w.threads i next tid = none →
      w.threads tid = none := by
    intro i next htid h
    rwa [Function.update_of_ne htid] at h
  -- A thread is gone only by a crash: beginning and running leave it something to do.
  cases a with
  | begin call =>
    have hlt : tid < w.calls.length + 1 := by simpa [System.act] using hbegun
    by_cases htid : tid = w.calls.length
    · simp [System.act, htid] at hnone
    · exact Or.inl ⟨by omega, hother htid hnone⟩
  | crash i =>
    by_cases htid : tid = i
    · exact Or.inr (htid ▸ rfl)
    · exact Or.inl ⟨hbegun, hother htid hnone⟩
  | run i x =>
    unfold System.act at hbegun hnone
    dsimp only at hbegun hnone
    cases hth : w.threads i with
    | none =>
      rw [hth] at hbegun hnone
      exact Or.inl ⟨hbegun, hnone⟩
    | some th =>
      obtain ⟨call, rest⟩ := th
      rw [hth] at hbegun hnone
      cases rest with
      | pure a => exact Or.inl ⟨hbegun, hnone⟩
      | perform o next =>
        by_cases htid : tid = i
        · simp [htid] at hnone
        · exact Or.inl ⟨hbegun, hother htid hnone⟩

/-- A thread that is gone has crashed. -/
theorem crashed_of_none {w : World σ Res ρ} {schedule : List (Action C X)} {tid : Nat}
    (hbegun : tid < (S.after w schedule).calls.length)
    (hnone : (S.after w schedule).threads tid = none) :
    (tid < w.calls.length ∧ w.threads tid = none) ∨ Action.crash tid ∈ schedule := by
  induction schedule generalizing w with
  | nil => exact Or.inl ⟨hbegun, hnone⟩
  | cons a schedule ih =>
    rcases ih hbegun hnone with ⟨hlt, hgone⟩ | hcrashed
    · rcases threads_act_none hlt hgone with hbefore | rfl
      · exact Or.inl hbefore
      · exact Or.inr List.mem_cons_self
    · exact Or.inr (List.mem_cons_of_mem _ hcrashed)

/-- The state a log leads to, from `s`. -/
def stateAfter (s : σ) (log : List (Event σ C Res)) : σ := (log.getLast?.map Event.after).getD s

@[simp] theorem stateAfter_nil (s : σ) : stateAfter s ([] : List (Event σ C Res)) = s := rfl

@[simp] theorem stateAfter_concat (s : σ) (log : List (Event σ C Res)) (e : Event σ C Res) :
    stateAfter s (log ++ [e]) = e.after := by
  simp [stateAfter]

/-- What is allowed by the log so far and the next event can be read off the log at the end. -/
theorem admissible_of_log {w : World σ Res ρ} {s : σ} (hw : w.hist.now = stateAfter s w.hist.log)
    {schedule : List (Action C X)}
    (hok : ∀ tid (call : C) (h : Hist σ C Res) o x, h.now = stateAfter s h.log →
      h.log ++ [⟨tid, call, o, (S.sem h.now x o).1, (S.sem h.now x o).2⟩]
        <+: (S.after w schedule).hist.log → K.ok tid call h o x) :
    Admissible S K w schedule := by
  -- Induction on the schedule: each event of the run is the last of a prefix of the final log.
  induction schedule generalizing w with
  | nil => exact trivial
  | cons a schedule ih =>
    refine ⟨?_, ih ?_ hok⟩
    · rintro tid x call o next rfl hth
      have hnow : (S.act w (.run tid x : Action C X)).hist.log
          = w.hist.log ++ [⟨tid, call, o, (S.perform w.hist tid call x o).1,
              (S.perform w.hist tid call x o).2.now⟩] := by
        simp only [System.act, hth]
        rfl
      have hgrows := log_after (S := S) (S.act w (.run tid x : Action C X)) schedule
      rw [hnow] at hgrows
      exact hok tid call w.hist o x hw hgrows
    · cases a with
      | begin call => exact hw
      | crash tid => exact hw
      | run tid x =>
        unfold System.act
        dsimp only
        split
        · simp [System.perform]
        · exact hw

/-- What every operation keeps of the log and the state, every schedule keeps. -/
theorem hist_after {J : List (Event σ C Res) → σ → Prop}
    (hstep : ∀ log s tid call x o, J log s →
      J (log ++ [⟨tid, call, o, (S.sem s x o).1, (S.sem s x o).2⟩]) (S.sem s x o).2)
    {w : World σ Res ρ} (hw : J w.hist.log w.hist.now) (schedule : List (Action C X)) :
    J (S.after w schedule).hist.log (S.after w schedule).hist.now := by
  induction schedule generalizing w with
  | nil => exact hw
  | cons a schedule ih =>
    refine ih ?_
    cases a with
    | begin call => exact hw
    | crash tid => exact hw
    | run tid x =>
      unfold System.act
      dsimp only
      split
      · exact hstep _ _ _ _ _ _ hw
      · exact hw

/-- Every program is safe when it begins: nothing was carried out by its thread before. -/
def SafeBodies (S : System σ X Res ρ) (K : Contract σ X C Res) : Prop :=
  ∀ tid call h, K.inv h → (∀ e ∈ h.log, e.tid ≠ tid) →
    Safe S K tid call (fun _ _ => True) (S.body tid call) h

theorem poolInv_act (hbody : SafeBodies S K) {w : World σ Res ρ} (hw : PoolInv S K w)
    (a : Action C X)
    (hok : ∀ tid x call o next, a = .run tid x → w.threads tid = some ⟨call, .perform o next⟩ →
      K.ok tid call w.hist o x) : PoolInv S K (S.act w a) := by
  -- A new thread starts at its body, a step is kept by the contract, and a crash only forgets.
  cases a with
  | begin call =>
    have hlogged : ∀ e ∈ w.hist.log, e.tid < (w.calls ++ [call]).length := fun e he =>
      Nat.lt_of_lt_of_le (hw.logged e he) (by simp)
    refine ⟨hw.inv, fun tid th hth => ?_, hlogged, fun tid th hth => ?_⟩
    · by_cases ht : tid = w.calls.length
      · simp [System.act, ht]
      · simp only [System.act, Function.update_of_ne ht] at hth
        exact Nat.lt_of_lt_of_le (hw.begun tid th hth) (by simp [System.act])
    · by_cases ht : tid = w.calls.length
      · subst ht
        simp only [System.act, Function.update_self, Option.some.injEq] at hth
        subst hth
        exact hbody _ call w.hist hw.inv fun e he => Nat.ne_of_lt (hw.logged e he)
      · simp only [System.act, Function.update_of_ne ht] at hth
        exact hw.safe tid th hth
  | run tid x =>
    unfold System.act
    dsimp only
    split
    · next call o next hth =>
      obtain ⟨hguar, hnext⟩ :=
        hw.safe tid _ hth w.hist (K.rely_refl tid _) hw.inv x (hok tid x call o next rfl hth)
      refine ⟨K.keep hw.inv hguar, fun other th hother => ?_, fun e he => ?_,
        fun other th hother => ?_⟩
      · by_cases ht : other = tid
        · exact ht ▸ hw.begun tid _ hth
        · simp only [Function.update_of_ne ht] at hother
          exact hw.begun other th hother
      · rcases List.mem_append.mp he with he | he
        · exact hw.logged e he
        · obtain rfl := List.mem_singleton.mp he
          exact hw.begun tid _ hth
      · by_cases ht : other = tid
        · subst ht
          simp only [Function.update_self, Option.some.injEq] at hother
          subst hother
          exact hnext
        · simp only [Function.update_of_ne ht] at hother
          exact (hw.safe other th hother).stable (K.others hw.inv hguar ht)
    · exact hw
  | crash tid =>
    refine ⟨hw.inv, fun other th hother => ?_, hw.logged, fun other th hother => ?_⟩
    · by_cases ht : other = tid
      · simp [System.act, ht] at hother
      · simp only [System.act, Function.update_of_ne ht] at hother
        exact hw.begun other th hother
    · by_cases ht : other = tid
      · simp [System.act, ht] at hother
      · simp only [System.act, Function.update_of_ne ht] at hother
        exact hw.safe other th hother

/-- **Soundness**: when every program is safe from every history the invariant allows,
    the invariant holds after every admissible schedule. -/
theorem contract_after (hbody : SafeBodies S K) {w : World σ Res ρ} (hw : PoolInv S K w)
    (schedule : List (Action C X)) (hok : Admissible S K w schedule) :
    PoolInv S K (S.after w schedule) := by
  induction schedule generalizing w with
  | nil => exact hw
  | cons a schedule ih => exact ih (poolInv_act hbody hw a hok.1) hok.2

theorem poolInv_init {s : σ} (hinv : K.inv ⟨s, []⟩) :
    PoolInv S K ({ hist := ⟨s, []⟩ } : World σ Res ρ) :=
  ⟨hinv, nofun, nofun, nofun⟩

end Pool
