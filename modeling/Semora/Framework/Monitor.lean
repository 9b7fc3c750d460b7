import Semora.Framework.Machine
import Semora.Framework.Pool

/-! # Monitors

    A monitor watches what one thread of a pool exchanges with the outside: it
    keeps a state of its own, moves with every exchange, and allows some
    operations and not others. A program that obeys it does only what it
    allows, whatever it is answered.

    What the others do, and what they do to the shared state, is of no concern
    to a monitor. So a program is checked against it alone (`Obeys`), and what
    was checked holds of the thread's events in every log of the pool
    (`allowed_after`). -/

/-- Watches the exchanges of a program. -/
structure Monitor (Op : Type) (Res : Op → Type) (μ : Type) where
  next : μ → (o : Op) → Res o → μ
  allows : μ → Op → Prop

namespace Monitor

variable {Op μ : Type} {Res : Op → Type} {M : Monitor Op Res μ} {m : μ}

/-- The monitor's state, from `m` on, after these exchanges. -/
def through (M : Monitor Op Res μ) (m : μ) (done : List (Prog.Exchange Res)) : μ :=
  done.foldl (fun m x => M.next m x.1 x.2) m

theorem through_append (done more : List (Prog.Exchange Res)) :
    M.through m (done ++ more) = M.through (M.through m done) more := List.foldl_append

theorem through_concat (done : List (Prog.Exchange Res)) (o : Op) (r : Res o) :
    M.through m (done ++ [⟨o, r⟩]) = M.next (M.through m done) o r := through_append done _

end Monitor

/-! ## Section 1: Programs under a monitor -/

namespace Prog

variable {Op μ α β : Type} {Res : Op → Type} {M : Monitor Op Res μ}

/-- From state `m` of the monitor the program does only what is allowed, whatever it is answered,
    and returns what `Q` says. -/
def Obeys (M : Monitor Op Res μ) (Q : α → μ → Prop) : Prog Op Res α → μ → Prop
  | .pure a, m => Q a m
  | .perform o next, m => M.allows m o ∧ ∀ r, (next r).Obeys M Q (M.next m o r)

theorem Obeys.mono {Q Q' : α → μ → Prop} (hQ : ∀ a m, Q a m → Q' a m) {p : Prog Op Res α} {m : μ}
    (hp : p.Obeys M Q m) : p.Obeys M Q' m := by
  induction p generalizing m with
  | pure a => exact hQ a m hp
  | perform o next ih => exact ⟨hp.1, fun r => ih r (hp.2 r)⟩

theorem Obeys.bind {Q : α → μ → Prop} {Q' : β → μ → Prop} {p : Prog Op Res α}
    {f : α → Prog Op Res β} {m : μ} (hp : p.Obeys M Q m)
    (hf : ∀ a m, Q a m → (f a).Obeys M Q' m) : (p >>= f).Obeys M Q' m := by
  induction p generalizing m with
  | pure a => exact hf a m hp
  | perform o next ih => exact ⟨hp.1, fun r => ih r (hp.2 r)⟩

/-- A program whose operations all keep an assertion of the monitor. -/
theorem Ensures.obeys {φ : Op → Prop} {R : α → Prop} {P : μ → Prop} {p : Prog Op Res α}
    (hp : p.Ensures φ R)
    (hop : ∀ o, φ o → ∀ m, P m → M.allows m o ∧ ∀ r, P (M.next m o r)) {m : μ} (hm : P m) :
    p.Obeys M (fun a m => R a ∧ P m) m := by
  induction p generalizing m with
  | pure a => exact ⟨hp, hm⟩
  | perform o next ih =>
    obtain ⟨hallowed, hkept⟩ := hop o hp.1 m hm
    exact ⟨hallowed, fun r => ih r (hp.2 r) (hkept r)⟩

/-- What is left of a program obeys from where the monitor has come to. -/
theorem Obeys.path {Q : α → μ → Prop} {p rest : Prog Op Res α} {m : μ} (hp : p.Obeys M Q m)
    {done : List (Exchange Res)} (h : Path p done rest) : rest.Obeys M Q (M.through m done) := by
  induction h with
  | nil => exact hp
  | concat _ r ih =>
    rw [Monitor.through_concat]
    exact ih.2 r

end Prog

/-! ## Section 2: Threads and their exchanges -/

namespace Monitor

open Pool

variable {σ Op X C μ : Type} {Res : Op → Type} {ρ : C → Type}

/-- The monitor's state, from `m` on, after what thread `tid` has done. -/
def seen (M : Monitor Op Res μ) (m : μ) (tid : Nat) (log : List (Event σ C Res)) : μ :=
  log.foldl (fun m e => if e.tid = tid then M.next m e.op e.reply else m) m

variable {M : Monitor Op Res μ} {m : μ} {tid : Nat}

@[simp] theorem seen_nil : M.seen m tid ([] : List (Event σ C Res)) = m := rfl

theorem seen_append (log more : List (Event σ C Res)) :
    M.seen m tid (log ++ more) = M.seen (M.seen m tid log) tid more := List.foldl_append

theorem seen_concat (log : List (Event σ C Res)) (e : Event σ C Res) :
    M.seen m tid (log ++ [e])
      = if e.tid = tid then M.next (M.seen m tid log) e.op e.reply else M.seen m tid log := by
  rw [seen_append]
  rfl

/-- An event moves the monitor of its own thread. -/
theorem seen_update (log : List (Event σ C Res)) (e : Event σ C Res) :
    (fun i => M.seen m i (log ++ [e])) = Function.update (fun i => M.seen m i log) e.tid
      (M.next (M.seen m e.tid log) e.op e.reply) := by
  funext i
  rw [seen_concat]
  by_cases hi : e.tid = i
  · subst hi
    rw [if_pos rfl, Function.update_self]
  · rw [if_neg hi, Function.update_of_ne (Ne.symm hi)]

end Monitor

namespace Pool

variable {σ Op X C μ : Type} {Res : Op → Type} {ρ : C → Type} {S : System σ X Res ρ}

/-- Threads and events belong to the call that their thread was begun for. -/
structure Begun (w : World σ Res ρ) : Prop where
  threads : ∀ tid th, w.threads tid = some th → w.calls[tid]? = some th.call
  log : ∀ e ∈ w.hist.log, w.calls[e.tid]? = some e.call

theorem begun_act {w : World σ Res ρ} (hw : Begun w) (a : Action C X) : Begun (S.act w a) := by
  -- A new thread has the call just begun, a step is of the thread's own call, and a crash forgets
  -- the thread.
  cases a with
  | begin call =>
    have hgrows : ∀ (tid : Nat) (other : C), w.calls[tid]? = some other →
        (w.calls ++ [call])[tid]? = some other := by
      intro tid other hother
      rw [List.getElem?_append_left (List.getElem?_eq_some_iff.mp hother).1]
      exact hother
    refine ⟨fun tid th hth => ?_, fun e he => hgrows _ _ (hw.log e he)⟩
    by_cases htid : tid = w.calls.length
    · subst htid
      simp only [System.act, Function.update_self, Option.some.injEq] at hth
      subst hth
      show (w.calls ++ [call])[w.calls.length]? = some call
      simp
    · simp only [System.act, Function.update_of_ne htid] at hth
      exact hgrows _ _ (hw.threads tid th hth)
  | run tid x =>
    unfold System.act
    dsimp only
    split
    · next call o next hth =>
      have hcall : w.calls[tid]? = some call := hw.threads tid _ hth
      refine ⟨fun other th hother => ?_, fun e he => ?_⟩
      · by_cases ht : other = tid
        · subst ht
          simp only [Function.update_self, Option.some.injEq] at hother
          subst hother
          exact hcall
        · simp only [Function.update_of_ne ht] at hother
          exact hw.threads other th hother
      · rcases List.mem_append.mp he with he | he
        · exact hw.log e he
        · obtain rfl := List.mem_singleton.mp he
          exact hcall
    · exact hw
  | crash tid =>
    refine ⟨fun other th hother => ?_, hw.log⟩
    by_cases ht : other = tid
    · simp [System.act, ht] at hother
    · simp only [System.act, Function.update_of_ne ht] at hother
      exact hw.threads other th hother

theorem begun_init {s : σ} : Begun ({ hist := ⟨s, []⟩ } : World σ Res ρ) :=
  ⟨fun _ _ h => (by cases h), fun _ h => (by cases h)⟩

/-- A thread that has not been begun has done nothing. -/
theorem Begun.idle {w : World σ Res ρ} (hw : Begun w) {tid : Nat} (htid : w.calls.length ≤ tid) :
    ∀ e ∈ w.hist.log, e.tid ≠ tid := by
  rintro e he rfl
  have hlt := (List.getElem?_eq_some_iff.mp (hw.log e he)).1
  exact absurd htid (Nat.not_le_of_lt hlt)

/-- What thread `tid` has exchanged. -/
def exchanged (tid : Nat) (log : List (Event σ C Res)) : List (Prog.Exchange Res) :=
  log.filterMap fun e => if e.tid = tid then some ⟨e.op, e.reply⟩ else none

theorem exchanged_concat (tid : Nat) (log : List (Event σ C Res)) (e : Event σ C Res) :
    exchanged tid (log ++ [e])
      = if e.tid = tid then exchanged tid log ++ [⟨e.op, e.reply⟩] else exchanged tid log := by
  unfold exchanged
  rw [List.filterMap_append]
  by_cases htid : e.tid = tid
  · simp [htid]
  · simp [htid]

/-- A monitor sees what the thread has exchanged. -/
theorem seen_eq_through (M : Monitor Op Res μ) (m : μ) (tid : Nat) (log : List (Event σ C Res)) :
    M.seen m tid log = M.through m (exchanged tid log) := by
  induction log using List.reverseRecOn with
  | nil => rfl
  | append_singleton log e ih =>
    rw [Monitor.seen_concat, exchanged_concat, ih]
    by_cases htid : e.tid = tid
    · rw [if_pos htid, if_pos htid, Monitor.through_concat]
    · rw [if_neg htid, if_neg htid]

/-- What a thread has exchanged is a path of its call's program, and what is left of the thread is
    what the path leaves. -/
structure Underway (S : System σ X Res ρ) (w : World σ Res ρ) : Prop where
  begun : Begun w
  path : ∀ tid call, w.calls[tid]? = some call →
    ∃ rest, Prog.Path (S.body tid call) (exchanged tid w.hist.log) rest ∧
      ∀ th, w.threads tid = some th → th = ⟨call, rest⟩

theorem underway_begin {w : World σ Res ρ} (hw : Underway S w) (other : C) :
    Underway S (S.act w (.begin other)) := by
  refine ⟨begun_act hw.begun _, fun tid call hcall => ?_⟩
  have hcall : (w.calls ++ [other])[tid]? = some call := hcall
  by_cases htid : tid = w.calls.length
  · subst htid
    obtain rfl : other = call := by simpa using hcall
    have hnone : exchanged w.calls.length w.hist.log = [] := by
      refine List.filterMap_eq_nil_iff.mpr fun e he => ?_
      exact if_neg (hw.begun.idle (Nat.le_refl _) e he)
    refine ⟨_, hnone ▸ Prog.Path.nil, fun th hth => ?_⟩
    simp only [System.act, Function.update_self, Option.some.injEq] at hth
    exact hth.symm
  · have hlt : tid < w.calls.length := by
      have hle := (List.getElem?_eq_some_iff.mp hcall).1
      rw [List.length_append, List.length_singleton] at hle
      omega
    rw [List.getElem?_append_left hlt] at hcall
    obtain ⟨rest, hpath, hleft⟩ := hw.path tid call hcall
    refine ⟨rest, hpath, fun th hth => hleft th ?_⟩
    simpa only [System.act, Function.update_of_ne htid] using hth

theorem underway_run {w : World σ Res ρ} (hw : Underway S w) (tid : Nat) (x : X) :
    Underway S (S.act w (.run tid x)) := by
  refine ⟨begun_act hw.begun _, ?_⟩
  unfold System.act
  dsimp only
  split
  · next called o next hth =>
    intro other call hcall
    obtain ⟨rest, hpath, hleft⟩ := hw.path other call hcall
    dsimp only [System.perform]
    rw [exchanged_concat]
    -- The thread that moved is one exchange further on its path; the others are where they were.
    by_cases ht : other = tid
    · subst ht
      obtain ⟨rfl, hrest⟩ := Thread.mk.inj (hleft _ hth)
      obtain rfl := eq_of_heq hrest
      rw [if_pos rfl]
      refine ⟨_, hpath.concat _, fun th hnext => ?_⟩
      simp only [Function.update_self, Option.some.injEq] at hnext
      exact hnext.symm
    · rw [if_neg (Ne.symm ht)]
      refine ⟨rest, hpath, fun th hnext => hleft th ?_⟩
      simpa only [Function.update_of_ne ht] using hnext
  · exact hw.path

theorem underway_act {w : World σ Res ρ} (hw : Underway S w) (a : Action C X) :
    Underway S (S.act w a) := by
  cases a with
  | begin other => exact underway_begin hw other
  | run tid x => exact underway_run hw tid x
  | crash tid =>
    refine ⟨begun_act hw.begun _, fun other call hcall => ?_⟩
    obtain ⟨rest, hpath, hleft⟩ := hw.path other call hcall
    refine ⟨rest, hpath, fun th hth => hleft th ?_⟩
    by_cases ht : other = tid
    · simp [System.act, ht] at hth
    · simpa only [System.act, Function.update_of_ne ht] using hth

/-- **Every thread follows its program**, after every schedule. -/
theorem underway_after (s : σ) (schedule : List (Action C X)) :
    Underway S (S.after { hist := ⟨s, []⟩ } schedule) := by
  have hgo : ∀ (schedule : List (Action C X)) (w : World σ Res ρ), Underway S w →
      Underway S (S.after w schedule) := by
    intro schedule
    induction schedule with
    | nil => exact fun _ hw => hw
    | cons a schedule ih => exact fun w hw => ih _ (underway_act hw a)
  refine hgo schedule _ ⟨begun_init, fun tid call hcall => ?_⟩
  cases hcall

/-! ## Section 3: Threads under a monitor -/

/-- The monitor allows each event of the thread, after what the thread did before. -/
def Allowed (M : Monitor Op Res μ) (m : μ) (tid : Nat) (log : List (Event σ C Res)) : Prop :=
  Always (fun before e => e.tid = tid → M.allows (M.seen m tid before) e.op) log

variable {M : Monitor Op Res μ} {m : μ} {tid : Nat} {call : C}

/-- The exchanges of a path of a program that obeys are allowed. -/
theorem allowed_of_path {α : Type} {p rest : Prog Op Res α} {Q : α → μ → Prop}
    (hp : p.Obeys M Q m) {log : List (Event σ C Res)} (h : Prog.Path p (exchanged tid log) rest) :
    Allowed M m tid log := by
  induction log using List.reverseRecOn generalizing rest with
  | nil => exact always_nil
  | append_singleton log e ih =>
    rw [exchanged_concat] at h
    by_cases htid : e.tid = tid
    · rw [if_pos htid] at h
      obtain ⟨next, hbefore⟩ := h.of_concat
      refine always_concat.mpr ⟨ih hbefore, fun _ => ?_⟩
      rw [seen_eq_through]
      exact (hp.path hbefore).1
    · rw [if_neg htid] at h
      exact always_concat.mpr ⟨ih h, fun hsame => absurd hsame htid⟩

/-- **Soundness**: a thread whose program obeys the monitor has done, after every schedule, only
    what the monitor allows. -/
theorem allowed_after (hbody : (S.body tid call).Obeys M (fun _ _ => True) m) (s : σ)
    (schedule : List (Action C X)) {e : Event σ C Res}
    (he : e ∈ (S.after { hist := ⟨s, []⟩ } schedule).hist.log) (htid : e.tid = tid)
    (hcall : e.call = call) :
    Allowed M m tid (S.after { hist := ⟨s, []⟩ } schedule).hist.log := by
  have hw := underway_after (S := S) s schedule
  have hbegun := hw.begun.log e he
  rw [htid, hcall] at hbegun
  obtain ⟨rest, hpath, _⟩ := hw.path tid call hbegun
  exact allowed_of_path hbody hpath

/-- A thread that has done nothing is allowed all of it, and every other serves a call that was
    begun. -/
theorem allowed_of_begun {R : C → Prop}
    (hbody : ∀ call, R call → (S.body tid call).Obeys M (fun _ _ => True) m) (s : σ)
    {schedule : List (Action C X)} (hbegin : ∀ call, Action.begin call ∈ schedule → R call) :
    Allowed M m tid (S.after { hist := ⟨s, []⟩ } schedule).hist.log := by
  by_cases hnone : ∀ e ∈ (S.after { hist := ⟨s, []⟩ } schedule).hist.log, e.tid ≠ tid
  · intro j e hj htid
    exact absurd htid (hnone e (List.mem_of_getElem? hj))
  · obtain ⟨e, he, htid⟩ : ∃ e ∈ (S.after { hist := ⟨s, []⟩ } schedule).hist.log, e.tid = tid := by
      simpa only [not_forall, not_not, exists_prop] using hnone
    have hcall : R e.call :=
      calls_after (fun e he => by cases he) (fun i th hth => by cases hth) hbegin e he
    exact allowed_after (hbody e.call hcall) s schedule he htid rfl

end Pool
