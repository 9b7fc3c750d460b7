import Semora.Framework.Monitor
import Semora.Agent.Attempt

/-! # The Runtime's Code under a Monitor

    The rules of `Prog.Obeys` for code that returns or raises, and for code of
    one attempt: `P` is what holds of the monitor before, `Q` when the code
    returns, `E` when it raises. -/

namespace Semora

variable {μ α β : Type} {M : Monitor Op Op.Reply μ}

/-! ## Section 1: Code -/

namespace Code

/-- `x`, watched from where `P` holds, returns what `Q` and raises what `E` allows. -/
def Watched (M : Monitor Op Op.Reply μ) (P : μ → Prop) (x : Code α) (Q : α → μ → Prop)
    (E : Raised → μ → Prop) : Prop :=
  ∀ m, P m → x.run.Obeys M (fun
    | .ok a => Q a
    | .error e => E e) m

variable {P : μ → Prop} {E : Raised → μ → Prop}

theorem Watched.pure {a : α} {Q : α → μ → Prop} (h : ∀ m, P m → Q a m) :
    Watched M P (Pure.pure a : Code α) Q E := h

theorem Watched.throw {e : Raised} {Q : α → μ → Prop} (h : ∀ m, P m → E e m) :
    Watched M P (throw e : Code α) Q E := h

theorem Watched.mono {P' : μ → Prop} {x : Code α} {Q Q' : α → μ → Prop} {E' : Raised → μ → Prop}
    (hx : Watched M P x Q E) (hP : ∀ m, P' m → P m) (hQ : ∀ a m, Q a m → Q' a m)
    (hE : ∀ e m, E e m → E' e m) : Watched M P' x Q' E' := by
  refine fun m hm => Prog.Obeys.mono ?_ (hx m (hP m hm))
  rintro (e | a)
  · exact hE e
  · exact hQ a

theorem Watched.pre {P' : μ → Prop} {x : Code α} {Q : α → μ → Prop} (hx : Watched M P x Q E)
    (hP : ∀ m, P' m → P m) : Watched M P' x Q E :=
  hx.mono hP (fun _ _ h => h) fun _ _ h => h

theorem Watched.bind {x : Code α} {f : α → Code β} {Q : α → μ → Prop} {Q' : β → μ → Prop}
    (hx : Watched M P x Q E) (hf : ∀ a, Watched M (Q a) (f a) Q' E) :
    Watched M P (x >>= f) Q' E := by
  refine fun m hm => Prog.Obeys.bind (f := ExceptT.bindCont f) (hx m hm) ?_
  rintro (e | a) m' h
  · exact h
  · exact hf a m' h

/-- A ledger call. -/
theorem Watched.ledger {op : LedgerOp Record} {Q : op.Reply → μ → Prop}
    (hallowed : ∀ m, P m → M.allows m (.ledger op))
    (hok : ∀ m, P m → ∀ a, Q a (M.next m (.ledger op) (.ok a : Except StoreError op.Reply)))
    (herror : ∀ m, P m → ∀ e,
      E (.store e) (M.next m (.ledger op) (.error e : Except StoreError op.Reply))) :
    Watched M P (Code.ledger op) Q E := by
  refine fun m hm => ⟨hallowed m hm, ?_⟩
  rintro (e | a)
  · exact herror m hm e
  · exact hok m hm a

/-- A question to the outside. -/
theorem Watched.ask {e : External} (heq : e.Reply = Except Raised α) {Q : α → μ → Prop}
    (hallowed : ∀ m, P m → M.allows m (.ext e))
    (hreply : ∀ m, P m → ∀ r : Op.Reply (.ext e), match cast heq r with
      | .ok a => Q a (M.next m (.ext e) r)
      | .error err => E err (M.next m (.ext e) r)) :
    Watched M P (Code.ask e heq) Q E := by
  refine fun m hm => ⟨hallowed m hm, fun r => ?_⟩
  have hr := hreply m hm r
  show Prog.Obeys M _ (.pure (cast heq r)) _
  cases hcast : cast heq r with
  | ok a =>
    rw [hcast] at hr
    exact hr
  | error err =>
    rw [hcast] at hr
    exact hr

/-- A mark. -/
theorem Watched.mark {mk : Mark} {Q : Unit → μ → Prop}
    (hallowed : ∀ m, P m → M.allows m (.ext (.mark mk)))
    (hnext : ∀ m, P m → Q () (M.next m (.ext (.mark mk)) ())) :
    Watched M P (Code.mark mk) Q E :=
  fun m hm => ⟨hallowed m hm, fun _ => hnext m hm⟩

/-- What code does, as a value. -/
theorem Watched.attempt {x : Code α} {Q : α → μ → Prop} {E' : Raised → μ → Prop}
    (hx : Watched M P x Q E') :
    Watched M P (Code.attempt x) (fun
      | .ok a => Q a
      | .error e => E' e) E := by
  refine fun m hm => Prog.Obeys.bind (hx m hm) ?_
  rintro (e | a) m' h
  · exact h
  · exact h

/-- `try: … finally: …`, where the last part keeps what held. -/
theorem Watched.finally_ {x : Code α} {last : Code Unit} {Q : α → μ → Prop}
    (hx : Watched M P x Q E)
    (hok : ∀ a, Watched M (Q a) last (fun _ => Q a) E)
    (herror : ∀ e, Watched M (E e) last (fun _ => E e) E) :
    Watched M P (Code.finally_ x last) Q E := by
  refine fun m hm => Prog.Obeys.bind (hx m hm) ?_
  rintro (e | a) m' h
  · refine Prog.Obeys.bind (herror e m' h) ?_
    rintro (_ | ⟨⟩) m'' h'
    · exact h'
    · exact h'
  · refine Prog.Obeys.bind (hok a m' h) ?_
    rintro (_ | ⟨⟩) m'' h'
    · exact h'
    · exact h'

/-- `try: … except …`. -/
theorem Watched.catch_ {x : Code α} {f : Raised → Code α} {Q : α → μ → Prop}
    {E' : Raised → μ → Prop} (hx : Watched M P x Q E')
    (hf : ∀ e, Watched M (E' e) (f e) Q E) : Watched M P (Code.catch_ x f) Q E := by
  refine fun m hm => Prog.Obeys.bind (hx m hm) ?_
  rintro (e | a) m' h
  · exact hf e m' h
  · exact h

theorem Watched.ite {p : Prop} [Decidable p] {x y : Code α} {Q : α → μ → Prop}
    (hx : p → Watched M P x Q E) (hy : ¬ p → Watched M P y Q E) :
    Watched M P (if p then x else y) Q E :=
  iteInduction (motive := fun z => Watched M P z Q E) hx hy

/-- What every operation of the code keeps. -/
theorem Only.watched {φ : Op → Prop} {x : Code α} (hx : Only φ x)
    (hop : ∀ o, φ o → ∀ m, P m → M.allows m o ∧ ∀ r, P (M.next m o r)) :
    Watched M P x (fun _ => P) fun _ => P := by
  refine fun m hm => Prog.Obeys.mono ?_ (Prog.Ensures.obeys hx hop hm)
  rintro (e | a) m' h
  · exact h.2
  · exact h.2

end Code

/-! ## Section 2: Code of an attempt -/

namespace AttemptM

/-- `Code.Watched`, with assertions about the fields as well. -/
def Watched (M : Monitor Op Op.Reply μ) (P : AttemptState → μ → Prop) (x : AttemptM α)
    (Q : α → AttemptState → μ → Prop) (E : Raised → AttemptState → μ → Prop) : Prop :=
  ∀ st, Code.Watched M (P st) (x.settled st) (ended Q E) fun _ _ => False

variable {P : AttemptState → μ → Prop} {E : Raised → AttemptState → μ → Prop}

theorem Watched.pure {a : α} {Q : α → AttemptState → μ → Prop} (h : ∀ st m, P st m → Q a st m) :
    Watched M P (Pure.pure a : AttemptM α) Q E :=
  fun st => Code.Watched.pure (h st)

theorem Watched.mono {P' : AttemptState → μ → Prop} {x : AttemptM α}
    {Q Q' : α → AttemptState → μ → Prop} {E' : Raised → AttemptState → μ → Prop}
    (hx : Watched M P x Q E) (hP : ∀ st m, P' st m → P st m)
    (hQ : ∀ a st m, Q a st m → Q' a st m) (hE : ∀ e st m, E e st m → E' e st m) :
    Watched M P' x Q' E' :=
  fun st => (hx st).mono (hP st) (forall_ended hQ hE) fun _ _ h => h

theorem Watched.bind {x : AttemptM α} {f : α → AttemptM β} {Q : α → AttemptState → μ → Prop}
    {Q' : β → AttemptState → μ → Prop} (hx : Watched M P x Q E)
    (hf : ∀ a, Watched M (Q a) (f a) Q' E) : Watched M P (x >>= f) Q' E := by
  intro st
  rw [settled_bind]
  refine (hx st).bind (forall_ended ?_ ?_)
  · exact fun a st' => hf a st'
  · exact fun e st' => Code.Watched.pure fun _ h => h

theorem Watched.code {x : Code α} {Q : α → AttemptState → μ → Prop}
    (hx : ∀ st, Code.Watched M (P st) x (fun a => Q a st) fun e => E e st) :
    Watched M P (AttemptM.code x) Q E := by
  intro st
  rw [settled_code]
  refine (hx st).attempt.bind ?_
  rintro (e | a)
  · exact Code.Watched.pure fun _ h => h
  · exact Code.Watched.pure fun _ h => h

theorem Watched.update {f : AttemptState → AttemptState} {Q : Unit → AttemptState → μ → Prop}
    (h : ∀ st m, P st m → Q () (f st) m) : Watched M P (AttemptM.update f) Q E :=
  fun st => Code.Watched.pure (h st)

theorem Watched.attempt {x : AttemptM α} {Q : α → AttemptState → μ → Prop}
    {E' : Raised → AttemptState → μ → Prop} (hx : Watched M P x Q E') :
    Watched M P (AttemptM.attempt x) (fun r st =>
      match r with
      | .ok a => Q a st
      | .error e => E' e st) E := by
  intro st
  rw [settled_attempt]
  refine (hx st).bind (forall_ended ?_ ?_)
  · exact fun a st' => Code.Watched.pure fun _ h => h
  · exact fun e st' => Code.Watched.pure fun _ h => h

theorem Watched.ite {p : Prop} [Decidable p] {x y : AttemptM α}
    {Q : α → AttemptState → μ → Prop} (hx : p → Watched M P x Q E)
    (hy : ¬ p → Watched M P y Q E) : Watched M P (if p then x else y) Q E :=
  iteInduction (motive := fun z => Watched M P z Q E) hx hy

/-- What every operation of the code keeps, of a part of the fields that the code leaves. -/
theorem Only.watched_fields {φ : Op → Prop} {γ : Type} {f : AttemptState → γ} {P : γ → μ → Prop}
    {x : AttemptM α} (hx : Only φ x) (hf : Frames f x)
    (hop : ∀ o, φ o → ∀ c m, P c m → M.allows m o ∧ ∀ r, P c (M.next m o r)) :
    Watched M (fun st => P (f st)) x (fun _ st => P (f st)) fun _ st => P (f st) := by
  intro st m hm
  have hruns := Prog.Ensures.obeys ((hx st).and (hf st)) (P := P (f st))
    (fun o ho m hm => hop o ho.1 _ m hm) hm
  have hkept : ∀ st' m', f st' = f st → P (f st) m' → P (f st') m' :=
    fun st' m' hsame h => hsame ▸ h
  refine Prog.Obeys.bind hruns (forall_ended ?_ ?_)
  · exact fun a st' m' h => hkept st' m' h.1.2 h.2
  · exact fun e st' m' h => hkept st' m' h.1.2 h.2

/-- What every operation of the code keeps, whatever becomes of the fields. -/
theorem Only.watched {φ : Op → Prop} {P : μ → Prop} {x : AttemptM α} (hx : Only φ x)
    (hop : ∀ o, φ o → ∀ m, P m → M.allows m o ∧ ∀ r, P (M.next m o r)) :
    Watched M (fun _ => P) x (fun _ _ => P) fun _ _ => P := by
  intro st m hm
  refine Prog.Obeys.bind (Prog.Ensures.obeys (hx st) hop hm) (forall_ended ?_ ?_)
  · exact fun a st' m' h => h.2
  · exact fun e st' m' h => h.2

end AttemptM

end Semora
