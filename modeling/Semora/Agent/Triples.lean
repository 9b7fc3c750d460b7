import Semora.Agent.Operations

/-! # Rules for the Runtime's Code

    The rules of `Pool.Triple` for code that returns or raises: `Q` is what
    holds when it returns, `E` when it raises. -/

namespace Semora

open Pool

namespace Code

variable {C α β : Type} {ρ : C → Type} {body : Nat → (call : C) → Prog Op Op.Reply (ρ call)}

/-- The pool of the runtime: operations against one ledger. -/
abbrev system (body : Nat → (call : C) → Prog Op Op.Reply (ρ call)) :
    System (MemorySteps Record) Env Op.Reply ρ where
  sem := perform
  body := body

/-- A history of the runtime. -/
abbrev History (C : Type) := Hist (MemorySteps Record) C Op.Reply

/-- An event of the runtime. -/
abbrev Event (C : Type) := Pool.Event (MemorySteps Record) C Op.Reply

/-- `x` is safe from every history `P` holds of; it returns what `Q` and raises what `E` allows. -/
def Triple (body : Nat → (call : C) → Prog Op Op.Reply (ρ call))
    (K : Contract (MemorySteps Record) Env C Op.Reply) (tid : Nat) (call : C)
    (P : History C → Prop) (x : Code α) (Q : α → History C → Prop)
    (E : Raised → History C → Prop) : Prop :=
  Pool.Triple (system body) K tid call P x.run fun
    | .ok a => Q a
    | .error e => E e

variable {K : Contract (MemorySteps Record) Env C Op.Reply} {tid : Nat} {call : C}
  {P : History C → Prop} {E : Raised → History C → Prop}

/-- The history after an operation. -/
def next (h : History C) (tid : Nat) (call : C) (o : Op) (r : o.Reply)
    (s : MemorySteps Record) : History C :=
  ⟨s, h.log ++ [⟨tid, call, o, r, s⟩]⟩

theorem Triple.pure {a : α} {Q : α → History C → Prop} (hP : Stable K tid P)
    (h : ∀ h, K.inv h → P h → Q a h) : Triple body K tid call P (Pure.pure a : Code α) Q E :=
  Pool.Triple.pure hP h

theorem Triple.throw {e : Raised} {Q : α → History C → Prop} (hP : Stable K tid P)
    (h : ∀ h, K.inv h → P h → E e h) : Triple body K tid call P (throw e : Code α) Q E :=
  Pool.Triple.pure hP h

theorem Triple.ofExcept {r : Except Raised α} {Q : α → History C → Prop} (hP : Stable K tid P)
    (hok : ∀ a, r = .ok a → ∀ h, K.inv h → P h → Q a h)
    (herror : ∀ e, r = .error e → ∀ h, K.inv h → P h → E e h) :
    Triple body K tid call P (Code.ofExcept r) Q E := by
  cases r with
  | ok a => exact Pool.Triple.pure hP (hok a rfl)
  | error e => exact Pool.Triple.pure hP (herror e rfl)

theorem Triple.mono {P' : History C → Prop} {x : Code α} {Q Q' : α → History C → Prop}
    {E' : Raised → History C → Prop} (hx : Triple body K tid call P x Q E)
    (hP : ∀ h, K.inv h → P' h → P h) (hQ : ∀ a h, K.inv h → Q a h → Q' a h)
    (hE : ∀ e h, K.inv h → E e h → E' e h) : Triple body K tid call P' x Q' E' := by
  refine Pool.Triple.mono hP ?_ hx
  intro r h hinv hr
  cases r with
  | ok a => exact hQ a h hinv hr
  | error e => exact hE e h hinv hr

theorem Triple.pre {P' : History C → Prop} {x : Code α} {Q : α → History C → Prop}
    (hx : Triple body K tid call P x Q E) (hP : ∀ h, K.inv h → P' h → P h) :
    Triple body K tid call P' x Q E :=
  hx.mono hP (fun _ _ _ h => h) fun _ _ _ h => h

/-- A precondition that says something of the world but the history. -/
theorem Triple.known {a : Prop} {x : Code α} {Q : α → History C → Prop} (ha : ∀ h, P h → a)
    (hx : a → Triple body K tid call P x Q E) : Triple body K tid call P x Q E :=
  Pool.Triple.known ha hx

/-- A precondition that names something. -/
theorem Triple.exists {ι : Type} {P : ι → History C → Prop} {x : Code α}
    {Q : α → History C → Prop} (hx : ∀ k, Triple body K tid call (P k) x Q E) :
    Triple body K tid call (fun h => ∃ k, P k h) x Q E :=
  Pool.Triple.exists hx

/-- What raises goes on raising: the exception must stay allowed meanwhile. -/
theorem Triple.bind {x : Code α} {f : α → Code β} {Q : α → History C → Prop}
    {Q' : β → History C → Prop} (hE : ∀ e, Stable K tid (E e))
    (hx : Triple body K tid call P x Q E)
    (hf : ∀ a, Triple body K tid call (Q a) (f a) Q' E) :
    Triple body K tid call P (x >>= f) Q' E := by
  refine Pool.Triple.bind (f := ExceptT.bindCont f) hx ?_
  rintro (e | a)
  · exact Pool.Triple.pure (hE e) fun _ _ h => h
  · exact hf a

/-- A ledger call. -/
theorem Triple.ledger {op : LedgerOp Record} {Q : op.Reply → History C → Prop}
    (hP : Stable K tid P)
    (hop : ∀ h x r s, K.inv h → P h → K.ok tid call h (.ledger op) x →
      op.perform x.now x.later h.now = (r, s) →
      K.guar tid call h (.ledger op) r (next h tid call (.ledger op) r s) ∧
        match r with
        | .ok a => Q a (next h tid call (.ledger op) r s)
        | .error e => E (.store e) (next h tid call (.ledger op) r s))
    (hQ : ∀ a, Stable K tid (Q a)) (hE : ∀ e, Stable K tid (E e)) :
    Triple body K tid call P (Code.ledger op) Q E := by
  refine Pool.Triple.perform (S := system body)
    (M := fun (r : Except StoreError op.Reply) h => match r with
      | .ok a => Q a h
      | .error e => E (.store e) h) hP (fun h x hinv hpre hok => hop h x _ _ hinv hpre hok rfl) ?_
  rintro (e | a)
  · exact Pool.Triple.pure (hE _) fun _ _ h => h
  · exact Pool.Triple.pure (hQ a) fun _ _ h => h

/-- A question to the outside. -/
theorem Triple.ask {e : External} (heq : e.Reply = Except Raised α) {Q : α → History C → Prop}
    (hP : Stable K tid P)
    (hop : ∀ h x, K.inv h → P h → K.ok tid call h (.ext e) x → ∀ r : e.Reply,
      K.guar tid call h (.ext e) r (next h tid call (.ext e) r h.now) ∧
        match cast heq r with
        | .ok a => Q a (next h tid call (.ext e) r h.now)
        | .error err => E err (next h tid call (.ext e) r h.now))
    (hQ : ∀ a, Stable K tid (Q a)) (hE : ∀ e, Stable K tid (E e)) :
    Triple body K tid call P (Code.ask e heq) Q E := by
  refine Pool.Triple.perform (S := system body)
    (M := fun (r : e.Reply) h => match cast heq r with
      | .ok a => Q a h
      | .error err => E err h) hP (fun h x hinv hpre hok => hop h x hinv hpre hok _) ?_
  intro r
  cases hr : cast heq r with
  | ok a =>
    refine Pool.Triple.pure ?_ fun _ _ h => ?_
    · simpa only [hr] using hQ a
    · simpa only [hr] using h
  | error err =>
    refine Pool.Triple.pure ?_ fun _ _ h => ?_
    · simpa only [hr] using hE err
    · simpa only [hr] using h

/-- A mark. -/
theorem Triple.mark {m : Mark} {Q : Unit → History C → Prop} (hP : Stable K tid P)
    (hop : ∀ h x, K.inv h → P h → K.ok tid call h (.ext (.mark m)) x →
      K.guar tid call h (.ext (.mark m)) () (next h tid call (.ext (.mark m)) () h.now) ∧
        Q () (next h tid call (.ext (.mark m)) () h.now))
    (hQ : Stable K tid (Q ())) : Triple body K tid call P (Code.mark m) Q E :=
  Pool.Triple.perform (S := system body) (M := fun _ => Q ()) hP
    (fun h x hinv hpre hok => hop h x hinv hpre hok) fun _ =>
      Pool.Triple.pure hQ fun _ _ h => h

/-- What code does, as a value. -/
theorem Triple.attempt {x : Code α} {Q : α → History C → Prop}
    {E' : Raised → History C → Prop} (hx : Triple body K tid call P x Q E')
    (hQ : ∀ a, Stable K tid (Q a)) (hE : ∀ e, Stable K tid (E' e)) :
    Triple body K tid call P (Code.attempt x)
      (fun r => match r with
        | .ok a => Q a
        | .error e => E' e) E := by
  refine Pool.Triple.bind hx ?_
  rintro (e | a)
  · exact Pool.Triple.pure (hE e) fun _ _ h => h
  · exact Pool.Triple.pure (hQ a) fun _ _ h => h

/-- `try: … finally: …`, where both ways out lead to the same. -/
theorem Triple.finally_ {x : Code α} {last : Code Unit} {R R' : History C → Prop}
    (hR' : Stable K tid R') (hx : Triple body K tid call P x (fun _ => R) fun _ => R)
    (hlast : Triple body K tid call R last (fun _ => R') fun _ => R') :
    Triple body K tid call P (Code.finally_ x last) (fun _ => R') fun _ => R' := by
  refine Pool.Triple.bind hx ?_
  intro r
  -- whatever the body did, the last part runs, and what it raises goes first
  cases r with
  | error e =>
    refine Pool.Triple.bind hlast ?_
    rintro (_ | ⟨⟩)
    · exact Pool.Triple.pure hR' fun _ _ h => h
    · exact Pool.Triple.pure hR' fun _ _ h => h
  | ok a =>
    refine Pool.Triple.bind hlast ?_
    rintro (_ | ⟨⟩)
    · exact Pool.Triple.pure hR' fun _ _ h => h
    · exact Pool.Triple.pure hR' fun _ _ h => h

/-- `try: … except …`. -/
theorem Triple.catch_ {x : Code α} {f : Raised → Code α} {Q : α → History C → Prop}
    {E' : Raised → History C → Prop} (hQ : ∀ a, Stable K tid (Q a))
    (hx : Triple body K tid call P x Q E')
    (hf : ∀ e, Triple body K tid call (E' e) (f e) Q E) :
    Triple body K tid call P (Code.catch_ x f) Q E := by
  refine Pool.Triple.bind hx ?_
  rintro (e | a)
  · exact hf e
  · exact Pool.Triple.pure (hQ a) fun _ _ h => h

/-! ## What code can do -/

/-- Every operation the code can perform satisfies `φ`. -/
def Only (φ : Op → Prop) (x : Code α) : Prop := x.run.All φ

section only

variable {φ : Op → Prop}

theorem only_pure (a : α) : Only φ (Pure.pure a : Code α) := trivial

theorem only_throw (e : Raised) : Only φ (throw e : Code α) := trivial

theorem Only.bind {x : Code α} {f : α → Code β} (hx : Only φ x) (hf : ∀ a, Only φ (f a)) :
    Only φ (x >>= f) := by
  refine Prog.All.bind (f := ExceptT.bindCont f) hx ?_
  rintro (e | a)
  · exact trivial
  · exact hf a

theorem only_ofExcept (r : Except Raised α) : Only φ (Code.ofExcept r) := trivial

theorem only_ledger {op : LedgerOp Record} (h : φ (.ledger op)) : Only φ (ledger op) :=
  ⟨h, fun _ => trivial⟩

theorem only_ask {e : External} (heq : e.Reply = Except Raised α) (h : φ (.ext e)) :
    Only φ (ask e heq) :=
  ⟨h, fun _ => trivial⟩

theorem only_mark {m : Mark} (h : φ (.ext (.mark m))) : Only φ (mark m) := ⟨h, fun _ => trivial⟩

theorem Only.attempt {x : Code α} (hx : Only φ x) : Only φ (Code.attempt x) :=
  Prog.All.bind hx fun _ => trivial

theorem Only.catch_ {x : Code α} {f : Raised → Code α} (hx : Only φ x) (hf : ∀ e, Only φ (f e)) :
    Only φ (Code.catch_ x f) := by
  refine Prog.All.bind hx ?_
  rintro (e | a)
  · exact hf e
  · exact trivial

theorem Only.ite {p : Prop} [Decidable p] {x y : Code α} (hx : p → Only φ x)
    (hy : ¬ p → Only φ y) : Only φ (if p then x else y) :=
  iteInduction hx hy

/-- What every operation of the code keeps. -/
theorem Triple.invariant {x : Code α} (hx : Only φ x) (hP : Stable K tid P)
    (hop : ∀ o, φ o → ∀ h x, K.inv h → P h → K.ok tid call h o x →
      K.guar tid call h o ((system body).perform h tid call x o).1
        ((system body).perform h tid call x o).2 ∧
      P ((system body).perform h tid call x o).2) :
    Triple body K tid call P x (fun _ => P) fun _ => P := by
  refine Pool.Triple.mono (fun _ _ h => h) ?_ (Pool.Triple.invariant hx hP hop)
  rintro (e | a) h _ hpost
  · exact hpost.2
  · exact hpost.2

end only

end Code

end Semora
