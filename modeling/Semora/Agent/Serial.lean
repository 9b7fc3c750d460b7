import Semora.Framework.Sequence
import Semora.Agent.Attempt

/-! # The Runtime's Code in Sequence

    The rules of `Pool.Serial` for code that returns or raises, and for code of
    one attempt: attempts follow one another, so an assertion is not weakened
    between two operations. -/

namespace Semora

open Pool

/-! ## Section 1: Code -/

namespace Code

variable {C α β : Type} {ρ : C → Type} {body : Nat → (call : C) → Prog Op Op.Reply (ρ call)}
  {B : Background (MemorySteps Record) C Op.Reply} {I : History C → Prop}
  {A : History C → Event C → Prop} {tid : Nat} {call : C} {P : History C → Prop}
  {E : Raised → History C → Prop}

/-- `x`, in its turn, returns what `Q` and raises what `E` allows. -/
def Serial (body : Nat → (call : C) → Prog Op Op.Reply (ρ call))
    (B : Background (MemorySteps Record) C Op.Reply) (I : History C → Prop)
    (A : History C → Event C → Prop) (tid : Nat) (call : C) (P : History C → Prop) (x : Code α)
    (Q : α → History C → Prop) (E : Raised → History C → Prop) : Prop :=
  Pool.Serial (system body) B I A tid call P x.run fun
    | .ok a => Q a
    | .error e => E e

/-- What has to be shown of an operation: `last` is where the thread last moved, and `M` is what
    holds after the operation. -/
def Operation (B : Background (MemorySteps Record) C Op.Reply) (I : History C → Prop)
    (A : History C → Event C → Prop) (tid : Nat) (call : C) (P : History C → Prop) (o : Op)
    (M : o.Reply → History C → Prop) : Prop :=
  ∀ last h r s, P last → B.rel last h → I h → Next B tid h → A h ⟨tid, call, o, r, s⟩ →
    (∃ x : Env, perform h.now x o = (r, s)) →
      I (next h tid call o r s) ∧ M r (next h tid call o r s)

theorem Serial.pure {a : α} {Q : α → History C → Prop} (h : ∀ h, P h → Q a h) :
    Serial body B I A tid call P (Pure.pure a : Code α) Q E :=
  Pool.Serial.pure h

theorem Serial.throw {e : Raised} {Q : α → History C → Prop} (h : ∀ h, P h → E e h) :
    Serial body B I A tid call P (throw e : Code α) Q E :=
  Pool.Serial.pure h

theorem Serial.ofExcept {r : Except Raised α} {Q : α → History C → Prop}
    (hok : ∀ a, r = .ok a → ∀ h, P h → Q a h) (herror : ∀ e, r = .error e → ∀ h, P h → E e h) :
    Serial body B I A tid call P (Code.ofExcept r) Q E := by
  cases r with
  | ok a => exact Pool.Serial.pure (hok a rfl)
  | error e => exact Pool.Serial.pure (herror e rfl)

theorem Serial.mono {P' : History C → Prop} {x : Code α} {Q Q' : α → History C → Prop}
    {E' : Raised → History C → Prop} (hx : Serial body B I A tid call P x Q E)
    (hP : ∀ h, P' h → P h) (hQ : ∀ a h, Q a h → Q' a h) (hE : ∀ e h, E e h → E' e h) :
    Serial body B I A tid call P' x Q' E' := by
  refine Pool.Serial.mono hP ?_ hx
  intro r h hr
  cases r with
  | ok a => exact hQ a h hr
  | error e => exact hE e h hr

theorem Serial.pre {P' : History C → Prop} {x : Code α} {Q : α → History C → Prop}
    (hx : Serial body B I A tid call P x Q E) (hP : ∀ h, P' h → P h) :
    Serial body B I A tid call P' x Q E :=
  hx.mono hP (fun _ _ h => h) fun _ _ h => h

theorem Serial.known {a : Prop} {x : Code α} {Q : α → History C → Prop} (ha : ∀ h, P h → a)
    (hx : a → Serial body B I A tid call P x Q E) : Serial body B I A tid call P x Q E :=
  Pool.Serial.known ha hx

theorem Serial.exists {ι : Type} {P : ι → History C → Prop} {x : Code α}
    {Q : α → History C → Prop} (hmoved : ∀ k h, P k h → Moved B tid h)
    (hx : ∀ k, Serial body B I A tid call (P k) x Q E) :
    Serial body B I A tid call (fun h => ∃ k, P k h) x Q E :=
  Pool.Serial.exists hmoved hx

theorem Serial.bind {x : Code α} {f : α → Code β} {Q : α → History C → Prop}
    {Q' : β → History C → Prop} (hx : Serial body B I A tid call P x Q E)
    (hf : ∀ a, Serial body B I A tid call (Q a) (f a) Q' E) :
    Serial body B I A tid call P (x >>= f) Q' E := by
  refine Pool.Serial.bind (f := ExceptT.bindCont f) hx ?_
  rintro (e | a)
  · exact Pool.Serial.pure fun _ h => h
  · exact hf a

/-- A ledger call. -/
theorem Serial.ledger {op : LedgerOp Record} {Q : op.Reply → History C → Prop}
    (hop : Operation B I A tid call P (.ledger op) fun (r : Except StoreError op.Reply) =>
      match r with
      | .ok a => Q a
      | .error e => E (.store e)) :
    Serial body B I A tid call P (Code.ledger op) Q E := by
  refine Pool.Serial.perform (S := system body)
    (M := fun (r : Except StoreError op.Reply) => match r with
      | .ok a => Q a
      | .error e => E (.store e)) hop ?_
  rintro (e | a)
  · exact Pool.Serial.pure fun _ h => h
  · exact Pool.Serial.pure fun _ h => h

/-- A question to the outside. -/
theorem Serial.ask {e : External} (heq : e.Reply = Except Raised α) {Q : α → History C → Prop}
    (hop : Operation B I A tid call P (.ext e) fun (r : e.Reply) =>
      match cast heq r with
      | .ok a => Q a
      | .error err => E err) :
    Serial body B I A tid call P (Code.ask e heq) Q E := by
  refine Pool.Serial.perform (S := system body)
    (M := fun (r : e.Reply) => match cast heq r with
      | .ok a => Q a
      | .error err => E err) hop ?_
  intro r
  cases hr : cast heq r with
  | ok a =>
    refine Pool.Serial.pure fun _ h => ?_
    simpa only [hr] using h
  | error err =>
    refine Pool.Serial.pure fun _ h => ?_
    simpa only [hr] using h

/-- A mark. -/
theorem Serial.mark {m : Mark} {Q : Unit → History C → Prop}
    (hop : Operation B I A tid call P (.ext (.mark m)) fun _ => Q ()) :
    Serial body B I A tid call P (Code.mark m) Q E :=
  Pool.Serial.perform (S := system body) (M := fun _ => Q ()) hop fun _ =>
    Pool.Serial.pure fun _ h => h

/-- What code does, as a value. -/
theorem Serial.attempt {x : Code α} {Q : α → History C → Prop} {E' : Raised → History C → Prop}
    (hx : Serial body B I A tid call P x Q E') :
    Serial body B I A tid call P (Code.attempt x)
      (fun r => match r with
        | .ok a => Q a
        | .error e => E' e) E := by
  refine Pool.Serial.bind hx ?_
  rintro (e | a)
  · exact Pool.Serial.pure fun _ h => h
  · exact Pool.Serial.pure fun _ h => h

/-- `try: … finally: …`: what is returned or raised is, after the last part, what it was. -/
theorem Serial.finally_ {x : Code α} {last : Code Unit} {Q Q' : α → History C → Prop}
    {E E' : Raised → History C → Prop} (hx : Serial body B I A tid call P x Q E)
    (hok : ∀ a, Serial body B I A tid call (Q a) last (fun _ => Q' a) E')
    (herror : ∀ e, Serial body B I A tid call (E e) last (fun _ => E' e) E') :
    Serial body B I A tid call P (Code.finally_ x last) Q' E' := by
  refine Pool.Serial.bind hx ?_
  intro r
  cases r with
  | error e =>
    refine Pool.Serial.bind (herror e) ?_
    rintro (_ | ⟨⟩)
    · exact Pool.Serial.pure fun _ h => h
    · exact Pool.Serial.pure fun _ h => h
  | ok a =>
    refine Pool.Serial.bind (hok a) ?_
    rintro (_ | ⟨⟩)
    · exact Pool.Serial.pure fun _ h => h
    · exact Pool.Serial.pure fun _ h => h

theorem Serial.ite {p : Prop} [Decidable p] {x y : Code α} {Q : α → History C → Prop}
    (hx : p → Serial body B I A tid call P x Q E) (hy : ¬ p → Serial body B I A tid call P y Q E) :
    Serial body B I A tid call P (if p then x else y) Q E :=
  iteInduction (motive := fun z => Serial body B I A tid call P z Q E) hx hy

/-- What every operation of the code keeps. -/
theorem Serial.invariant {φ : Op → Prop} {x : Code α} (hx : Only φ x)
    (hop : ∀ o, φ o → Operation B I A tid call P o fun _ => P) :
    Serial body B I A tid call P x (fun _ => P) fun _ => P := by
  refine Pool.Serial.mono (fun _ h => h) ?_ (Pool.Serial.invariant hx hop)
  intro r h hr
  cases r with
  | ok a => exact hr.2
  | error e => exact hr.2

end Code

/-! ## Section 2: Code of one attempt -/

namespace AttemptM

variable {C α β : Type} {ρ : C → Type} {body : Nat → (call : C) → Prog Op Op.Reply (ρ call)}
  {B : Background (MemorySteps Record) C Op.Reply} {I : Code.History C → Prop}
  {A : Code.History C → Code.Event C → Prop} {tid : Nat} {call : C}
  {P : AttemptState → Code.History C → Prop} {E : Raised → AttemptState → Code.History C → Prop}

/-- `Code.Serial`, with assertions about the fields as well. -/
def Serial (body : Nat → (call : C) → Prog Op Op.Reply (ρ call))
    (B : Background (MemorySteps Record) C Op.Reply) (I : Code.History C → Prop)
    (A : Code.History C → Code.Event C → Prop) (tid : Nat) (call : C)
    (P : AttemptState → Code.History C → Prop) (x : AttemptM α)
    (Q : α → AttemptState → Code.History C → Prop)
    (E : Raised → AttemptState → Code.History C → Prop) : Prop :=
  ∀ st, Code.Serial body B I A tid call (P st) (x.settled st) (ended Q E) fun _ _ => False

theorem Serial.pure {a : α} {Q : α → AttemptState → Code.History C → Prop}
    (h : ∀ st h, P st h → Q a st h) :
    Serial body B I A tid call P (Pure.pure a : AttemptM α) Q E :=
  fun st => Code.Serial.pure (h st)

theorem Serial.throw {e : Raised} {Q : α → AttemptState → Code.History C → Prop}
    (h : ∀ st h, P st h → E e st h) : Serial body B I A tid call P (throw e : AttemptM α) Q E :=
  fun st => Code.Serial.pure (h st)

theorem Serial.mono {P' : AttemptState → Code.History C → Prop} {x : AttemptM α}
    {Q Q' : α → AttemptState → Code.History C → Prop}
    {E' : Raised → AttemptState → Code.History C → Prop} (hx : Serial body B I A tid call P x Q E)
    (hP : ∀ st h, P' st h → P st h) (hQ : ∀ a st h, Q a st h → Q' a st h)
    (hE : ∀ e st h, E e st h → E' e st h) : Serial body B I A tid call P' x Q' E' :=
  fun st => (hx st).mono (hP st) (forall_ended hQ hE) fun _ _ h => h

theorem Serial.pre {P' : AttemptState → Code.History C → Prop} {x : AttemptM α}
    {Q : α → AttemptState → Code.History C → Prop} (hx : Serial body B I A tid call P x Q E)
    (hP : ∀ st h, P' st h → P st h) : Serial body B I A tid call P' x Q E :=
  hx.mono hP (fun _ _ _ h => h) fun _ _ _ h => h

theorem Serial.bind {x : AttemptM α} {f : α → AttemptM β}
    {Q : α → AttemptState → Code.History C → Prop} {Q' : β → AttemptState → Code.History C → Prop}
    (hx : Serial body B I A tid call P x Q E)
    (hf : ∀ a, Serial body B I A tid call (Q a) (f a) Q' E) :
    Serial body B I A tid call P (x >>= f) Q' E := by
  intro st
  rw [settled_bind]
  refine (hx st).bind (forall_ended ?_ ?_)
  · exact fun a st' => hf a st'
  · exact fun e st' => Code.Serial.pure fun _ h => h

theorem Serial.code {x : Code α} {Q : α → AttemptState → Code.History C → Prop}
    (hx : ∀ st, Code.Serial body B I A tid call (P st) x (fun a => Q a st) fun e => E e st) :
    Serial body B I A tid call P (AttemptM.code x) Q E := by
  intro st
  rw [settled_code]
  refine (hx st).attempt.bind ?_
  rintro (e | a)
  · exact Code.Serial.pure fun _ h => h
  · exact Code.Serial.pure fun _ h => h

theorem Serial.state : Serial body B I A tid call P AttemptM.state
    (fun a st h => a = st ∧ P st h) E :=
  fun _ => Code.Serial.pure fun _ h => ⟨rfl, h⟩

theorem Serial.update {f : AttemptState → AttemptState}
    {Q : Unit → AttemptState → Code.History C → Prop} (h : ∀ st h, P st h → Q () (f st) h) :
    Serial body B I A tid call P (AttemptM.update f) Q E :=
  fun st => Code.Serial.pure (h st)

theorem Serial.attempt {x : AttemptM α} {Q : α → AttemptState → Code.History C → Prop}
    {E' : Raised → AttemptState → Code.History C → Prop}
    (hx : Serial body B I A tid call P x Q E') :
    Serial body B I A tid call P (AttemptM.attempt x)
      (fun r st => match r with
        | .ok a => Q a st
        | .error e => E' e st) E := by
  intro st
  rw [settled_attempt]
  refine (hx st).bind (forall_ended ?_ ?_)
  · exact fun a st' => Code.Serial.pure fun _ h => h
  · exact fun e st' => Code.Serial.pure fun _ h => h

theorem Serial.ite {p : Prop} [Decidable p] {x y : AttemptM α}
    {Q : α → AttemptState → Code.History C → Prop}
    (hx : p → Serial body B I A tid call P x Q E) (hy : ¬ p → Serial body B I A tid call P y Q E) :
    Serial body B I A tid call P (if p then x else y) Q E :=
  iteInduction (motive := fun z => Serial body B I A tid call P z Q E) hx hy

/-- What every operation keeps, whatever becomes of the fields. -/
theorem Serial.invariant {φ : Op → Prop} {P : Code.History C → Prop} {x : AttemptM α}
    (hx : Only φ x) (hop : ∀ o, φ o → Code.Operation B I A tid call P o fun _ => P) :
    Serial body B I A tid call (fun _ => P) x (fun _ _ => P) fun _ _ => P := by
  refine fun st => Pool.Serial.bind (Pool.Serial.invariant (hx st) hop) (forall_ended ?_ ?_)
  · exact fun a st' => Pool.Serial.pure fun _ h => h.2
  · exact fun e st' => Pool.Serial.pure fun _ h => h.2

end AttemptM

end Semora
