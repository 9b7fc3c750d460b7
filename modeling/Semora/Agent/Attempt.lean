import Semora.Agent.Triples

/-! # Code of One Attempt

    What `ExecutionBoundary`, its `PolicyRunner` and its input session keep in
    their own fields, and code that reads and writes it. A write made before
    an exception stays: nothing rolls an object back. -/

namespace Semora

open Pool

/-- The fields one attempt writes. -/
structure AttemptState where
  /-- `PolicyRunner.calls_made`. -/
  callsMade : List CallEntry := []
  /-- `PolicyRunner._approval_tools`. -/
  approvalTools : List String := []
  /-- `PolicyRunner._suspended_this_round`. -/
  suspendedThisRound : Bool := false
  /-- `ExecutionBoundary.stop_reason`. -/
  stopReason : Option StopReason := none
  /-- `ExecutionBoundary.turn`. -/
  turn : Nat := 0
  /-- `ExecutionBoundary._prefetched`. -/
  prefetched : List PendingInput := []
  /-- `_InputSession._seen`. -/
  seen : List String := []

/-- Code of an attempt. -/
abbrev AttemptM (α : Type) := ExceptT Raised (StateT AttemptState (Prog Op Op.Reply)) α

namespace AttemptM

variable {α β : Type}

/-- The code with the fields it starts from. -/
def runFrom (x : AttemptM α) (st : AttemptState) :
    Prog Op Op.Reply (Except Raised α × AttemptState) :=
  x.run.run st

/-- Code that touches no field. -/
def code (x : Code α) : AttemptM α :=
  ExceptT.mk fun st => x.run >>= fun r => .pure (r, st)

/-- Read the fields. -/
def state : AttemptM AttemptState := ExceptT.mk fun st => .pure (.ok st, st)

/-- Write them. -/
def update (f : AttemptState → AttemptState) : AttemptM Unit :=
  ExceptT.mk fun st => .pure (.ok (), f st)

def ask (e : External) (h : e.Reply = Except Raised α := by rfl) : AttemptM α :=
  code (Code.ask e h)

def mark (m : Mark) : AttemptM Unit := code (Code.mark m)

/-- What code does, as a value. -/
def attempt (x : AttemptM α) : AttemptM (Except Raised α) :=
  ExceptT.mk fun st => x.runFrom st >>= fun r => .pure (.ok r.1, r.2)

theorem bind_runFrom (x : AttemptM α) (f : α → AttemptM β) (st : AttemptState) :
    (x >>= f).runFrom st = x.runFrom st >>= fun r =>
      match r.1 with
      | .ok a => (f a).runFrom r.2
      | .error e => .pure (.error e, r.2) := by
  refine congrArg (x.runFrom st >>= ·) (funext fun r => ?_)
  obtain ⟨_ | _, _⟩ := r <;> rfl

/-! ## Code of an attempt as code

    From given fields on, code of an attempt is code that raises nothing: what it raises is its
    result, with the fields as they are then. The rules for it come from the rules for code. -/

/-- The code from these fields on. -/
def settled (x : AttemptM α) (st : AttemptState) : Code (Except Raised α × AttemptState) :=
  ExceptT.mk (x.runFrom st >>= fun r => .pure (.ok r))

/-- What follows from how the code has ended: `Q` when it has returned, `E` when it has raised. -/
def ended {π : Sort*} (Q : α → AttemptState → π) (E : Raised → AttemptState → π)
    (r : Except Raised α × AttemptState) : π :=
  match r.1 with
  | .ok a => Q a r.2
  | .error e => E e r.2

theorem forall_ended {R : Except Raised α × AttemptState → Prop}
    (hok : ∀ a st, R (.ok a, st)) (herror : ∀ e st, R (.error e, st)) : ∀ r, R r
  | (.ok a, st) => hok a st
  | (.error e, st) => herror e st

@[simp] theorem settled_pure (a : α) (st : AttemptState) :
    (pure a : AttemptM α).settled st = pure (.ok a, st) := rfl

@[simp] theorem settled_throw (e : Raised) (st : AttemptState) :
    (throw e : AttemptM α).settled st = pure (.error e, st) := rfl

@[simp] theorem settled_state (st : AttemptState) :
    state.settled st = pure (.ok st, st) := rfl

@[simp] theorem settled_update (f : AttemptState → AttemptState) (st : AttemptState) :
    (update f).settled st = pure (.ok (), f st) := rfl

/-- What follows code is run with the fields that it leaves. -/
theorem settled_bind (x : AttemptM α) (f : α → AttemptM β) (st : AttemptState) :
    (x >>= f).settled st = x.settled st >>=
      ended (fun a => (f a).settled) fun e st => pure (.error e, st) := by
  refine congrArg ExceptT.mk ?_
  rw [bind_runFrom]
  show (x.runFrom st >>= _) >>= _ = (x.runFrom st >>= _) >>= ExceptT.bindCont _
  rw [Prog.bind_assoc, Prog.bind_assoc]
  refine congrArg (x.runFrom st >>= ·) (funext (forall_ended (fun _ _ => rfl) fun _ _ => rfl))

theorem settled_code (x : Code α) (st : AttemptState) :
    (code x).settled st = Code.attempt x >>= fun r => pure (r, st) := by
  refine congrArg ExceptT.mk ?_
  show (x.run >>= _) >>= _ = (x.run >>= _) >>= ExceptT.bindCont _
  rw [Prog.bind_assoc, Prog.bind_assoc]
  rfl

theorem settled_attempt (x : AttemptM α) (st : AttemptState) :
    (attempt x).settled st = x.settled st >>= fun r => pure (.ok r.1, r.2) := by
  refine congrArg ExceptT.mk ?_
  show (x.runFrom st >>= _) >>= _ = (x.runFrom st >>= _) >>= ExceptT.bindCont _
  rw [Prog.bind_assoc, Prog.bind_assoc]
  rfl

/-- A run of which only the operations count. -/
theorem runFrom_discard (x : AttemptM α) (st : AttemptState) :
    x.runFrom st >>= (fun _ => Prog.pure ()) = (x.settled st).run >>= fun _ => Prog.pure () := by
  show _ = (x.runFrom st >>= _) >>= _
  rw [Prog.bind_assoc]
  rfl

/-- What a run comes to: what was raised at any point is raised. -/
def returned : Except Raised (Except Raised α) × AttemptState → Code (α × AttemptState)
  | (.ok (.ok a), st) => pure (a, st)
  | (.ok (.error e), _) => throw e
  | (.error e, _) => throw e

/-! ## Rules -/

section rules

variable {C : Type} {ρ : C → Type}

/-- `Code.Triple`, with assertions about the fields as well. -/
def Triple (body : Nat → (call : C) → Prog Op Op.Reply (ρ call))
    (K : Contract (MemorySteps Record) Env C Op.Reply) (tid : Nat) (call : C)
    (P : AttemptState → Code.History C → Prop) (x : AttemptM α)
    (Q : α → AttemptState → Code.History C → Prop)
    (E : Raised → AttemptState → Code.History C → Prop) : Prop :=
  ∀ st, Code.Triple body K tid call (P st) (x.settled st) (ended Q E) fun _ _ => False

variable {body : Nat → (call : C) → Prog Op Op.Reply (ρ call)}
  {K : Contract (MemorySteps Record) Env C Op.Reply} {tid : Nat} {call : C}
  {P : AttemptState → Code.History C → Prop} {E : Raised → AttemptState → Code.History C → Prop}

theorem Triple.pure {a : α} {Q : α → AttemptState → Code.History C → Prop}
    (hP : ∀ st, Stable K tid (P st)) (h : ∀ st h, K.inv h → P st h → Q a st h) :
    Triple body K tid call P (Pure.pure a : AttemptM α) Q E :=
  fun st => Code.Triple.pure (hP st) (h st)

theorem Triple.throw {e : Raised} {Q : α → AttemptState → Code.History C → Prop}
    (hP : ∀ st, Stable K tid (P st)) (h : ∀ st h, K.inv h → P st h → E e st h) :
    Triple body K tid call P (throw e : AttemptM α) Q E :=
  fun st => Code.Triple.pure (hP st) (h st)

theorem Triple.mono {P' : AttemptState → Code.History C → Prop} {x : AttemptM α}
    {Q Q' : α → AttemptState → Code.History C → Prop}
    {E' : Raised → AttemptState → Code.History C → Prop} (hx : Triple body K tid call P x Q E)
    (hP : ∀ st h, K.inv h → P' st h → P st h) (hQ : ∀ a st h, K.inv h → Q a st h → Q' a st h)
    (hE : ∀ e st h, K.inv h → E e st h → E' e st h) : Triple body K tid call P' x Q' E' :=
  fun st => (hx st).mono (hP st) (forall_ended hQ hE) fun _ _ _ h => h

theorem Triple.pre {P' : AttemptState → Code.History C → Prop} {x : AttemptM α}
    {Q : α → AttemptState → Code.History C → Prop} (hx : Triple body K tid call P x Q E)
    (hP : ∀ st h, K.inv h → P' st h → P st h) : Triple body K tid call P' x Q E :=
  hx.mono hP (fun _ _ _ _ h => h) fun _ _ _ _ h => h

theorem Triple.bind {x : AttemptM α} {f : α → AttemptM β}
    {Q : α → AttemptState → Code.History C → Prop} {Q' : β → AttemptState → Code.History C → Prop}
    (hE : ∀ e st, Stable K tid (E e st)) (hx : Triple body K tid call P x Q E)
    (hf : ∀ a, Triple body K tid call (Q a) (f a) Q' E) :
    Triple body K tid call P (x >>= f) Q' E := by
  intro st
  rw [settled_bind]
  refine Code.Triple.bind (fun _ => stable_const) (hx st) (forall_ended ?_ ?_)
  · exact fun a st' => hf a st'
  · exact fun e st' => Code.Triple.pure (hE e st') fun _ _ h => h

theorem Triple.code {x : Code α} {Q : α → AttemptState → Code.History C → Prop}
    (hx : ∀ st, Code.Triple body K tid call (P st) x (fun a => Q a st) fun e => E e st)
    (hQ : ∀ a st, Stable K tid (Q a st)) (hE : ∀ e st, Stable K tid (E e st)) :
    Triple body K tid call P (AttemptM.code x) Q E := by
  intro st
  rw [settled_code]
  refine Code.Triple.bind (fun _ => stable_const)
    ((hx st).attempt (fun a => hQ a st) fun e => hE e st) ?_
  rintro (e | a)
  · exact Code.Triple.pure (hE e st) fun _ _ h => h
  · exact Code.Triple.pure (hQ a st) fun _ _ h => h

theorem Triple.state (hP : ∀ st, Stable K tid (P st)) :
    Triple body K tid call P AttemptM.state (fun a st h => a = st ∧ P st h) E :=
  fun st => Code.Triple.pure (hP st) fun _ _ h => ⟨rfl, h⟩

theorem Triple.update {f : AttemptState → AttemptState}
    {Q : Unit → AttemptState → Code.History C → Prop} (hP : ∀ st, Stable K tid (P st))
    (h : ∀ st h, K.inv h → P st h → Q () (f st) h) :
    Triple body K tid call P (AttemptM.update f) Q E :=
  fun st => Code.Triple.pure (hP st) (h st)

theorem Triple.attempt {x : AttemptM α} {Q : α → AttemptState → Code.History C → Prop}
    {E' : Raised → AttemptState → Code.History C → Prop} (hx : Triple body K tid call P x Q E')
    (hQ : ∀ a st, Stable K tid (Q a st)) (hE : ∀ e st, Stable K tid (E' e st)) :
    Triple body K tid call P (AttemptM.attempt x)
      (fun r st => match r with
        | .ok a => Q a st
        | .error e => E' e st) E := by
  intro st
  rw [settled_attempt]
  refine Code.Triple.bind (fun _ => stable_const) (hx st) (forall_ended ?_ ?_)
  · exact fun a st' => Code.Triple.pure (hQ a st') fun _ _ h => h
  · exact fun e st' => Code.Triple.pure (hE e st') fun _ _ h => h

end rules

/-! ## What the code can do -/

section only

variable {φ : Op → Prop}

/-- Every operation the code can perform satisfies `φ`. -/
def Only (φ : Op → Prop) (x : AttemptM α) : Prop := ∀ st, (x.runFrom st).All φ

theorem only_pure (a : α) : Only φ (Pure.pure a : AttemptM α) := fun _ => trivial

theorem only_throw (e : Raised) : Only φ (throw e : AttemptM α) := fun _ => trivial

theorem Only.bind {x : AttemptM α} {f : α → AttemptM β} (hx : Only φ x)
    (hf : ∀ a, Only φ (f a)) : Only φ (x >>= f) := by
  intro st
  rw [bind_runFrom]
  refine Prog.All.bind (hx st) ?_
  rintro ⟨e | a, st'⟩
  · exact trivial
  · exact hf a st'

theorem only_code {x : Code α} (hx : Code.Only φ x) : Only φ (code x) :=
  fun _ => Prog.All.bind hx fun _ => trivial

theorem only_state : Only φ state := fun _ => trivial

theorem only_update (f : AttemptState → AttemptState) : Only φ (update f) := fun _ => trivial

theorem Only.attempt {x : AttemptM α} (hx : Only φ x) : Only φ (AttemptM.attempt x) :=
  fun st => Prog.All.bind (hx st) fun _ => trivial

theorem Only.ite {p : Prop} [Decidable p] {x y : AttemptM α} (hx : p → Only φ x)
    (hy : ¬ p → Only φ y) : Only φ (if p then x else y) :=
  iteInduction hx hy

/-- What every operation keeps, whatever becomes of the fields. -/
theorem Triple.invariant {C : Type} {ρ : C → Type}
    {body : Nat → (call : C) → Prog Op Op.Reply (ρ call)}
    {K : Contract (MemorySteps Record) Env C Op.Reply} {tid : Nat} {call : C}
    {P : Code.History C → Prop} {x : AttemptM α} (hx : Only φ x) (hP : Stable K tid P)
    (hop : ∀ o, φ o → ∀ h x, K.inv h → P h → K.ok tid call h o x →
      K.guar tid call h o ((Code.system body).perform h tid call x o).1
        ((Code.system body).perform h tid call x o).2 ∧
      P ((Code.system body).perform h tid call x o).2) :
    Triple body K tid call (fun _ => P) x (fun _ _ => P) fun _ _ => P := by
  refine fun st => Pool.Triple.bind (Pool.Triple.invariant (hx st) hP hop) (forall_ended ?_ ?_)
  · exact fun a st' => Pool.Triple.pure (stable_const.and hP) fun _ _ h => h.2
  · exact fun e st' => Pool.Triple.pure (stable_const.and hP) fun _ _ h => h.2

end only

/-! ## What the code leaves of its fields -/

section frames

variable {γ : Type} {f : AttemptState → γ}

/-- The code leaves `f` of the fields as it is, whatever it is answered. -/
def Frames (f : AttemptState → γ) (x : AttemptM α) : Prop :=
  ∀ st, (x.runFrom st).Ensures (fun _ => True) fun r => f r.2 = f st

theorem frames_pure (a : α) : Frames f (Pure.pure a : AttemptM α) := fun _ => rfl

theorem frames_throw (e : Raised) : Frames f (throw e : AttemptM α) := fun _ => rfl

theorem Frames.bind {x : AttemptM α} {g : α → AttemptM β} (hx : Frames f x)
    (hg : ∀ a, Frames f (g a)) : Frames f (x >>= g) := by
  intro st
  rw [bind_runFrom]
  refine Prog.Ensures.bind (hx st) ?_
  rintro ⟨e | a, st'⟩ hsame
  · exact hsame
  · exact Prog.Ensures.mono (fun _ h => h) (fun _ h => h.trans hsame) (hg a st')

theorem frames_code (x : Code α) : Frames f (code x) :=
  fun _ => Prog.Ensures.bind (Prog.all_of_forall (fun _ => trivial) _) fun _ _ => rfl

theorem frames_state : Frames f state := fun _ => rfl

theorem frames_update {g : AttemptState → AttemptState} (h : ∀ st, f (g st) = f st) :
    Frames f (update g) := h

theorem Frames.ite {p : Prop} [Decidable p] {x y : AttemptM α} (hx : Frames f x)
    (hy : Frames f y) : Frames f (if p then x else y) :=
  iteInduction (fun _ => hx) fun _ => hy

end frames

end AttemptM

end Semora
