import Semora.Framework.Erasure
import Semora.Agent.Finalizations
import Semora.Agent.Storeless

/-! # What Is Done for the First Time

    A ledger is there for the second time. As long as it holds nothing of what
    a run asks it for, a run with a ledger does what a run without one does:
    it asks the model, the tools, the controls and the transcript the same,
    in the same order, and comes to the same end. -/

namespace Semora

open Prog (Erases Runs Exchange)

/-! ## Section 1: A ledger that holds nothing -/

/-- The operations that make the difference, and the marks, which do nothing. -/
def forgone : Op → Bool
  | .ledger _ => true
  | .ext (.mark _) => true
  | .ext _ => false

/-- A step of which nothing is recorded. -/
def Step.unmade (step : Step Record) : Bool := step.status = .absent ∨ step.status = .ready

/-- Nothing is parked: nothing ever was, or what was is completed. -/
def Step.unparked (step : Step Record) : Bool :=
  match step.value with
  | some (.completed ..) => true
  | _ => step.status ≠ .done

/-- No queued input is left to deliver. -/
def delivered (records : List (InputRecord Record)) : Bool :=
  records.all fun record => record.status = .discarded ∨ record.status = .admitted

/-- The lease is taken. -/
def leased (token : Int) : Bool := token ≠ 0

/-- What a call returns that finds nothing recorded. -/
def unfound : (op : LedgerOp Record) → op.Reply → Bool
  | .read _ key, step => if key = activeSuspension then step.unparked else step.unmade
  | .start .., started => started
  | .acquire .., token => leased token
  | .enqueueInput .., inserted => inserted
  | .listInputs _, records => delivered records
  | _, _ => true

/-- The call does not raise, and finds nothing recorded. -/
def unrecorded : (o : Op) → o.Reply → Bool
  | .ledger _, .error _ => false
  | .ledger op, .ok r => unfound op r
  | .ext _, _ => true

/-- An operation is answered by a ledger that holds nothing. -/
abbrev Unrecorded (o : Op) (r : o.Reply) : Prop := unrecorded o r = true

theorem status_of_unfound {b key : String} {step : Step Record} (hkey : key ≠ activeSuspension)
    (h : unfound (.read b key) step = true) : step.status = .absent ∨ step.status = .ready := by
  have hread : (if key = activeSuspension then step.unparked else step.unmade) = true := h
  rw [if_neg hkey] at hread
  exact of_decide_eq_true hread

/-! ## Section 2: Code that does the same -/

/-- The results are related, or the errors are the same. -/
def SameResult {α β : Type} (R : α → β → Prop) : Except Raised α → Except Raised β → Prop
  | .ok a, .ok b => R a b
  | .error e, .error e' => e = e'
  | _, _ => False

theorem sameResult_eq {α : Type} (r : Except Raised α) : SameResult Eq r r := by
  cases r <;> rfl

theorem SameResult.eq {α : Type} {r r' : Except Raised α} (h : SameResult Eq r r') : r = r' := by
  cases r with
  | error e =>
    cases r' with
    | error e' => exact congrArg _ h
    | ok _ => exact h.elim
  | ok a =>
    cases r' with
    | error e' => exact h.elim
    | ok b => exact congrArg _ h

namespace Code

variable {α β α' β' : Type} {R : α → β → Prop} {R' : α' → β' → Prop}

/-- With nothing recorded, the first code does what the second does. -/
def Firstly (R : α → β → Prop) (x : Code α) (y : Code β) : Prop :=
  Erases forgone Unrecorded (SameResult R) x.run y.run

theorem firstly_refl (x : Code α) : Firstly Eq x x := Erases.refl sameResult_eq x.run

theorem firstly_pure {a : α} {b : β} (h : R a b) : Firstly R (pure a) (pure b) := Erases.pure h

theorem firstly_throw (e : Raised) : Firstly R (throw e) (throw e) :=
  Erases.pure (show SameResult R (.error e) (.error e) from rfl)

theorem Firstly.bind {x : Code α} {y : Code β} {f : α → Code α'} {g : β → Code β'}
    (h : Firstly R x y) (hfg : ∀ a b, R a b → Firstly R' (f a) (g b)) :
    Firstly R' (x >>= f) (y >>= g) := by
  refine Erases.bind h fun r r' hr => ?_
  cases r with
  | error e =>
    cases r' with
    | error e' => exact Erases.pure (show e = e' from hr)
    | ok _ => exact hr.elim
  | ok a =>
    cases r' with
    | error e' => exact hr.elim
    | ok b => exact hfg a b hr

theorem Firstly.mono {R₁ : α → β → Prop} {x : Code α} {y : Code β} (h : Firstly R x y)
    (hR : ∀ a b, R a b → R₁ a b) : Firstly R₁ x y := by
  have hbind : Firstly R₁ (x >>= pure) (y >>= pure) := h.bind fun a b hab =>
    firstly_pure (hR a b hab)
  rwa [bind_pure, bind_pure] at hbind

theorem Firstly.bind_eq {x y : Code α} {f : α → Code α'} {g : α → Code β'} (h : Firstly Eq x y)
    (hfg : ∀ a, Firstly R' (f a) (g a)) : Firstly R' (x >>= f) (y >>= g) :=
  h.bind fun a _ hab => hab ▸ hfg a

/-- With nothing recorded, the code is as good as not run: it returns what `P` says. -/
def Passes (P : α → Prop) (x : Code α) : Prop :=
  Erases forgone Unrecorded (fun r _ => ∃ a, r = .ok a ∧ P a) x.run (.pure ())

theorem passes_pure {P : α → Prop} {a : α} (h : P a) : Passes P (pure a) :=
  Erases.pure ⟨a, rfl, h⟩

theorem passes_ledger (op : LedgerOp Record) :
    Passes (fun r => unfound op r = true) (ledger op) := by
  refine Erases.left rfl fun r hr => ?_
  cases r with
  | error e => cases hr
  | ok r => exact Erases.pure ⟨r, rfl, hr⟩

theorem passes_mark (m : Mark) : Passes (fun _ => True) (mark m) :=
  Erases.left rfl fun _ _ => Erases.pure ⟨(), rfl, trivial⟩

theorem Passes.bind {P : α → Prop} {P' : α' → Prop} {x : Code α} {f : α → Code α'}
    (hx : Passes P x) (hf : ∀ a, P a → Passes P' (f a)) : Passes P' (x >>= f) := by
  refine Erases.bind (g := fun _ => Prog.pure ()) hx ?_
  rintro r _ ⟨a, rfl, ha⟩
  exact hf a ha

theorem Passes.mono {P P' : α → Prop} {x : Code α} (hx : Passes P x) (h : ∀ a, P a → P' a) :
    Passes P' x := by
  have hbind : Passes P' (x >>= pure) := hx.bind fun a ha => passes_pure (h a ha)
  rwa [bind_pure] at hbind

theorem Passes.attempt {P : α → Prop} {x : Code α} (hx : Passes P x) :
    Passes (fun r => ∃ a, r = .ok a ∧ P a) (Code.attempt x) :=
  Erases.bind (g := fun _ => Prog.pure ()) hx fun r _ hr => Erases.pure ⟨r, rfl, hr⟩

theorem Passes.then {P : α → Prop} {x : Code α} {f : α → Code α'} {y : Code β'}
    (hx : Passes P x) (hf : ∀ a, P a → Firstly R' (f a) y) : Firstly R' (x >>= f) y := by
  refine Erases.bind (g := fun _ => y.run) hx ?_
  rintro r _ ⟨a, rfl, ha⟩
  exact hf a ha

theorem Firstly.finally_ {x : Code α} {y : Code β} {last : Code Unit} (h : Firstly R x y)
    (hlast : Passes (fun _ => True) last) : Firstly R (Code.finally_ x last) y := by
  have hbind : Erases forgone Unrecorded (SameResult R) (Code.finally_ x last).run
      (y.run >>= Prog.pure) := by
    refine Erases.bind h fun r r' hr => ?_
    refine Erases.bind (g := fun _ => Prog.pure r') hlast ?_
    rintro r'' _ ⟨_, rfl, -⟩
    exact Erases.pure hr
  rwa [Prog.bind_pure] at hbind

/-- What the first code does besides, once it has its result. -/
theorem Firstly.after {R' : α' → β → Prop} {x : Code α} {y : Code β} {f : α → Code α'}
    (h : Firstly R x y) (hf : ∀ a b, R a b → Firstly R' (f a) (pure b)) :
    Firstly R' (x >>= f) y := by
  have hbind : Firstly R' (x >>= f) (y >>= pure) := h.bind hf
  rwa [bind_pure] at hbind

theorem Firstly.catch_ {x : Code α} {y : Code β} {f : Raised → Code α} (h : Firstly R x y)
    (hf : ∀ e, Firstly R (f e) (throw e)) : Firstly R (Code.catch_ x f) y := by
  have hbind : Erases forgone Unrecorded (SameResult R) (Code.catch_ x f).run
      (y.run >>= Prog.pure) := by
    refine Erases.bind h fun r r' hr => ?_
    cases r with
    | error e =>
      cases r' with
      | error e' =>
        obtain rfl : e = e' := hr
        exact hf e
      | ok _ => exact hr.elim
    | ok a =>
      cases r' with
      | error e' => exact hr.elim
      | ok b => exact Erases.pure hr
  rwa [Prog.bind_pure] at hbind

theorem Firstly.attempt {x : Code α} {y : Code β} (h : Firstly R x y) :
    Firstly (SameResult R) (Code.attempt x) (Code.attempt y) :=
  Erases.bind h fun _ _ hr => Erases.pure hr

theorem Firstly.ite {p : Prop} [Decidable p] {x x' : Code α} {y y' : Code β}
    (h : p → Firstly R x y) (h' : ¬ p → Firstly R x' y') :
    Firstly R (if p then x else x') (if p then y else y') := by
  by_cases hp : p
  · rw [if_pos hp, if_pos hp]
    exact h hp
  · rw [if_neg hp, if_neg hp]
    exact h' hp

/-- What a run comes to that finds nothing recorded. -/
theorem Firstly.unrecorded {α : Type} {x y : Code α} (h : Firstly Eq x y)
    {done : List (Exchange Op.Reply)} {r : Except Raised α} (hrun : Runs x.run done r)
    (hunrecorded : ∀ x ∈ done, forgone x.1 = true → Unrecorded x.1 x.2) :
    ∃ done', Runs y.run done' r ∧ Erases.kept forgone done' = Erases.kept forgone done := by
  obtain ⟨done', r', hrun', hsame, hkept⟩ := Erases.runs h hrun hunrecorded
  rw [hsame.eq]
  exact ⟨done', hrun', hkept⟩

end Code

namespace AttemptM

variable {α β α' β' : Type} {R : α → β → Prop} {R' : α' → β' → Prop}

/-- The results are the same, and so are the fields. -/
def SameEnd (R : α → β → Prop) (r : Except Raised α × AttemptState)
    (r' : Except Raised β × AttemptState) : Prop :=
  SameResult R r.1 r'.1 ∧ r.2 = r'.2

/-- The same, of code that leaves the fields of the attempt alike. -/
def Firstly (R : α → β → Prop) (x : AttemptM α) (y : AttemptM β) : Prop :=
  ∀ st, Code.Firstly (SameEnd R) (x.settled st) (y.settled st)

/-- With nothing recorded, the code is as good as not run, and leaves the fields as they are. -/
def Passes (P : α → Prop) (x : AttemptM α) : Prop :=
  ∀ st, Code.Passes (fun r => ∃ a, r = (.ok a, st) ∧ P a) (x.settled st)

/-- What follows the one follows the other, from the same fields. -/
theorem SameEnd.then {r : Except Raised α × AttemptState} {r' : Except Raised β × AttemptState}
    (h : SameEnd R r r') {f : α → AttemptM α'} {g : β → AttemptM β'}
    (hfg : ∀ a b, R a b → Firstly R' (f a) (g b)) :
    Code.Firstly (SameEnd R') (ended (fun a => (f a).settled) (fun e st => pure (.error e, st)) r)
      (ended (fun b => (g b).settled) (fun e st => pure (.error e, st)) r') := by
  obtain ⟨r, st⟩ := r
  obtain ⟨r', st'⟩ := r'
  obtain ⟨hr, hst⟩ := h
  obtain rfl : st = st' := hst
  cases r with
  | error e =>
    cases r' with
    | error e' => exact Code.firstly_pure ⟨hr, rfl⟩
    | ok _ => exact (show False from hr).elim
  | ok a =>
    cases r' with
    | error e' => exact (show False from hr).elim
    | ok b => exact hfg a b hr st

theorem firstly_refl (x : AttemptM α) : Firstly Eq x x :=
  fun st => (Code.firstly_refl (x.settled st)).mono fun r _ h => h ▸ ⟨sameResult_eq r.1, rfl⟩

theorem firstly_pure {a : α} {b : β} (h : R a b) :
    Firstly R (pure a : AttemptM α) (pure b : AttemptM β) := fun _ => Code.firstly_pure ⟨h, rfl⟩

theorem Firstly.bind {x : AttemptM α} {y : AttemptM β} {f : α → AttemptM α'} {g : β → AttemptM β'}
    (h : Firstly R x y) (hfg : ∀ a b, R a b → Firstly R' (f a) (g b)) :
    Firstly R' (x >>= f) (y >>= g) := by
  intro st
  rw [settled_bind, settled_bind]
  exact (h st).bind fun _ _ hr => hr.then hfg

theorem Firstly.bind_eq {x y : AttemptM α} {f : α → AttemptM α'} {g : α → AttemptM β'}
    (h : Firstly Eq x y) (hfg : ∀ a, Firstly R' (f a) (g a)) : Firstly R' (x >>= f) (y >>= g) :=
  h.bind fun a _ hab => hab ▸ hfg a

theorem Firstly.code {x : Code α} {y : Code β} (h : Code.Firstly R x y) :
    Firstly R (AttemptM.code x) (AttemptM.code y) := by
  intro st
  rw [settled_code, settled_code]
  exact h.attempt.bind fun _ _ hr => Code.firstly_pure ⟨hr, rfl⟩

theorem passes_pure {P : α → Prop} {a : α} (h : P a) : Passes P (pure a : AttemptM α) :=
  fun _ => Code.passes_pure ⟨a, rfl, h⟩

theorem passes_state : Passes (fun _ => True) state :=
  fun st => Code.passes_pure ⟨st, rfl, trivial⟩

theorem Passes.code {P : α → Prop} {x : Code α} (hx : Code.Passes P x) :
    Passes P (AttemptM.code x) := by
  intro st
  rw [settled_code]
  refine hx.attempt.bind ?_
  rintro _ ⟨a, rfl, ha⟩
  exact Code.passes_pure ⟨a, rfl, ha⟩

theorem Passes.bind {P : α → Prop} {P' : α' → Prop} {x : AttemptM α} {f : α → AttemptM α'}
    (hx : Passes P x) (hf : ∀ a, P a → Passes P' (f a)) : Passes P' (x >>= f) := by
  intro st
  rw [settled_bind]
  refine (hx st).bind ?_
  rintro _ ⟨a, rfl, ha⟩
  exact hf a ha st

theorem Passes.mono {P P' : α → Prop} {x : AttemptM α} (hx : Passes P x) (h : ∀ a, P a → P' a) :
    Passes P' x :=
  fun st => (hx st).mono fun _ ⟨a, hr, ha⟩ => ⟨a, hr, h a ha⟩

theorem Passes.then {P : α → Prop} {x : AttemptM α} {f : α → AttemptM α'} {y : AttemptM β'}
    (hx : Passes P x) (hf : ∀ a, P a → Firstly R' (f a) y) : Firstly R' (x >>= f) y := by
  intro st
  rw [settled_bind]
  refine (hx st).then ?_
  rintro _ ⟨a, rfl, ha⟩
  exact hf a ha st

theorem Firstly.after {R' : α' → β → Prop} {x : AttemptM α} {y : AttemptM β} {f : α → AttemptM α'}
    (h : Firstly R x y) (hf : ∀ a b, R a b → Firstly R' (f a) (pure b)) :
    Firstly R' (x >>= f) y := by
  have hbind : Firstly R' (x >>= f) (y >>= pure) := h.bind hf
  rwa [bind_pure] at hbind

theorem Firstly.attempt {x : AttemptM α} {y : AttemptM α} (h : Firstly Eq x y) :
    Firstly Eq (AttemptM.attempt x) (AttemptM.attempt y) := by
  intro st
  rw [settled_attempt, settled_attempt]
  exact (h st).bind fun _ _ hr => Code.firstly_pure ⟨hr.1.eq, hr.2⟩

theorem Firstly.ite {p : Prop} [Decidable p] {x x' : AttemptM α} {y y' : AttemptM β}
    (h : p → Firstly R x y) (h' : ¬ p → Firstly R x' y') :
    Firstly R (if p then x else x') (if p then y else y') := by
  by_cases hp : p
  · rw [if_pos hp, if_pos hp]
    exact h hp
  · rw [if_neg hp, if_neg hp]
    exact h' hp

end AttemptM

/-! ## Section 3: The journal -/

section journal

variable (j : EffectJournal)

/-- A step that is read and found unmade is begun. -/
theorem firstly_begin {α β : Type} {R : α → β → Prop} {key : String} (hkey : key ≠ activeSuspension)
    {done : Step Record → Code α} {x : Code α} {y : Code β} (h : Code.Firstly R x y) :
    Code.Firstly R (do
      let step ← j.store.read j.branchId key
      if step.status = .done then done step
      else do
        j.reclaim key step
        j.begin_ key
        x) y := by
  refine (Code.passes_ledger _).then fun step hstep => ?_
  have hunmade : step.status = .absent ∨ step.status = .ready :=
    status_of_unfound hkey hstep
  have hdone : step.status ≠ .done := by
    rcases hunmade with hstatus | hstatus <;> rw [hstatus] <;> decide
  have hreclaim : j.reclaim key step = pure () := by
    refine if_neg ?_
    rcases hunmade with hstatus | hstatus <;> rw [hstatus] <;> decide
  have hbegin : Code.Passes (fun _ => True) (j.begin_ key) := by
    refine (Code.passes_ledger _).bind fun started hstarted => ?_
    obtain rfl : started = true := hstarted
    exact Code.passes_pure trivial
  rw [if_neg hdone, hreclaim]
  exact hbegin.then fun _ _ => h

theorem firstly_model {key : String} (hkey : key ≠ activeSuspension)
    (handler : Code ModelResponse) : Code.Firstly Eq (j.model key handler) handler := by
  refine firstly_begin j hkey ?_
  have hcatch : Code.Firstly Eq (Code.catch_ handler fun e =>
      if e = .cancelled then throw e
      else do
        j.store.forget j.branchId key j.token
        throw e) handler := by
    refine (Code.firstly_refl handler).catch_ fun e => ?_
    by_cases he : e = .cancelled
    · rw [if_pos he]
      exact Code.firstly_throw e
    · rw [if_neg he]
      exact (Code.passes_ledger _).then fun _ _ => Code.firstly_throw e
  refine hcatch.after ?_
  rintro response _ rfl
  exact (Code.passes_ledger _).then fun _ _ => Code.firstly_refl _

theorem firstly_execute (key : String) (handler : Code Json) :
    Code.Firstly (fun record made => record = some (.tool made)) (j.execute key handler)
      (Storeless.execute handler) := by
  refine (Code.firstly_refl handler).attempt.bind fun outcome outcome' hsame => ?_
  obtain rfl := hsame.eq
  have hcommit : ∀ record : ToolRecord, Code.Firstly (fun stored made => stored = some (.tool made))
      (j.commit key record) (pure record) :=
    fun record => (Code.passes_ledger _).then fun _ _ => Code.firstly_pure rfl
  cases outcome with
  | ok value => exact hcommit (.ok value)
  | error e =>
    refine Code.Firstly.ite (fun _ => ?_) fun _ => Code.Firstly.ite (fun _ => ?_) fun _ => ?_
    · exact (Code.passes_ledger _).then fun _ _ => Code.firstly_throw e
    · exact Code.firstly_throw e
    · exact hcommit (.failed e.text)

theorem firstly_tool (callId : String) (handler : Code Json) :
    Code.Firstly (fun record made => record = some (.tool made)) (j.tool callId handler)
      (Storeless.execute handler) :=
  firstly_begin j (stepKey_ne_activeSuspension callId) (firstly_execute j _ handler)

theorem firstly_projectOnce (callId : String) (record : ToolRecord)
    (project : Option (ToolRecord → Code ToolRecord)) :
    Code.Firstly (fun stored shown => stored = some (.tool shown))
      (j.projectOnce callId (some (.tool record)) project)
      (Storeless.projectOnce record project) := by
  refine (Code.passes_ledger _).then fun step hstep => ?_
  have hunmade : step.status = .absent ∨ step.status = .ready :=
    status_of_unfound (afterKey_ne_activeSuspension callId) hstep
  have hdone : step.status ≠ .done := by
    rcases hunmade with hstatus | hstatus <;> rw [hstatus] <;> decide
  rw [if_neg hdone]
  cases project with
  | none => exact Code.firstly_pure rfl
  | some project =>
    refine (Code.firstly_refl (project record)).after ?_
    rintro shown _ rfl
    exact (Code.passes_ledger _).then fun _ _ => Code.firstly_pure rfl

theorem passes_recorded (callId : String) :
    Code.Passes (fun recorded => recorded = false) (j.recorded callId) := by
  refine (Code.passes_ledger _).bind fun step hstep => Code.passes_pure ?_
  have hunmade : step.status = .absent ∨ step.status = .ready :=
    status_of_unfound (stepKey_ne_activeSuspension callId) hstep
  rcases hunmade with hstatus | hstatus <;> rw [hstatus] <;> decide

end journal

/-! ## Section 4: The boundary -/

section boundary

variable (boundary : ExecutionBoundary)

theorem passes_claimRecords (session : InputSession) (represented : List String)
    {records : List (InputRecord Record)} (h : delivered records = true) :
    AttemptM.Passes (fun items => items = []) (session.claimRecords represented records) := by
  induction records with
  | nil => exact AttemptM.passes_pure rfl
  | cons record records ih =>
    obtain ⟨hterminal, hrest⟩ := Bool.and_eq_true_iff.mp h
    refine AttemptM.passes_state.bind fun st _ => ?_
    rw [if_pos ((of_decide_eq_true hterminal).imp id Or.inl)]
    exact ih hrest

theorem passes_claim (session : InputSession) (represented : List String) :
    AttemptM.Passes (fun items => items = []) (session.claim represented) :=
  (AttemptM.Passes.code (Code.passes_ledger _)).bind fun _ h =>
    passes_claimRecords session represented h

theorem firstly_screen (here : Ctx) (pending inputs : List PendingInput) :
    AttemptM.Firstly Eq (boundary.screen here pending inputs) (Storeless.screen here inputs) := by
  refine AttemptM.Firstly.ite (fun _ => AttemptM.firstly_pure rfl) fun _ => ?_
  refine (AttemptM.firstly_refl _).after ?_
  rintro screened _ rfl
  cases screened with
  | inr reason => exact AttemptM.firstly_pure rfl
  | inl screened =>
    have hdiscard : ∀ items, AttemptM.Passes (fun _ => True) (boundary.inputs.discard items) := by
      intro items
      unfold InputSession.discard
      by_cases hnone : originIds items = []
      · rw [if_pos hnone]
        exact AttemptM.passes_pure trivial
      · rw [if_neg hnone]
        exact (AttemptM.Passes.code (Code.passes_ledger (.discardInputs _ _ _))).mono
          fun _ _ => trivial
    exact (hdiscard _).then fun _ _ => AttemptM.firstly_pure rfl

theorem firstly_steer (ctx : RunContext) (request : ModelRequest)
    (pending inputs : List PendingInput) :
    AttemptM.Firstly Eq (boundary.steer ctx request pending inputs)
      (Storeless.steer boundary ctx request inputs) := by
  refine AttemptM.Firstly.ite (fun _ => AttemptM.firstly_refl _) fun _ => ?_
  refine (AttemptM.firstly_refl _).bind_eq fun st => ?_
  refine (firstly_screen boundary _ pending inputs).bind_eq fun screened => ?_
  exact AttemptM.firstly_refl _

theorem passes_admitted (session : InputSession) (items : List PendingInput) :
    AttemptM.Passes (fun _ => True) (session.admit_ items) := by
  unfold InputSession.admit_
  by_cases hnone : originIds items = []
  · rw [if_pos hnone]
    exact AttemptM.passes_pure trivial
  · rw [if_neg hnone]
    exact (AttemptM.Passes.code (Code.passes_ledger (.admitInputs _ _ _))).mono fun _ _ => trivial

theorem firstly_admitted (ctx : RunContext) (request : ModelRequest) :
    AttemptM.Firstly Eq (boundary.admit_ ctx request) (Storeless.admit_ boundary ctx request) := by
  refine (AttemptM.firstly_refl _).bind_eq fun st => ?_
  refine (AttemptM.firstly_refl _).bind_eq fun _ => ?_
  refine (passes_claim boundary.inputs _).then fun claimed hclaimed => ?_
  obtain rfl := hclaimed
  simp only [List.append_nil]
  refine (firstly_steer boundary ctx request _ _).bind_eq fun steered => ?_
  cases steered with
  | inr reason => exact AttemptM.firstly_pure rfl
  | inl passed =>
    obtain ⟨inputs, steers⟩ := passed
    refine (AttemptM.firstly_refl _).bind_eq fun _ => ?_
    exact (passes_admitted boundary.inputs inputs).then fun _ _ => AttemptM.firstly_pure rfl

theorem firstly_modelRequestNode (digest : List Message → List ToolDefinition → String)
    (ctx : RunContext) (request : ModelRequest) (tools : List ToolDefinition) :
    AttemptM.Firstly Eq (boundary.modelRequestNode digest ctx request tools)
      (Storeless.modelRequestNode boundary ctx request tools) := by
  refine (AttemptM.firstly_refl _).bind_eq fun _ => ?_
  refine AttemptM.Firstly.ite (fun _ => AttemptM.firstly_refl _) fun _ => ?_
  refine (firstly_admitted boundary ctx request).bind_eq fun admitted => ?_
  cases admitted with
  | inr reason => exact AttemptM.firstly_refl _
  | inl request =>
    refine (AttemptM.firstly_refl _).bind_eq fun prepared => ?_
    have hmodel : AttemptM.Firstly Eq
        (boundary.wrapModelRequest (digest (ctx.messages ++ [.request request]) prepared)
          (ctx.messages ++ [.request request]))
        (AttemptM.ask (.model (ctx.messages ++ [.request request]))) :=
      AttemptM.Firstly.code (firstly_model boundary.journal (modelStepKey_ne_activeSuspension _) _)
    exact hmodel.bind_eq fun _ => AttemptM.firstly_pure rfl

theorem passes_recordPending (ctx : RunContext) (response : ModelResponse) :
    AttemptM.Passes (fun _ => True) (boundary.recordPending ctx response) := by
  unfold ExecutionBoundary.recordPending
  dsimp only
  by_cases hnone : (response.toolCalls.map fun call =>
      ({ id := call.toolCallId, name := call.toolName, args := call.args } : CallEntry)) = []
  · rw [if_pos hnone]
    exact AttemptM.passes_pure trivial
  · rw [if_neg hnone]
    exact (AttemptM.Passes.code (Code.passes_ledger (.writeControl _ _ _ _))).mono
      fun _ _ => trivial

theorem firstly_callToolsNode (ctx : RunContext) (response : ModelResponse) :
    AttemptM.Firstly Eq (boundary.callToolsNode ctx response) (Storeless.callToolsNode ctx) := by
  refine (AttemptM.firstly_refl _).bind_eq fun _ => ?_
  refine (AttemptM.firstly_refl _).after fun _ _ _ => ?_
  have hpending : AttemptM.Firstly Eq (boundary.recordPending ctx response >>= pure) (pure ()) :=
    (passes_recordPending boundary ctx response).then fun _ _ => AttemptM.firstly_pure rfl
  rwa [bind_pure] at hpending

theorem firstly_decideFinish (ctx : RunContext) (output : Json) :
    AttemptM.Firstly Eq (boundary.decideFinish ctx output)
      (Storeless.decideFinish boundary ctx output) := by
  refine (passes_claim boundary.inputs _).then fun late hlate => ?_
  obtain rfl := hlate
  exact AttemptM.firstly_refl _

theorem firstly_toolsCalledNode (ctx : RunContext) (response : ModelResponse)
    (result : NodeResult) : AttemptM.Firstly Eq (boundary.toolsCalledNode ctx response result)
      (Storeless.toolsCalledNode boundary ctx response result) := by
  cases result with
  | deferred requests => exact AttemptM.firstly_refl _
  | next request => exact AttemptM.firstly_refl _
  | finished output =>
    refine (AttemptM.firstly_refl _).bind_eq fun _ => ?_
    exact firstly_decideFinish boundary ctx output

theorem firstly_beforeToolExecute (ctx : RunContext) (tool : ToolDefinition) (call : ToolCall)
    (args : Json) (approved : Bool) :
    AttemptM.Firstly Eq (boundary.beforeToolExecute ctx tool call args approved)
      (Storeless.beforeToolExecute boundary ctx tool call args approved) := by
  refine (AttemptM.Passes.code (Code.passes_mark _)).then fun _ _ => ?_
  refine (AttemptM.firstly_refl _).bind_eq fun st => ?_
  refine (AttemptM.Passes.code (passes_recorded boundary.journal call.toolCallId)).then
    fun recorded hrecorded => ?_
  obtain rfl := hrecorded
  exact AttemptM.firstly_refl _

theorem firstly_wrapToolExecute (ctx : RunContext) (tool : ToolDefinition) (call : ToolCall)
    (args : Json) : AttemptM.Firstly Eq (boundary.wrapToolExecute ctx tool call args)
      (Storeless.wrapToolExecute boundary ctx tool call args) := by
  refine (AttemptM.Firstly.code (firstly_tool boundary.journal call.toolCallId _)).bind ?_
  rintro _ record rfl
  refine (AttemptM.Passes.code (Code.passes_mark _)).then fun _ _ => ?_
  refine (AttemptM.firstly_refl _).bind_eq fun st => ?_
  refine (AttemptM.Firstly.code (firstly_projectOnce boundary.journal _ record _)).bind ?_
  rintro _ shown rfl
  exact AttemptM.firstly_refl _

/-- **Each hook**. -/
theorem firstly_hook (digest : List Message → List ToolDefinition → String) (o : NodeOp) :
    AttemptM.Firstly Eq (boundary.hook digest o) (Storeless.hook boundary o) := by
  cases o with
  | modelRequest ctx request tools =>
    exact firstly_modelRequestNode boundary digest ctx request tools
  | prepareTools tools => exact AttemptM.firstly_refl _
  | callTools ctx response => exact firstly_callToolsNode boundary ctx response
  | tool ctx tool call args approved =>
    refine (firstly_beforeToolExecute boundary ctx tool call args approved).bind_eq fun args => ?_
    exact firstly_wrapToolExecute boundary ctx tool call args
  | toolsCalled ctx response result => exact firstly_toolsCalledNode boundary ctx response result

/-- **Every agent** under the hooks, by induction on what it does between them. -/
theorem firstly_drive {α : Type} (digest : List Message → List ToolDefinition → String)
    (program : AgentProg α) :
    AttemptM.Firstly Eq (boundary.drive digest program) (Storeless.drive boundary program) := by
  induction program with
  | pure a => exact AttemptM.firstly_pure rfl
  | perform o next ih => exact (firstly_hook boundary digest o).attempt.bind_eq ih

end boundary

/-! ## Section 5: The runtime -/

section runtime

variable (runtime : AgentRuntime) (execution : ExecutionContext)

theorem firstly_runAgent (boundary : ExecutionBoundary) (agent : Agent) (start : RunStart) :
    Code.Firstly Eq (AgentRuntime.runAgent boundary agent start)
      (Storeless.runAgent boundary agent start) := by
  rw [AgentRuntime.runAgent_eq, Storeless.runAgent_eq]
  refine Code.Firstly.bind (firstly_drive boundary agent.digest (agent.run start) {}) ?_
  rintro ⟨r, st⟩ ⟨r', st'⟩ ⟨hr, hst⟩
  obtain rfl := hr.eq
  obtain rfl : st = st' := hst
  exact Code.firstly_refl _

theorem passes_deliverPrompt (token : Int) (prompt : Option Json) (promptId : Option String) :
    Code.Passes (fun delivered => delivered = prompt)
      (AgentRuntime.deliverPrompt execution token prompt promptId) := by
  cases prompt with
  | none => exact Code.passes_pure rfl
  | some prompt =>
    cases promptId with
    | none => exact Code.passes_pure rfl
    | some promptId =>
      refine (Code.passes_ledger (.enqueueInput _ _ _)).bind fun inserted hinserted => ?_
      obtain rfl : inserted = true := hinserted
      exact (Code.passes_ledger (.admitInputs _ _ _)).bind fun _ _ => Code.passes_pure rfl

theorem firstly_park {α : Type} (boundary : ExecutionBoundary) (st : AttemptState)
    (requests : DeferredToolRequests) (messages : List Message) :
    Code.Firstly Eq (AgentRuntime.park (α := α) execution boundary st requests messages)
      (Storeless.park boundary st requests messages) := by
  refine Code.Firstly.ite (fun _ => Code.firstly_throw _) fun _ => ?_
  refine (Code.firstly_refl _).bind_eq fun parked => ?_
  refine Code.Firstly.ite (fun _ => Code.firstly_throw _) fun _ => ?_
  refine (Code.firstly_refl _).bind_eq fun _ => ?_
  refine (Code.firstly_refl _).bind_eq fun pending => ?_
  cases requests.approvals with
  | nil => exact Code.firstly_throw _
  | cons first rest =>
    exact (Code.passes_ledger (.commitTransition _ _ _)).then fun _ _ => Code.firstly_throw _

/-- Without a ledger there is no use for a token. -/
theorem runAgent_token (boundary : ExecutionBoundary) (token : Int) (agent : Agent)
    (start : RunStart) : Storeless.runAgent { boundary with token := token } agent start
      = Storeless.runAgent boundary agent start := by
  have hook_token : ∀ o, Storeless.hook { boundary with token := token } o
      = Storeless.hook boundary o := by
    intro o
    cases o <;> rfl
  have drive_token : ∀ {α : Type} (program : AgentProg α),
      Storeless.drive { boundary with token := token } program
        = Storeless.drive boundary program := by
    intro α program
    induction program with
    | pure a => rfl
    | perform o next ih =>
      show AttemptM.attempt (Storeless.hook { boundary with token := token } o) >>= _ = _
      rw [hook_token]
      exact congrArg (AttemptM.attempt (Storeless.hook boundary o) >>= ·) (funext ih)
  unfold Storeless.runAgent
  rw [drive_token]

theorem firstly_attempt (token token' : Int) (options : Options) (args : AttemptArgs) :
    Code.Firstly Eq (runtime.attempt execution token options args)
      (Storeless.attempt runtime execution token' options args) := by
  refine (Code.firstly_refl _).bind_eq fun history => ?_
  refine (passes_deliverPrompt execution token args.prompt args.promptId).then fun prompt h => ?_
  obtain rfl := h
  refine (Code.passes_mark _).then fun _ _ => ?_
  have hrun : Code.Firstly Eq
      (AgentRuntime.runAgent (runtime.boundary execution token options args) options.agent
        ⟨args.prompt, history, args.deferredToolResults⟩)
      (Storeless.runAgent (runtime.boundary execution token' options args) options.agent
        ⟨args.prompt, history, args.deferredToolResults⟩) := by
    rw [← runAgent_token (runtime.boundary execution token' options args) token]
    exact firstly_runAgent _ options.agent _
  refine hrun.bind_eq fun ended => ?_
  obtain ⟨result, st⟩ := ended
  refine (Code.firstly_refl _).bind_eq fun _ => ?_
  cases result.output with
  | deferred requests => exact firstly_park execution _ st requests result.messages
  | text output =>
    refine (Code.firstly_refl _).bind_eq fun _ => ?_
    exact (Code.passes_mark _).then fun _ _ => Code.firstly_refl _

theorem passes_active :
    Code.Passes (fun found => found = none) (AgentRuntime.active execution) := by
  refine (Code.passes_ledger (.read _ activeSuspension)).bind fun step hstep => ?_
  by_cases hdone : step.status = .done
  · rw [if_neg (not_not_intro hdone)]
    have hunparked : step.unparked = true := hstep
    unfold Step.unparked at hunparked
    split at hunparked
    · next hvalue =>
      rw [hvalue]
      exact Code.passes_pure rfl
    · exact absurd hdone (of_decide_eq_true hunparked)
  · rw [if_pos hdone]
    exact Code.passes_pure rfl

theorem passes_announceParked (promptId : Option String) (prompt : Option Json) :
    Code.Passes (fun _ => True) (AgentRuntime.announceParked execution promptId prompt) := by
  cases prompt with
  | none => exact Code.passes_pure trivial
  | some prompt =>
    refine (passes_active execution).bind fun found hfound => ?_
    obtain rfl := hfound
    exact Code.passes_pure trivial

/-- The lease, and its release, whatever is done under it. -/
theorem firstly_lease {α : Type} {owner : String} {method : Method} {body : Int → Code α}
    {y : Code α} (h : ∀ token, Code.Firstly Eq (body token) y) :
    Code.Firstly Eq (runtime.lease execution owner method body) y := by
  refine (Code.passes_mark _).then fun _ _ => ?_
  refine (Code.passes_ledger (.acquire _ _ _)).then fun (token : Int) htoken => ?_
  rw [if_neg (show token ≠ 0 from of_decide_eq_true (show leased token = true from htoken))]
  exact (h token).finally_ ((Code.passes_ledger (.release _ _)).mono fun _ _ => trivial)

theorem firstly_run (owner : String) (options : Options) (args : AttemptArgs) :
    Code.Firstly Eq (runtime.run execution owner options args)
      (Storeless.run runtime execution options args) := by
  refine (passes_announceParked execution args.promptId args.prompt).then fun _ _ => ?_
  exact firstly_lease runtime execution fun token => firstly_attempt runtime execution token 0 _ _

theorem passes_checkPendingRound (history : List Message) :
    Code.Passes (fun _ => True) (AgentRuntime.checkPendingRound execution history) := by
  refine (Code.passes_ledger _).bind fun step hstep => ?_
  have hdone : step.status ≠ .done := by
    rcases status_of_unfound pendingRoundKey_ne_activeSuspension hstep with hstatus | hstatus <;>
      rw [hstatus] <;> decide
  rw [if_pos hdone]
  exact Code.passes_pure trivial

theorem firstly_recover (owner : String) (options : Options) (history : List Message) :
    Code.Firstly Eq (runtime.recover execution owner options history)
      (Storeless.recover runtime execution options history) := by
  refine firstly_lease runtime execution fun token => ?_
  refine (passes_active execution).then fun found hfound => ?_
  obtain rfl := hfound
  refine (passes_checkPendingRound execution history).then fun _ _ => ?_
  exact firstly_attempt runtime execution token 0 options _

/-- Nothing is copied of what the source has not made. -/
theorem passes_copySteps (src dst : ExecutionContext) (token : Int) (calls : List ToolCall) :
    Code.Passes (fun copied => copied = []) (AgentRuntime.copySteps src dst token calls) := by
  induction calls with
  | nil => exact Code.passes_pure rfl
  | cons call calls ih =>
    refine (Code.passes_ledger _).bind fun step hstep => ?_
    have hunmade := status_of_unfound (stepKey_ne_activeSuspension call.toolCallId) hstep
    by_cases habsent : step.status = .absent
    · rw [if_pos habsent]
      exact ih
    · rw [if_neg habsent]
      refine (Code.passes_ledger (.start _ _ _)).bind fun started hstarted => ?_
      obtain rfl : started = true := hstarted
      have hready : step.status = .ready := hunmade.resolve_left habsent
      rw [if_neg (not_not_intro rfl), hready, if_neg (by decide)]
      exact ih

theorem firstly_fork (src : ExecutionContext) (at_ : Option String) (owner : String)
    (options : Options) (prompt : Option Json) (history : Option (List Message)) (regate : Bool) :
    Code.Firstly Eq (runtime.fork src at_ execution owner options prompt history regate)
      (Storeless.fork runtime src at_ execution options prompt history) := by
  refine (Code.firstly_refl _).bind_eq fun history => ?_
  refine firstly_lease runtime execution fun token => ?_
  refine (passes_copySteps src execution token _).then fun copied hcopied => ?_
  obtain rfl := hcopied
  rw [ite_self]
  exact firstly_attempt runtime execution token 0 options _

/-- **A ledger changes nothing the first time**: whatever the agent, the controls and the arguments
    are, and whatever others do meanwhile, a run that is answered by its ledger as by one that
    holds nothing of what it asks for asks the outside the same, in the same order, as a run
    without a ledger, and comes to the same end. -/
theorem unrecorded_run (owner : String) (options : Options) (args : AttemptArgs)
    {done : List (Exchange Op.Reply)} {r : Except Raised Outcome}
    (hrun : Runs (runtime.run execution owner options args).run done r)
    (hunrecorded : ∀ x ∈ done, forgone x.1 = true → Unrecorded x.1 x.2) :
    ∃ done', Runs (Storeless.run runtime execution options args).run done' r ∧
      Erases.kept forgone done' = Erases.kept forgone done :=
  (firstly_run runtime execution owner options args).unrecorded hrun hunrecorded

/-- The same of a recovery. -/
theorem unrecorded_recover (owner : String) (options : Options) (history : List Message)
    {done : List (Exchange Op.Reply)} {r : Except Raised Outcome}
    (hrun : Runs (runtime.recover execution owner options history).run done r)
    (hunrecorded : ∀ x ∈ done, forgone x.1 = true → Unrecorded x.1 x.2) :
    ∃ done', Runs (Storeless.recover runtime execution options history).run done' r ∧
      Erases.kept forgone done' = Erases.kept forgone done :=
  (firstly_recover runtime execution owner options history).unrecorded hrun hunrecorded

/-- And of a fork. -/
theorem unrecorded_fork (src : ExecutionContext) (at_ : Option String) (owner : String)
    (options : Options) (prompt : Option Json) (history : Option (List Message)) (regate : Bool)
    {done : List (Exchange Op.Reply)} {r : Except Raised Outcome}
    (hrun : Runs (runtime.fork src at_ execution owner options prompt history regate).run done r)
    (hunrecorded : ∀ x ∈ done, forgone x.1 = true → Unrecorded x.1 x.2) :
    ∃ done', Runs (Storeless.fork runtime src at_ execution options prompt history).run done' r ∧
      Erases.kept forgone done' = Erases.kept forgone done :=
  (firstly_fork runtime execution src at_ owner options prompt history regate).unrecorded hrun
    hunrecorded

end runtime

/-! A run that calls a tool, with a ledger that is empty. -/

section first

/-- The model calls the tool, and then tells of it. -/
def callsOnce : Env :=
  { outside 0 (tells "sent") .continue with
    reply := fun
      | .model messages =>
        .ok (if messages.length ≤ 1 then asksFor { name := "mail" } ["c"] else tells "sent")
      | e => (outside 0 (tells "sent") .continue).reply e }

/-- A host with controls, and an agent with a tool that needs no approval. -/
def controlledOptions : Options :=
  { agent := toolAgent plainDigest { name := "mail" } 4, controls := true }

/-- What it exchanges with a ledger that starts empty. -/
def firstRun : List (Exchange Op.Reply) × Except Raised Outcome :=
  (mailRuntime.run mailBranch "w" controlledOptions { prompt := some "go" }).run.exchanges
    (fun s o => perform s callsOnce o) .init

theorem unrecorded_run_first :
    firstRun.1.length = 38 ∧ firstRun.2.toOption.map Outcome.stopReason = some .completed ∧
      ∃ done, Runs (Storeless.run mailRuntime mailBranch controlledOptions
          { prompt := some "go" }).run done firstRun.2 ∧
        Erases.kept forgone done = Erases.kept forgone firstRun.1 := by
  have hunrecorded : firstRun.1.all (fun x => !forgone x.1 || unrecorded x.1 x.2) = true := by
    decide +kernel
  refine ⟨by decide +kernel, by decide +kernel, ?_⟩
  refine unrecorded_run mailRuntime mailBranch "w" controlledOptions { prompt := some "go" }
    (Prog.runs_exchanges _ _ _) fun x hx hforgone => ?_
  have hx' := List.all_eq_true.mp hunrecorded x hx
  rw [hforgone] at hx'
  exact hx'

end first

end Semora
