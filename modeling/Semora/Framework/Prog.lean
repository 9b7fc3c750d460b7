import Mathlib.Logic.Basic

/-! # Programs over an Interface of Atomic Operations

    A program that talks to the outside only through operations of an
    interface: it has either finished, or it is about to perform one operation
    and goes on with the answer. Everything between two operations is one
    step, so whoever runs the program may stop it, or let others move, exactly
    at the operations.

    * the monad, with its laws;
    * `Ensures`: every operation the program can perform has one property, and
      every result it can return another;
    * `take`: the program given up at some point;
    * `Path`: the exchanges on the way from a program to what is left of it. -/

/-- A program over operations `Op` answered in `Res`. -/
inductive Prog (Op : Type) (Res : Op → Type) (α : Type) where
  | pure (a : α)
  | perform (o : Op) (next : Res o → Prog Op Res α)

namespace Prog

variable {Op : Type} {Res : Op → Type} {α β : Type}

/-- Sequential composition. -/
def bind : Prog Op Res α → (α → Prog Op Res β) → Prog Op Res β
  | .pure a, f => f a
  | .perform o next, f => .perform o fun r => (next r).bind f

instance : Monad (Prog Op Res) where
  pure := .pure
  bind := bind

/-- The program that performs one operation and returns the answer. -/
def op (o : Op) : Prog Op Res (Res o) := .perform o .pure

@[simp] theorem pure_def (a : α) : (Pure.pure a : Prog Op Res α) = .pure a := rfl

@[simp] theorem pure_bind (a : α) (f : α → Prog Op Res β) : (.pure a : Prog Op Res α) >>= f = f a :=
  rfl

@[simp] theorem perform_bind (o : Op) (next : Res o → Prog Op Res α) (f : α → Prog Op Res β) :
    Prog.perform o next >>= f = .perform o fun r => next r >>= f := rfl

@[simp] theorem op_bind (o : Op) (f : Res o → Prog Op Res β) : op o >>= f = .perform o f := rfl

theorem bind_assoc {γ : Type} (p : Prog Op Res α) (f : α → Prog Op Res β)
    (g : β → Prog Op Res γ) : p >>= f >>= g = p >>= fun a => f a >>= g := by
  induction p with
  | pure a => rfl
  | perform o next ih => exact congrArg (Prog.perform o) (funext ih)

theorem bind_pure (p : Prog Op Res α) : p >>= Prog.pure = p := by
  induction p with
  | pure a => rfl
  | perform o next ih => exact congrArg (Prog.perform o) (funext ih)

instance : LawfulMonad (Prog Op Res) := LawfulMonad.mk' _ bind_pure (fun _ _ => rfl) bind_assoc

/-! ## Properties of every operation -/

/-- Every operation the program can perform satisfies `φ`, and every result it can
    return satisfies `Q`. -/
def Ensures (φ : Op → Prop) (Q : α → Prop) : Prog Op Res α → Prop
  | .pure a => Q a
  | .perform o next => φ o ∧ ∀ r, (next r).Ensures φ Q

/-- Every operation the program can perform satisfies `φ`. -/
abbrev All (φ : Op → Prop) (p : Prog Op Res α) : Prop := p.Ensures φ fun _ => True

theorem Ensures.bind {φ : Op → Prop} {Q : α → Prop} {Q' : β → Prop} {p : Prog Op Res α}
    {f : α → Prog Op Res β} (hp : p.Ensures φ Q) (hf : ∀ a, Q a → (f a).Ensures φ Q') :
    (p >>= f).Ensures φ Q' := by
  induction p with
  | pure a => exact hf a hp
  | perform o next ih => exact ⟨hp.1, fun r => ih r (hp.2 r)⟩

theorem Ensures.mono {φ φ' : Op → Prop} {Q Q' : α → Prop} {p : Prog Op Res α}
    (hφ : ∀ o, φ o → φ' o) (hQ : ∀ a, Q a → Q' a) (hp : p.Ensures φ Q) : p.Ensures φ' Q' := by
  induction p with
  | pure a => exact hQ a hp
  | perform o next ih => exact ⟨hφ o hp.1, fun r => ih r (hp.2 r)⟩

theorem Ensures.and {φ φ' : Op → Prop} {Q Q' : α → Prop} {p : Prog Op Res α}
    (hp : p.Ensures φ Q) (hp' : p.Ensures φ' Q') :
    p.Ensures (fun o => φ o ∧ φ' o) fun a => Q a ∧ Q' a := by
  induction p with
  | pure a => exact ⟨hp, hp'⟩
  | perform o next ih => exact ⟨⟨hp.1, hp'.1⟩, fun r => ih r (hp.2 r) (hp'.2 r)⟩

theorem All.bind {φ : Op → Prop} {p : Prog Op Res α} {f : α → Prog Op Res β}
    (hp : p.All φ) (hf : ∀ a, (f a).All φ) : (p >>= f).All φ :=
  Ensures.bind hp fun a _ => hf a

theorem all_of_forall {φ : Op → Prop} (hφ : ∀ o, φ o) (p : Prog Op Res α) : p.All φ := by
  induction p with
  | pure a => exact trivial
  | perform o next ih => exact ⟨hφ o, ih⟩

/-! ## Giving up -/

/-- The program given up after `n` operations. -/
def take : Nat → Prog Op Res α → Prog Op Res (Option α)
  | _, .pure a => .pure (some a)
  | 0, .perform _ _ => .pure none
  | n + 1, .perform o next => .perform o fun r => (next r).take n

/-! ## Answering -/

/-- What a program returns when every operation is answered like this. -/
def answered (reply : (o : Op) → Res o) : Prog Op Res α → α
  | .pure a => a
  | .perform o next => (next (reply o)).answered reply

theorem answered_bind (reply : (o : Op) → Res o) (p : Prog Op Res α) (f : α → Prog Op Res β) :
    (p >>= f).answered reply = (f (p.answered reply)).answered reply := by
  induction p with
  | pure a => rfl
  | perform o next ih => exact ih (reply o)

/-! ## Foregone operations -/

/-- The program without the operations that `answer` answers in their place. -/
def skip (answer : (o : Op) → Option (Res o)) : Prog Op Res α → Prog Op Res α
  | .pure a => .pure a
  | .perform o next =>
    match answer o with
    | some r => (next r).skip answer
    | none => .perform o fun r => (next r).skip answer

theorem skip_bind (answer : (o : Op) → Option (Res o)) (p : Prog Op Res α)
    (f : α → Prog Op Res β) :
    (p >>= f).skip answer = p.skip answer >>= fun a => (f a).skip answer := by
  induction p with
  | pure a => rfl
  | perform o next ih =>
    simp only [perform_bind, skip]
    cases answer o with
    | some r => exact ih r
    | none => exact congrArg (Prog.perform o) (funext fun r => ih r)

/-- A program with no operation of the kind is left as it is. -/
theorem skip_of_all {answer : (o : Op) → Option (Res o)} {p : Prog Op Res α}
    (hp : p.All fun o => answer o = none) : p.skip answer = p := by
  induction p with
  | pure a => rfl
  | perform o next ih =>
    simp only [skip, hp.1]
    exact congrArg (Prog.perform o) (funext fun r => ih r (hp.2 r))

/-! ## Paths -/

/-- An operation and the answer it got. -/
abbrev Exchange (Res : Op → Type) : Type := Σ o, Res o

/-- `Path p done rest`: after the exchanges `done`, in this order, `rest` is left of `p`. -/
inductive Path (p : Prog Op Res α) : List (Exchange Res) → Prog Op Res α → Prop where
  | nil : Path p [] p
  | concat {done : List (Exchange Res)} {o : Op} {next : Res o → Prog Op Res α}
      (h : Path p done (.perform o next)) (r : Res o) :
      Path p (done ++ [⟨o, r⟩]) (next r)

/-- What is left of a program keeps to what the whole keeps to. -/
theorem Path.ensures {φ : Op → Prop} {Q : α → Prop} {p rest : Prog Op Res α}
    {done : List (Exchange Res)} (h : Path p done rest) (hp : p.Ensures φ Q) :
    rest.Ensures φ Q := by
  induction h with
  | nil => exact hp
  | concat _ r ih => exact ih.2 r

/-- What a program has performed keeps to what the whole keeps to. -/
theorem Path.ensures_done {φ : Op → Prop} {Q : α → Prop} {p rest : Prog Op Res α}
    {done : List (Exchange Res)} (h : Path p done rest) (hp : p.Ensures φ Q) :
    ∀ x ∈ done, φ x.1 := by
  induction h with
  | nil => exact nofun
  | concat h r ih =>
    intro x hx
    rcases List.mem_append.mp hx with hx | hx
    · exact ih x hx
    · obtain rfl := List.mem_singleton.mp hx
      exact (h.ensures hp).1

/-- A program that begins with an operation has performed it on every path but the empty one. -/
theorem Path.head {o : Op} {next : Res o → Prog Op Res α} {done : List (Exchange Res)}
    {p rest : Prog Op Res α} (h : Path p done rest) (hp : p = .perform o next) :
    (done = [] ∧ rest = p) ∨ ∃ r tail, done = ⟨o, r⟩ :: tail ∧ Path (next r) tail rest := by
  induction h with
  | nil => exact Or.inl ⟨rfl, rfl⟩
  | @concat done o' next' h r' ih =>
    rcases ih with ⟨rfl, heq⟩ | ⟨r, tail, rfl, htail⟩
    · rw [hp] at heq
      cases heq
      exact Or.inr ⟨r', [], rfl, Path.nil⟩
    · exact Or.inr ⟨r, tail ++ [⟨o', r'⟩], rfl, htail.concat r'⟩

/-- Nothing is performed after the end. -/
theorem Path.of_pure {a : α} {p rest : Prog Op Res α} {done : List (Exchange Res)}
    (h : Path p done rest) (hp : p = .pure a) : done = [] ∧ rest = .pure a := by
  induction h with
  | nil => exact ⟨rfl, hp⟩
  | concat _ _ ih => cases ih.2

/-- The last exchange of a path is with an operation that was left before. -/
theorem Path.of_concat {done : List (Exchange Res)} {o : Op} {r : Res o} {p rest : Prog Op Res α}
    (h : Path p (done ++ [⟨o, r⟩]) rest) : ∃ next, Path p done (.perform o next) := by
  generalize hwhole : done ++ [⟨o, r⟩] = whole at h
  cases h with
  | nil => simp at hwhole
  | @concat done' o' next h r' =>
    obtain ⟨rfl, hlast⟩ := List.append_inj' hwhole rfl
    obtain ⟨rfl, _⟩ := Sigma.mk.inj (List.cons.inj hlast).1
    exact ⟨next, h⟩

/-- A path of a sequence lies in the first part, or passes its end. -/
theorem Path.of_bind {done : List (Exchange Res)} {p : Prog Op Res α} {f : α → Prog Op Res β}
    {rest : Prog Op Res β} (h : Path (p >>= f) done rest) :
    (∃ q, Path p done q ∧ rest = q >>= f) ∨
      ∃ front back a, done = front ++ back ∧ Path p front (.pure a) ∧ Path (f a) back rest := by
  generalize hwhole : p >>= f = whole at h
  induction h with
  | nil => exact Or.inl ⟨p, .nil, hwhole.symm⟩
  | @concat done o next h r ih =>
    rcases ih with ⟨q, hq, hrest⟩ | ⟨front, back, a, rfl, hfront, hback⟩
    · cases q with
      | pure a =>
        refine Or.inr ⟨done, [⟨o, r⟩], a, rfl, hq, ?_⟩
        have hstart : Path (f a) [] (.perform o next) := by
          rw [hrest]
          exact .nil
        exact hstart.concat r
      | perform o' next' =>
        obtain ⟨rfl, hnext⟩ := Prog.perform.inj hrest
        obtain rfl := eq_of_heq hnext
        exact Or.inl ⟨next' r, hq.concat r, rfl⟩
    · exact Or.inr ⟨front, back ++ [⟨o, r⟩], a, by rw [List.append_assoc], hfront, hback.concat r⟩

end Prog
