import Mathlib.Logic.Basic

/-! # Loops over Stages

    A loop asks one stage after another and keeps what it has heard so far.
    A stage's decision ends it at once, or is absorbed; at the end it decides
    from what was absorbed. The decision of such a loop can be asked for like
    that of a stage, so loops can be stages of loops.

    `Flat` is when that makes no difference: a loop over loops decides as the
    loop over all their stages in order (`Composed.run_nested`). The stages may do
    anything the monad allows: raise, or keep a state. -/

/-- How a loop handles the decisions of its stages. -/
structure Composing (α δ : Type) where
  /-- A decision ends the loop, or it is absorbed. -/
  absorb : α → δ → δ ⊕ α
  /-- What the loop decides at its end. -/
  finish : α → δ

namespace Composing

variable {α δ σ : Type} {m : Type → Type} [Monad m] (c : Composing α δ)

/-- The loop, from what it has heard so far. A stage may be asked about that. -/
def loop (ask : σ → α → m δ) : List σ → α → m δ
  | [], heard => pure (c.finish heard)
  | stage :: rest, heard => do
    match c.absorb heard (← ask stage heard) with
    | .inl decision => pure decision
    | .inr heard => loop ask rest heard

/-- A loop that begins, at what an outer loop has heard, with `start` of it, can take the place of
    its stages. -/
structure Flat (start : α → α) (join : α → α → α) : Prop where
  /-- What the inner loop begins with adds nothing. -/
  join_start : ∀ outer, join outer (start outer) = outer
  /-- What it decides at its end is absorbed as what it has heard. -/
  finish : ∀ outer inner, c.absorb outer (c.finish inner) = .inr (join outer inner)
  /-- What ends the inner loop ends the outer one, before and after. -/
  stop : ∀ outer inner decision final, c.absorb inner decision = .inl final →
    c.absorb outer final = .inl final ∧ c.absorb (join outer inner) decision = .inl final
  /-- What is absorbed by the inner loop could be by the outer one. -/
  go : ∀ outer inner decision inner', c.absorb inner decision = .inr inner' →
    c.absorb (join outer inner) decision = .inr (join outer inner')

variable {c} [LawfulMonad m] {start : α → α} {join : α → α → α} {ask : σ → α → m δ}

theorem loop_stop {stage : σ} {heard : α} {decision final : δ}
    (hask : ask stage heard = pure decision)
    (h : c.absorb heard decision = .inl final) (rest : List σ) :
    c.loop ask (stage :: rest) heard = pure final := by
  show (ask stage heard >>= _) = _
  rw [hask, pure_bind, h]

theorem loop_go {stage : σ} {heard heard' : α} {decision : δ}
    (hask : ask stage heard = pure decision)
    (h : c.absorb heard decision = .inr heard') (rest : List σ) :
    c.loop ask (stage :: rest) heard = c.loop ask rest heard' := by
  show (ask stage heard >>= _) = _
  rw [hask, pure_bind, h]

/-- An inner loop, and the rest after it, decide as one loop. -/
theorem Flat.loop_bind (h : c.Flat start join)
    (hask : ∀ stage outer inner, ask stage (join outer inner) = ask stage inner)
    (stages rest : List σ) (outer inner : α) :
    (c.loop ask stages inner >>= fun decision =>
      match c.absorb outer decision with
      | .inl decision => pure decision
      | .inr heard => c.loop ask rest heard)
    = c.loop ask (stages ++ rest) (join outer inner) := by
  induction stages generalizing inner with
  | nil =>
    show (pure (c.finish inner) >>= _) = _
    rw [pure_bind, h.finish]
    rfl
  | cons stage stages ih =>
    show ((ask stage inner >>= _) >>= _) = (ask stage (join outer inner) >>= _)
    rw [bind_assoc, hask]
    refine bind_congr fun decision => ?_
    cases habsorb : c.absorb inner decision with
    | inl final =>
      obtain ⟨hfinal, hjoin⟩ := h.stop outer inner decision final habsorb
      simp only [hjoin, pure_bind, hfinal]
    | inr inner' =>
      simp only [h.go outer inner decision inner' habsorb]
      exact ih inner'

/-- **A loop among the stages** can be replaced by its own stages. -/
theorem Flat.splice (h : c.Flat start join)
    (hask : ∀ stage outer inner, ask stage (join outer inner) = ask stage inner)
    {composed : σ} {stages : List σ}
    (hcomposed : ∀ heard, ask composed heard = c.loop ask stages (start heard))
    (front back : List σ) (heard : α) :
    c.loop ask (front ++ composed :: back) heard = c.loop ask (front ++ stages ++ back) heard := by
  induction front generalizing heard with
  | nil =>
    show (ask composed heard >>= _) = c.loop ask (stages ++ back) heard
    rw [hcomposed, h.loop_bind hask, h.join_start]
  | cons stage front ih =>
    refine bind_congr fun decision => ?_
    cases c.absorb heard decision with
    | inl final => rfl
    | inr heard' => exact ih heard'

end Composing

/-! ## Trees of loops -/

/-- A stage, or loops over stages, nested to any depth. -/
inductive Composed (σ : Type) where
  | stage (s : σ)
  | nested (parts : List (Composed σ))

namespace Composed

variable {σ : Type}

/-- What holds of a tree if it holds of its parts. -/
@[elab_as_elim]
theorem induct {P : Composed σ → Prop} (stage : ∀ s, P (.stage s))
    (nested : ∀ parts, (∀ part ∈ parts, P part) → P (.nested parts)) (tree : Composed σ) :
    P tree := by
  refine @Composed.rec σ P (fun parts => ∀ part ∈ parts, P part) stage nested ?_ ?_ tree
  · exact fun _ h => absurd h List.not_mem_nil
  · intro part parts hpart hparts other hmem
    rcases List.mem_cons.mp hmem with rfl | hmem
    · exact hpart
    · exact hparts other hmem

mutual

/-- The stages of a tree, in order. -/
def leaves : Composed σ → List σ
  | .stage s => [s]
  | .nested parts => leavesOf parts

def leavesOf : List (Composed σ) → List σ
  | [] => []
  | part :: parts => leaves part ++ leavesOf parts

end

mutual

/-- The tree as one stage, where `compose` makes a stage of a list of them. -/
def run (compose : List σ → σ) : Composed σ → σ
  | .stage s => s
  | .nested parts => compose (runOf compose parts)

def runOf (compose : List σ → σ) : List (Composed σ) → List σ
  | [] => []
  | part :: parts => run compose part :: runOf compose parts

end

/-- **Nesting makes no difference** where a composed stage can be replaced by its stages. -/
theorem run_nested {compose : List σ → σ}
    (hsplice : ∀ front stages back,
      compose (front ++ compose stages :: back) = compose (front ++ stages ++ back))
    (parts : List (Composed σ)) :
    (Composed.nested parts).run compose = compose (Composed.nested parts).leaves := by
  -- parts that can each be spliced can be spliced together, wherever they stand
  have hall : ∀ parts : List (Composed σ),
      (∀ part ∈ parts, ∀ front back,
        compose (front ++ run compose part :: back) = compose (front ++ leaves part ++ back)) →
      ∀ front back,
        compose (front ++ runOf compose parts ++ back) =
          compose (front ++ leavesOf parts ++ back) := by
    intro parts hparts
    induction parts with
    | nil => exact fun front back => rfl
    | cons part parts ih =>
      intro front back
      have hrest := ih fun other hmem => hparts other (List.mem_cons_of_mem _ hmem)
      rw [runOf, leavesOf, List.append_assoc, List.cons_append,
        hparts part List.mem_cons_self, ← List.append_assoc, hrest, List.append_assoc front]
  -- and each part can be, by induction on it
  have hone : ∀ (part : Composed σ) (front back : List σ),
      compose (front ++ run compose part :: back) = compose (front ++ leaves part ++ back) := by
    intro part
    induction part using induct with
    | stage s =>
      intro front back
      rw [run, leaves, List.append_assoc]
      rfl
    | nested parts ih =>
      intro front back
      rw [run, leaves, hsplice, hall parts ih]
  have hwhole := hall parts (fun part _ => hone part) [] []
  simpa only [run, leaves, List.nil_append, List.append_nil] using hwhole

end Composed
