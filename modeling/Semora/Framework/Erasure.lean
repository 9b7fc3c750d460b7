import Semora.Framework.CompleteRuns

/-! # Programs Without Some of Their Operations

    Two programs that differ in some operations only: one performs more of
    them than the other, or others. `Erases` says that this makes no
    difference as long as these operations are answered as they are allowed
    to be: what is left of the exchanges is the same, and so is what is
    returned. It is proved along the two programs, one rule for each thing
    that one of them does. -/

namespace Prog

variable {Op : Type} {Res : Op → Type} {α α' β β' : Type}

/-- Up to the `forgone` operations, answered as `allowed`, the programs do the same, and return
    what is related by `R`. -/
inductive Erases (forgone : Op → Bool) (allowed : (o : Op) → Res o → Prop) (R : α → β → Prop) :
    Prog Op Res α → Prog Op Res β → Prop where
  | pure {a : α} {b : β} (h : R a b) : Erases forgone allowed R (.pure a) (.pure b)
  | keep {o : Op} {next : Res o → Prog Op Res α} {next' : Res o → Prog Op Res β}
      (ho : forgone o = false) (h : ∀ r, Erases forgone allowed R (next r) (next' r)) :
      Erases forgone allowed R (.perform o next) (.perform o next')
  | left {o : Op} {next : Res o → Prog Op Res α} {q : Prog Op Res β} (ho : forgone o = true)
      (h : ∀ r, allowed o r → Erases forgone allowed R (next r) q) :
      Erases forgone allowed R (.perform o next) q
  | right {o : Op} {p : Prog Op Res α} {next : Res o → Prog Op Res β} (ho : forgone o = true)
      (r : Res o) (h : Erases forgone allowed R p (next r)) :
      Erases forgone allowed R p (.perform o next)

namespace Erases

variable {forgone : Op → Bool} {allowed : (o : Op) → Res o → Prop}

theorem refl {R : α → α → Prop} (hR : ∀ a, R a a) (p : Prog Op Res α) :
    Erases forgone allowed R p p := by
  induction p with
  | pure a => exact Erases.pure (hR a)
  | perform o next ih =>
    cases ho : forgone o with
    | false => exact Erases.keep ho ih
    | true => exact Erases.left ho fun r _ => Erases.right ho r (ih r)

theorem bind {R : α → β → Prop} {R' : α' → β' → Prop} {p : Prog Op Res α} {q : Prog Op Res β}
    {f : α → Prog Op Res α'} {g : β → Prog Op Res β'} (h : Erases forgone allowed R p q)
    (hfg : ∀ a b, R a b → Erases forgone allowed R' (f a) (g b)) :
    Erases forgone allowed R' (p >>= f) (q >>= g) := by
  induction h with
  | pure h => exact hfg _ _ h
  | keep ho _ ih => exact Erases.keep ho ih
  | left ho _ ih => exact Erases.left ho ih
  | right ho r _ ih => exact Erases.right ho r ih

/-- The exchanges that are not forgone. -/
def kept (forgone : Op → Bool) (done : List (Exchange Res)) : List (Exchange Res) :=
  done.filter fun x => !forgone x.1

/-- **The runs of the one** in which what is forgone is answered as allowed are runs of the
    other. -/
theorem runs {R : α → β → Prop} {p : Prog Op Res α} {q : Prog Op Res β}
    (h : Erases forgone allowed R p q) {done : List (Exchange Res)} {a : α} (hrun : Runs p done a)
    (hallowed : ∀ x ∈ done, forgone x.1 = true → allowed x.1 x.2) :
    ∃ done' b, Runs q done' b ∧ R a b ∧ kept forgone done' = kept forgone done := by
  induction h generalizing done with
  | @pure a' b h =>
    obtain ⟨rfl, rfl⟩ := runs_pure_iff.mp hrun
    exact ⟨[], b, Path.nil, h, rfl⟩
  -- both ask `o`, and `r` is the reply in both runs
  | @keep o next next' ho _ ih =>
    rcases hrun.head rfl with ⟨-, hpure⟩ | ⟨r, tail, rfl, htail⟩
    · cases hpure
    · obtain ⟨done', b, hrun', hab, hkept⟩ :=
        ih r htail fun x hx => hallowed x (List.mem_cons_of_mem _ hx)
      refine ⟨⟨o, r⟩ :: done', b, (Path.nil.concat r).append hrun', hab, ?_⟩
      simp only [kept, List.filter_cons, ho, Bool.not_false, if_true]
      exact congrArg _ hkept
  -- only the first asks `o`, and it was answered as allowed
  | @left o next q ho _ ih =>
    rcases hrun.head rfl with ⟨-, hpure⟩ | ⟨r, tail, rfl, htail⟩
    · cases hpure
    · obtain ⟨done', b, hrun', hab, hkept⟩ :=
        ih r (hallowed _ List.mem_cons_self ho) htail
          fun x hx => hallowed x (List.mem_cons_of_mem _ hx)
      refine ⟨done', b, hrun', hab, ?_⟩
      simp only [kept, List.filter_cons, ho, Bool.not_true, Bool.false_eq_true, if_false]
      exact hkept
  -- only the second asks `o`: its run takes the reply `r`
  | @right o p next ho r _ ih =>
    obtain ⟨done', b, hrun', hab, hkept⟩ := ih hrun hallowed
    refine ⟨⟨o, r⟩ :: done', b, (Path.nil.concat r).append hrun', hab, ?_⟩
    simp only [kept, List.filter_cons, ho, Bool.not_true, Bool.false_eq_true, if_false]
    exact hkept

end Erases

end Prog
