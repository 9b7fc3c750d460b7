import Semora.Framework.CompleteRuns
import Semora.Agent.Dispatch

/-! # Any Table of Transitions

    `CommandRouter`: a host may reorder the rows of the preset, drop one, or
    add its own, which may return what they like. Whatever the rows do, the
    table means the same thing: the state is observed once, if some row for
    the command asks for it; the rows that accept the command in that state
    are tried in order; the first that does not raise `Contended` settles it.
    `Contended` is raised again only when every row has handed the command on,
    and the transition is invalid only when there was none to offer it to. -/

namespace Semora

open Prog

namespace CommandRouter

section dispatch

variable {ρ : Type} (runtime : AgentRuntime) (execution : ExecutionContext) (command : Command)

/-! ## Section 1: What a table means -/

/-- The rows that accept the command in the observed state. -/
def accepting (router : CommandRouter ρ) (state : Option String) : List (Transition ρ) :=
  (router.candidates command).filter fun row => !row.rejects state

/-- A row at work. -/
def turn (state : Option String) (row : Transition ρ) :
    Prog Op Op.Reply (Except Raised ρ) := (row.apply command state).run

/-- What a dispatch through the table can exchange and come to. -/
inductive Routed (router : CommandRouter ρ) :
    List (Exchange Op.Reply) → Except Raised ρ → Prop where
  /-- The state that a row asks for could not be observed. -/
  | unseen {looked : List (Exchange Op.Reply)} {error : Raised}
      (h : Runs (observe runtime execution (router.candidates command)).run looked (.error error)) :
      Routed router looked (.error error)
  /-- A row has settled it, after those before it had handed it on. -/
  | taken {looked before rest : List (Exchange Op.Reply)} {state : Option String}
      {front back : List (Transition ρ)} {row : Transition ρ} {heard : Option Raised}
      {r : Except Raised ρ}
      (h : Runs (observe runtime execution (router.candidates command)).run looked (.ok state))
      (haccepting : router.accepting command state = front ++ row :: back)
      (hfront : HandedOn Raised.isContended (front.map (turn command state)) none before heard)
      (hrow : Runs (turn command state row) rest r) (hr : Settles Raised.isContended r) :
      Routed router (looked ++ (before ++ rest)) r
  /-- Every row has handed it on: what the last one raised is raised again. -/
  | contended {looked before : List (Exchange Op.Reply)} {state : Option String} {busy : Raised}
      (h : Runs (observe runtime execution (router.candidates command)).run looked (.ok state))
      (hrows : HandedOn Raised.isContended
        ((router.accepting command state).map (turn command state)) none before (some busy)) :
      Routed router (looked ++ before) (.error busy)
  /-- There was no row to offer it to. -/
  | refused {looked rest : List (Exchange Op.Reply)} {state : Option String} {name : String}
      (h : Runs (observe runtime execution (router.candidates command)).run looked (.ok state))
      (hnone : router.accepting command state = [])
      (hnamed : Runs (named runtime execution state).run rest (.ok name)) :
      Routed router (looked ++ rest) (.error (.invalidTransition name))
  /-- There was none, and the state that the refusal would name could not be observed. -/
  | unnamed {looked rest : List (Exchange Op.Reply)} {state : Option String} {error : Raised}
      (h : Runs (observe runtime execution (router.candidates command)).run looked (.ok state))
      (hnone : router.accepting command state = [])
      (hnamed : Runs (named runtime execution state).run rest (.error error)) :
      Routed router (looked ++ rest) (.error error)

/-! ## Section 2: The loop -/

/-- What is left to do when no row has settled it. -/
def left (state : Option String) : Option Raised → Prog Op Op.Reply (Except Raised ρ)
  | some busy => .pure (.error busy)
  | none => (named runtime execution state).run >>= fun
    | .ok name => .pure (.error (.invalidTransition name))
    | .error error => .pure (.error error)

/-- **The loop** passes over the rows that reject the state, and tries the others in order. -/
theorem offer_eq (state : Option String) (rows : List (Transition ρ)) (contended : Option Raised) :
    (offer runtime execution command state rows contended).run
      = tryEach Raised.isContended (left runtime execution state)
          ((rows.filter fun row => !row.rejects state).map (turn command state)) contended := by
  -- Induction on the rows: one that rejects the state is passed over, one that accepts is a turn of
  -- the loop.
  induction rows generalizing contended with
  | nil =>
    cases contended with
    | some busy => rfl
    | none =>
      refine congrArg ((named runtime execution state).run >>= ·) (funext fun r => ?_)
      cases r <;> rfl
  | cons row rows ih =>
    by_cases hrejects : row.rejects state = true
    · rw [offer_skip runtime execution command contended hrejects, ih,
        List.filter_cons_of_neg (by simp [hrejects])]
    · -- what the row comes to decides whether the rest of the loop is reached
      rw [List.filter_cons_of_pos (by simp [hrejects]), List.map_cons, offer, if_neg hrejects]
      refine congrArg ((row.apply command state).run >>= ·) (funext fun r => ?_)
      cases r with
      | ok dispatched => rfl
      | error error =>
        by_cases hcontended : error.isContended = true
        · simp only [hcontended, if_true]
          exact ih (some error)
        · simp only [hcontended, if_false, Bool.false_eq_true]
          rfl

/-- Programs that have handed on have left the error they handed on with. -/
theorem handedOn_heard {ps : List (Prog Op Op.Reply (Except Raised ρ))}
    {heard heard' : Option Raised} {done : List (Exchange Op.Reply)}
    (h : HandedOn Raised.isContended ps heard done heard') :
    (ps = [] ∧ done = [] ∧ heard' = heard) ∨ (ps ≠ [] ∧ ∃ busy, heard' = some busy) := by
  induction h with
  | nil => exact Or.inl ⟨rfl, rfl, rfl⟩
  | @cons p ps heard heard' done more e h he hrest ih =>
    rcases ih with ⟨-, -, rfl⟩ | ⟨-, hbusy⟩
    · exact Or.inr ⟨List.cons_ne_nil _ _, e, rfl⟩
    · exact Or.inr ⟨List.cons_ne_nil _ _, hbusy⟩

/-- The runs of a table, once its state is observed and its rows are tried in order. -/
theorem routed_iff {router : CommandRouter ρ}
    {done : List (Exchange Op.Reply)} {r : Except Raised ρ} :
    Runs ((observe runtime execution (router.candidates command)).run >>= fun
      | .ok state => tryEach Raised.isContended (left runtime execution state)
          ((router.accepting command state).map (turn command state)) none
      | .error error => .pure (.error error)) done r ↔
      Routed runtime execution command router done r := by
  rw [runs_bind_iff]
  constructor
  · rintro ⟨looked, rest, observed, rfl, hlooked, hrest⟩
    cases observed with
    | error error =>
      obtain ⟨rfl, rfl⟩ := runs_pure_iff.mp hrest
      rw [List.append_nil]
      exact Routed.unseen hlooked
    | ok state =>
      -- The loop stopped at a turn, or went through them all and ended as the last contention, or
      -- refused.
      rcases tryEach_runs_iff.mp hrest with ⟨p, ⟨front, back, before, turn', heard, hrows, hfront,
          hrow, rfl⟩, hsettles⟩ | ⟨before, rest, heard, hhanded, hleft, rfl⟩
      · obtain ⟨frontRows, others, haccepting, rfl, hothers⟩ := List.map_eq_append_iff.mp hrows
        obtain ⟨row, backRows, rfl, rfl, -⟩ := List.map_eq_cons_iff.mp hothers
        exact Routed.taken hlooked haccepting hfront hrow hsettles
      · cases heard with
        | some busy =>
          obtain ⟨rfl, rfl⟩ := runs_pure_iff.mp hleft
          rw [List.append_nil]
          exact Routed.contended hlooked hhanded
        | none =>
          have hnone : router.accepting command state = [] ∧ before = [] := by
            rcases handedOn_heard hhanded with ⟨hnil, hbefore, -⟩ | ⟨-, busy, hbusy⟩
            · exact ⟨List.map_eq_nil_iff.mp hnil, hbefore⟩
            · cases hbusy
          obtain ⟨hnone, rfl⟩ := hnone
          obtain ⟨front, back, name, rfl, hnamed, hback⟩ := runs_bind_iff.mp hleft
          cases name with
          | ok name =>
            obtain ⟨rfl, rfl⟩ := runs_pure_iff.mp hback
            rw [List.nil_append, List.append_nil]
            exact Routed.refused hlooked hnone hnamed
          | error error =>
            obtain ⟨rfl, rfl⟩ := runs_pure_iff.mp hback
            rw [List.nil_append, List.append_nil]
            exact Routed.unnamed hlooked hnone hnamed
  · intro h
    -- Conversely each way of being routed is a run of the loop.
    cases h with
    | unseen h => exact ⟨done, [], _, (List.append_nil _).symm, h, Path.nil⟩
    | @taken looked before rest state front back row heard r h haccepting hfront hrow hr =>
      refine ⟨looked, before ++ rest, _, rfl, h, ?_⟩
      refine tryEach_runs_iff.mpr (Or.inl ⟨turn command state row,
        ⟨_, back.map (turn command state),
        before, rest, heard, ?_, hfront, hrow, rfl⟩, hr⟩)
      rw [haccepting, List.map_append, List.map_cons]
    | @contended looked before state busy h hrows =>
      refine ⟨looked, before, _, rfl, h, ?_⟩
      exact tryEach_runs_iff.mpr (Or.inr ⟨before, [], some busy, hrows, Path.nil,
        (List.append_nil _).symm⟩)
    | @refused looked rest state name h hnone hnamed =>
      refine ⟨looked, rest, _, rfl, h, ?_⟩
      show Runs (tryEach _ _ ((router.accepting command state).map _) none) rest _
      rw [hnone]
      exact runs_bind_iff.mpr ⟨rest, [], _, (List.append_nil _).symm, hnamed, Path.nil⟩
    | @unnamed looked rest state error h hnone hnamed =>
      refine ⟨looked, rest, _, rfl, h, ?_⟩
      show Runs (tryEach _ _ ((router.accepting command state).map _) none) rest _
      rw [hnone]
      exact runs_bind_iff.mpr ⟨rest, [], _, (List.append_nil _).symm, hnamed, Path.nil⟩

/-! ## Section 3: Every table -/

/-- **What any table does**: for every list of rows, whatever they are, return and do, and whatever
    others do meanwhile, since a run takes any answer the world may give. Its complete runs are
    exactly those that `Routed` lists: nothing else can be exchanged, in no other order, and
    nothing else can come of it. -/
theorem dispatch_runs_iff (router : CommandRouter ρ) (done : List (Exchange Op.Reply))
    (r : Except Raised ρ) :
    Runs (router.dispatch runtime execution command).run done r ↔
      Routed runtime execution command router done r := by
  rw [← routed_iff]
  have hdispatch : (router.dispatch runtime execution command).run
      = (observe runtime execution (router.candidates command)).run >>= fun
        | .ok state => tryEach Raised.isContended (left runtime execution state)
            ((router.accepting command state).map (turn command state)) none
        | .error error => .pure (.error error) := by
    refine congrArg ((observe runtime execution (router.candidates command)).run >>= ·)
      (funext fun observed => ?_)
    cases observed with
    | error error => rfl
    | ok state => exact offer_eq runtime execution command state _ none
  rw [hdispatch]

end dispatch

end CommandRouter

end Semora
