import Semora.Framework.Prog

/-! # Complete Runs of Programs

    A run is complete when the program has come to its end. What a complete
    run exchanged with the outside is all there is to say about it, whoever
    else moved meanwhile.

    * `Runs`, and how the runs of a sequence fall apart; `exchanges`, the run
      with something that answers every operation;
    * `tryEach`: programs tried one after another, each of which may hand on
      to the next with an error of one kind. Its runs are the runs of those
      that handed on, followed by a run of the first that did not. -/

namespace Prog

variable {Op : Type} {Res : Op → Type} {α β ε : Type}

/-! ## Section 1: Runs -/

/-- The program exchanges `done`, and returns `a`. -/
abbrev Runs (p : Prog Op Res α) (done : List (Exchange Res)) (a : α) : Prop := Path p done (.pure a)

theorem runs_pure_iff {a b : α} {done : List (Exchange Res)} :
    Runs (.pure a : Prog Op Res α) done b ↔ done = [] ∧ b = a := by
  constructor
  · intro h
    obtain ⟨hdone, hb⟩ := h.of_pure rfl
    exact ⟨hdone, Prog.pure.inj hb⟩
  · rintro ⟨rfl, rfl⟩
    exact Path.nil

/-- Where one path ends, another goes on. -/
theorem Path.append {p q rest : Prog Op Res α} {front back : List (Exchange Res)}
    (hfront : Path p front q) (hback : Path q back rest) : Path p (front ++ back) rest := by
  induction hback with
  | nil =>
    rw [List.append_nil]
    exact hfront
  | concat _ r ih =>
    rw [← List.append_assoc]
    exact ih.concat r

/-- A path of the first part is a path of the sequence. -/
theorem Path.bind {p q : Prog Op Res α} {done : List (Exchange Res)} (h : Path p done q)
    (f : α → Prog Op Res β) : Path (p >>= f) done (q >>= f) := by
  induction h with
  | nil => exact Path.nil
  | concat _ r ih => exact ih.concat r

/-- **The runs of a sequence** are runs of its first part, followed by runs of the second. -/
theorem runs_bind_iff {p : Prog Op Res α} {f : α → Prog Op Res β} {done : List (Exchange Res)}
    {b : β} : Runs (p >>= f) done b ↔
      ∃ front back a, done = front ++ back ∧ Runs p front a ∧ Runs (f a) back b := by
  constructor
  · intro h
    rcases h.of_bind with ⟨q, hq, hrest⟩ | hsplit
    · -- the first part has not come to its end, so nothing follows it
      cases q with
      | pure a =>
        refine ⟨done, [], a, (List.append_nil done).symm, hq, ?_⟩
        have hend : f a = .pure b := hrest.symm
        rw [hend]
        exact Path.nil
      | perform o next => cases hrest
    · exact hsplit
  · rintro ⟨front, back, a, rfl, hfront, hback⟩
    exact (hfront.bind f).append hback

/-- What a program exchanges with something that answers from a state, and what it returns. -/
def exchanges {σ : Type} (answer : σ → (o : Op) → Res o × σ) :
    Prog Op Res α → σ → List (Exchange Res) × α
  | .pure a, _ => ([], a)
  | .perform o next, s =>
    let (r, s') := answer s o
    let (done, a) := (next r).exchanges answer s'
    (⟨o, r⟩ :: done, a)

theorem runs_exchanges {σ : Type} (answer : σ → (o : Op) → Res o × σ) (p : Prog Op Res α) (s : σ) :
    Runs p (p.exchanges answer s).1 (p.exchanges answer s).2 := by
  induction p generalizing s with
  | pure a => exact Path.nil
  | perform o next ih => exact (Path.nil.concat (answer s o).1).append (ih _ _)

/-! ## Section 2: One after another -/

/-- Programs tried in this order. One that fails with an error that hands on leaves it to the next,
    and when none is left, `last` is told the error that came last, if any. -/
def tryEach (handsOn : ε → Bool) (last : Option ε → Prog Op Res (Except ε α)) :
    List (Prog Op Res (Except ε α)) → Option ε → Prog Op Res (Except ε α)
  | [], heard => last heard
  | p :: ps, _ => p >>= fun
    | .ok a => .pure (.ok a)
    | .error e => if handsOn e then tryEach handsOn last ps (some e) else .pure (.error e)

variable {handsOn : ε → Bool} {last : Option ε → Prog Op Res (Except ε α)}

variable (handsOn) in
/-- The programs handed on one after another; the error heard last goes from `heard` to `heard'`. -/
inductive HandedOn : List (Prog Op Res (Except ε α)) → Option ε → List (Exchange Res) →
    Option ε → Prop where
  | nil {heard : Option ε} : HandedOn [] heard [] heard
  | cons {p : Prog Op Res (Except ε α)} {ps : List (Prog Op Res (Except ε α))}
      {heard heard' : Option ε} {done more : List (Exchange Res)} {e : ε}
      (h : Runs p done (.error e)) (he : handsOn e = true)
      (hrest : HandedOn ps (some e) more heard') :
      HandedOn (p :: ps) heard (done ++ more) heard'

variable (handsOn) in
/-- The result settles it: it is no error that hands on. -/
def Settles (r : Except ε α) : Prop := ∀ e, r = .error e → handsOn e = false

/-- The first program that settles it, after those that handed on. -/
structure SettledBy (handsOn : ε → Bool) (ps : List (Prog Op Res (Except ε α)))
    (heard : Option ε) (p : Prog Op Res (Except ε α)) (done : List (Exchange Res))
    (r : Except ε α) : Prop where
  tried : ∃ front back before turn heard', ps = front ++ p :: back ∧
    HandedOn handsOn front heard before heard' ∧ Runs p turn r ∧ done = before ++ turn
  settles : Settles handsOn r

/-- **The runs of programs tried in order**: those before handed on, and the first that did not has
    settled it; or all of them handed on, and it was left to `last`. -/
theorem tryEach_runs_iff {ps : List (Prog Op Res (Except ε α))} {heard : Option ε}
    {done : List (Exchange Res)} {r : Except ε α} :
    Runs (tryEach handsOn last ps heard) done r ↔
      (∃ p, SettledBy handsOn ps heard p done r) ∨
      ∃ before rest heard', HandedOn handsOn ps heard before heard' ∧ Runs (last heard') rest r ∧
        done = before ++ rest := by
  -- the induction is on the programs still to try; `heard` is what the last of those tried raised
  induction ps generalizing heard done with
  -- nobody is left: the run is that of `last`
  | nil =>
    constructor
    · intro h
      exact Or.inr ⟨[], done, heard, HandedOn.nil, h, rfl⟩
    · rintro (⟨p, ⟨⟨front, back, _, _, _, hnil, _⟩, _⟩⟩ | ⟨before, rest, heard', hhanded, hlast, rfl⟩)
      · exact absurd hnil.symm (List.append_ne_nil_of_right_ne_nil front (List.cons_ne_nil p back))
      · cases hhanded
        exact hlast
  | cons p ps ih =>
    show Runs (p >>= _) done r ↔ _
    rw [runs_bind_iff]
    constructor
    · -- a run of the list is a run of its first program, then of what its result leads to
      rintro ⟨turn, back, result, rfl, hturn, hback⟩
      have hfirst : Settles handsOn result → back = [] ∧ r = result →
          ∃ p', SettledBy handsOn (p :: ps) heard p' (turn ++ back) r := by
        rintro hsettles ⟨rfl, rfl⟩
        refine ⟨p, ⟨[], ps, [], turn, heard, rfl, HandedOn.nil, hturn, ?_⟩, hsettles⟩
        rw [List.append_nil, List.nil_append]
      cases result with
      | ok a =>
        -- a value settles it, with nothing after
        have hsettles : Settles handsOn (.ok a : Except ε α) := fun e he => nomatch he
        exact Or.inl (hfirst hsettles (runs_pure_iff.mp hback))
      | error e =>
        by_cases he : handsOn e = true
        · -- it is left to the others
          have hothers : Runs (tryEach handsOn last ps (some e)) back r := by
            simpa only [he, if_true] using hback
          rcases ih.mp hothers with ⟨p', ⟨front, rest, before, turn', heard', rfl, hbefore, hturn',
              rfl⟩, hsettles⟩ | ⟨before, rest, heard', hhanded, hlast, rfl⟩
          · refine Or.inl ⟨p', ⟨p :: front, rest, turn ++ before, turn', heard', rfl,
              hbefore.cons hturn he, hturn', ?_⟩, hsettles⟩
            rw [List.append_assoc]
          · refine Or.inr ⟨turn ++ before, rest, heard', hhanded.cons hturn he, hlast, ?_⟩
            rw [List.append_assoc]
        · -- an error that is not handed on settles it too
          have hfalse : handsOn e = false := eq_false_of_ne_true he
          have hsettles : Settles handsOn (.error e : Except ε α) := by
            intro e' he'
            rw [← Except.error.inj he']
            exact hfalse
          have hnothing : back = [] ∧ r = .error e := by
            simpa only [hfalse, Bool.false_eq_true, if_false, runs_pure_iff] using hback
          exact Or.inl (hfirst hsettles hnothing)
    · -- conversely, whether anybody was tried before the one that settles decides the run's first
      -- step
      rintro (⟨p', ⟨front, rest, before, turn, heard', hps, hbefore, hturn, rfl⟩, hsettles⟩ |
        ⟨before, rest, heard', hhanded, hlast, rfl⟩)
      · cases hbefore with
        | nil =>
          obtain ⟨rfl, rfl⟩ := List.cons.inj hps
          refine ⟨turn, [], r, by rw [List.append_nil, List.nil_append], hturn, ?_⟩
          cases r with
          | ok a => exact Path.nil
          | error e =>
            simp only [hsettles e rfl, Bool.false_eq_true, if_false]
            exact Path.nil
        | @cons _ others _ _ turn' more e h he hrest =>
          obtain ⟨rfl, rfl⟩ := List.cons.inj hps
          refine ⟨turn', more ++ turn, .error e, List.append_assoc .., h, ?_⟩
          simp only [he, if_true]
          exact ih.mpr (Or.inl ⟨p', ⟨others, rest, more, turn, heard', rfl, hrest, hturn, rfl⟩,
            hsettles⟩)
      · cases hhanded with
        | @cons _ _ _ _ turn more e h he hrest =>
          refine ⟨turn, more ++ rest, .error e, List.append_assoc .., h, ?_⟩
          simp only [he, if_true]
          exact ih.mpr (Or.inr ⟨more, rest, heard', hrest, hlast, rfl⟩)

end Prog
