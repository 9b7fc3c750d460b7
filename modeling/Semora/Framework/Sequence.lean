import Semora.Framework.Machine
import Semora.Framework.Pool

/-! # Threads One After the Other

    A pool in which threads follow one another: once a later one has moved, no
    earlier one moves. Between two of its operations a thread is alone with
    the state, but for background threads that move whenever they like and do
    only what is known of them. So it is reasoned about as if it ran alone,
    and any assertion about the history may be used: of the last moment the
    thread moved, it still says what was so.

    * `Background`: which threads run in the background, and what they do.
    * `InSequence`: what the log of such a pool looks like.
    * `While`: an assertion, as long as it is the thread's turn. Every such
      assertion is stable.
    * `inSequence`: the contract with an invariant, and a condition on the
      events that may happen. -/

namespace Pool

variable {σ Op X C α β : Type} {Res : Op → Type} {ρ : C → Type}

/-! ## Section 1: Turns -/

/-- The threads that run in the background, and what they do to a history. -/
structure Background (σ C : Type) {Op : Type} (Res : Op → Type) where
  is : C → Bool
  rel : Hist σ C Res → Hist σ C Res → Prop
  refl : ∀ h, rel h h
  trans : ∀ {h₁ h₂ h₃}, rel h₁ h₂ → rel h₂ h₃ → rel h₁ h₃

/-- Nothing runs in the background. -/
def Background.none : Background σ C Res where
  is _ := false
  rel h h' := h' = h
  refl _ := rfl
  trans h h' := h'.trans h

/-- The threads of the log follow one another. -/
def InSequence (B : Background σ C Res) (log : List (Event σ C Res)) : Prop :=
  ((log.filter fun e => !B.is e.call).map Event.tid).Pairwise (· ≤ ·)

instance (B : Background σ C Res) (log : List (Event σ C Res)) : Decidable (InSequence B log) :=
  inferInstanceAs (Decidable (List.Pairwise _ _))

section turns

variable (B : Background σ C Res)

/-- Thread `i` has moved. -/
def Moved (i : Nat) (h : Hist σ C Res) : Prop := ∃ e ∈ h.log, B.is e.call = false ∧ e.tid = i

/-- A later thread than `i` has moved. -/
def Passed (i : Nat) (h : Hist σ C Res) : Prop := ∃ e ∈ h.log, B.is e.call = false ∧ i < e.tid

/-- No later thread than `i` has moved. -/
def Next (i : Nat) (h : Hist σ C Res) : Prop := ∀ e ∈ h.log, B.is e.call = false → e.tid ≤ i

/-- `P`, when `i` last moved, as long as it is its turn; of a thread that has not moved, what
    holds wherever it has not. -/
def While (i : Nat) (P : Hist σ C Res → Prop) (h : Hist σ C Res) : Prop :=
  (¬ Moved B i h ∧ ∀ h, ¬ Moved B i h → P h) ∨ Passed B i h ∨
    (Moved B i h ∧ ∃ last, P last ∧ B.rel last h)

variable {B}

theorem Moved.mono {i : Nat} {h h' : Hist σ C Res} (hmoved : Moved B i h)
    (hlog : h.log <+: h'.log) : Moved B i h' := by
  obtain ⟨e, he, hfore, heq⟩ := hmoved
  exact ⟨e, hlog.subset he, hfore, heq⟩

theorem Passed.mono {i : Nat} {h h' : Hist σ C Res} (hpassed : Passed B i h)
    (hlog : h.log <+: h'.log) : Passed B i h' := by
  obtain ⟨e, he, hfore, hlt⟩ := hpassed
  exact ⟨e, hlog.subset he, hfore, hlt⟩

theorem While.mono {i : Nat} {P Q : Hist σ C Res → Prop} {h : Hist σ C Res} (hpre : While B i P h)
    (hPQ : ∀ h, P h → Q h) : While B i Q h := by
  rcases hpre with ⟨hfresh, hall⟩ | hpassed | ⟨hmoved, last, hlast, hrel⟩
  · exact Or.inl ⟨hfresh, fun h hh => hPQ h (hall h hh)⟩
  · exact Or.inr (Or.inl hpassed)
  · exact Or.inr (Or.inr ⟨hmoved, last, hPQ last hlast, hrel⟩)

/-- In its turn the thread may use the assertion. -/
theorem While.here {i : Nat} {P : Hist σ C Res → Prop} {h : Hist σ C Res} (hpre : While B i P h)
    (hnext : Next B i h) : ∃ last, P last ∧ B.rel last h := by
  rcases hpre with ⟨hfresh, hall⟩ | ⟨e, he, hfore, hlt⟩ | hhere
  · exact ⟨h, hall h hfresh, B.refl h⟩
  · have hle : e.tid ≤ i := hnext e he hfore
    omega
  · exact hhere.2

/-- After an operation of its own. -/
theorem While.now {i : Nat} {P : Hist σ C Res → Prop} {h : Hist σ C Res} {call : C} {o : Op}
    {r : Res o} {s : σ} (hfore : B.is call = false)
    (hpost : P ⟨s, h.log ++ [⟨i, call, o, r, s⟩]⟩) :
    While B i P ⟨s, h.log ++ [⟨i, call, o, r, s⟩]⟩ := by
  refine Or.inr (Or.inr ⟨⟨⟨i, call, o, r, s⟩, ?_, hfore, rfl⟩, _, hpost, B.refl _⟩)
  simp

end turns

/-! ## Section 2: The contract -/

section contract

variable (B : Background σ C Res)

/-- What a thread may rely on: only the background moves between its operations, until it is
    passed. -/
structure SequenceRely (i : Nat) (h h' : Hist σ C Res) : Prop where
  log : h.log <+: h'.log
  fresh : Moved B i h' → Moved B i h
  alone : Moved B i h → Passed B i h' ∨ B.rel h h'

/-- What an operation guarantees. -/
structure SequenceGuar (I : Hist σ C Res → Prop) (i : Nat) (call : C) (h : Hist σ C Res) (o : Op)
    (r : Res o) (h' : Hist σ C Res) : Prop where
  log : h'.log = h.log ++ [⟨i, call, o, r, h'.now⟩]
  inv : I h'
  next : B.is call = false → Next B i h
  background : B.is call = true → B.rel h h'

variable {B}

theorem SequenceRely.refl (i : Nat) (h : Hist σ C Res) : SequenceRely B i h h :=
  ⟨List.prefix_refl _, id, fun _ => Or.inr (B.refl h)⟩

theorem SequenceRely.trans {i : Nat} {h₁ h₂ h₃ : Hist σ C Res} (h : SequenceRely B i h₁ h₂)
    (h' : SequenceRely B i h₂ h₃) : SequenceRely B i h₁ h₃ where
  log := h.log.trans h'.log
  fresh hmoved := h.fresh (h'.fresh hmoved)
  alone hmoved := by
    rcases h.alone hmoved with hpassed | hrel
    · exact Or.inl (hpassed.mono h'.log)
    · exact (h'.alone (hmoved.mono h.log)).imp id fun hrel' => B.trans hrel hrel'

theorem SequenceGuar.rely {I : Hist σ C Res → Prop} {i j : Nat} {call : C} {h h' : Hist σ C Res}
    {o : Op} {r : Res o} (hguar : SequenceGuar B I i call h o r h') (hne : j ≠ i) :
    SequenceRely B j h h' where
  log := by
    rw [hguar.log]
    exact List.prefix_append _ _
  fresh := by
    rintro ⟨e, he, hfore, htid⟩
    rw [hguar.log] at he
    rcases List.mem_append.mp he with he | he
    · exact ⟨e, he, hfore, htid⟩
    · obtain rfl := List.mem_singleton.mp he
      exact absurd htid.symm hne
  alone hmoved := by
    -- A background call leaves the others' ground alone; any other overtakes the earlier ones.
    cases hbg : B.is call with
    | true => exact Or.inr (hguar.background hbg)
    | false =>
      obtain ⟨e, he, hfore, rfl⟩ := hmoved
      have hle : e.tid ≤ i := hguar.next hbg e he hfore
      refine Or.inl ⟨⟨i, call, o, r, h'.now⟩, ?_, hbg, ?_⟩
      · rw [hguar.log]
        simp
      · show e.tid < i
        omega

variable (S : System σ X Res ρ)

/-- The contract of threads that follow one another: `I` is kept, and only such events happen as
    `A` allows. -/
def inSequence (B : Background σ C Res) (I : Hist σ C Res → Prop)
    (A : Hist σ C Res → Event σ C Res → Prop) :
    Contract σ X C Res where
  inv := I
  ok i call h o x := (B.is call = false → Next B i h) ∧
    A h ⟨i, call, o, (S.sem h.now x o).1, (S.sem h.now x o).2⟩
  rely := SequenceRely B
  guar := SequenceGuar B I
  rely_refl := SequenceRely.refl
  rely_trans := SequenceRely.trans
  keep _ hguar := hguar.inv
  others _ hguar hne := hguar.rely hne

variable {S} {I : Hist σ C Res → Prop} {A : Hist σ C Res → Event σ C Res → Prop} {i : Nat}

/-- Every assertion is stable in its thread's turn. -/
theorem stable_while (P : Hist σ C Res → Prop) : Stable (inSequence S B I A) i (While B i P) := by
  intro h h' hpre hrely _
  rcases hpre with ⟨hfresh, hall⟩ | hpassed | ⟨hmoved, last, hlast, hrel⟩
  · exact Or.inl ⟨fun hmoved => hfresh (hrely.fresh hmoved), hall⟩
  · exact Or.inr (Or.inl (hpassed.mono hrely.log))
  · rcases hrely.alone hmoved with hpassed | hrel'
    · exact Or.inr (Or.inl hpassed)
    · exact Or.inr (Or.inr ⟨hmoved.mono hrely.log, last, hlast, B.trans hrel hrel'⟩)

end contract

/-! ## Section 3: Rules -/

section rules

variable {S : System σ X Res ρ} {B : Background σ C Res} {I : Hist σ C Res → Prop}
  {A : Hist σ C Res → Event σ C Res → Prop} {i : Nat} {call : C} {P : Hist σ C Res → Prop}

/-- A triple of a thread in its turn. -/
def Serial (S : System σ X Res ρ) (B : Background σ C Res) (I : Hist σ C Res → Prop)
    (A : Hist σ C Res → Event σ C Res → Prop) (i : Nat) (call : C) (P : Hist σ C Res → Prop)
    (p : Prog Op Res α) (Q : α → Hist σ C Res → Prop) : Prop :=
  B.is call = false →
    Triple S (inSequence S B I A) i call (While B i P) p fun a => While B i (Q a)

/-- One operation, and what follows it. `last` is where the thread last moved. -/
theorem Serial.perform {Q : α → Hist σ C Res → Prop} {o : Op} {next : Res o → Prog Op Res α}
    {M : Res o → Hist σ C Res → Prop}
    (hop : ∀ last h r s, P last → B.rel last h → I h → Next B i h → A h ⟨i, call, o, r, s⟩ →
      (∃ x, S.sem h.now x o = (r, s)) →
        I ⟨s, h.log ++ [⟨i, call, o, r, s⟩]⟩ ∧ M r ⟨s, h.log ++ [⟨i, call, o, r, s⟩]⟩)
    (hnext : ∀ r, Serial S B I A i call (M r) (next r) Q) :
    Serial S B I A i call P (.perform o next) Q := by
  intro hfore
  refine Triple.perform (M := fun r => While B i (M r)) (stable_while P) ?_ fun r => hnext r hfore
  intro h x hinv hpre hok
  obtain ⟨last, hlast, hrel⟩ := hpre.here (hok.1 hfore)
  obtain ⟨hI, hM⟩ := hop last h _ _ hlast hrel hinv (hok.1 hfore) hok.2 ⟨x, rfl⟩
  refine ⟨⟨rfl, hI, hok.1, ?_⟩, While.now hfore hM⟩
  intro hbg
  rw [hfore] at hbg
  cases hbg

theorem Serial.pure {Q : α → Hist σ C Res → Prop} {a : α} (h : ∀ h, P h → Q a h) :
    Serial S B I A i call P (.pure a) Q :=
  fun _ => Triple.pure (stable_while P) fun _ _ hpre => hpre.mono h

theorem Serial.bind {Q : α → Hist σ C Res → Prop} {Q' : β → Hist σ C Res → Prop}
    {p : Prog Op Res α} {f : α → Prog Op Res β} (hp : Serial S B I A i call P p Q)
    (hf : ∀ a, Serial S B I A i call (Q a) (f a) Q') : Serial S B I A i call P (p >>= f) Q' :=
  fun hfore => Triple.bind (hp hfore) fun a => hf a hfore

theorem Serial.mono {P' : Hist σ C Res → Prop} {Q Q' : α → Hist σ C Res → Prop}
    {p : Prog Op Res α} (hP : ∀ h, P' h → P h) (hQ : ∀ a h, Q a h → Q' a h)
    (hp : Serial S B I A i call P p Q) : Serial S B I A i call P' p Q' :=
  fun hfore => Triple.mono (fun _ _ hpre => hpre.mono hP) (fun a _ _ hpost => hpost.mono (hQ a))
    (hp hfore)

/-- After what cannot be, the thread was passed and never moves again. -/
theorem Serial.absurd {Q : α → Hist σ C Res → Prop} {p : Prog Op Res α} (hP : ∀ h, ¬ P h) :
    Serial S B I A i call P p Q := by
  induction p generalizing P with
  | pure a => exact Serial.pure fun h hpre => (hP h hpre).elim
  | perform o next ih =>
    exact Serial.perform (M := fun _ _ => False) (fun last _ _ _ hlast => (hP last hlast).elim)
      fun r => ih r fun _ hfalse => hfalse

/-- A precondition that says something of the world but the history. -/
theorem Serial.known {a : Prop} {Q : α → Hist σ C Res → Prop} {p : Prog Op Res α}
    (ha : ∀ h, P h → a) (hp : a → Serial S B I A i call P p Q) : Serial S B I A i call P p Q := by
  by_cases hhere : a
  · exact hp hhere
  · exact Serial.absurd fun h hpre => hhere (ha h hpre)

/-- A precondition that names something, of a thread that has moved. -/
theorem Serial.exists {ι : Type} {P : ι → Hist σ C Res → Prop} {Q : α → Hist σ C Res → Prop}
    {p : Prog Op Res α} (hmoved : ∀ k h, P k h → Moved B i h)
    (hp : ∀ k, Serial S B I A i call (P k) p Q) :
    Serial S B I A i call (fun h => ∃ k, P k h) p Q := by
  intro hfore h hinv hpre
  rcases hpre with ⟨hfresh, hall⟩ | hpassed | ⟨hthere, last, ⟨k, hlast⟩, hrel⟩
  · obtain ⟨k, hk⟩ := hall h hfresh
    exact (hfresh (hmoved k h hk)).elim
  · have hnever : Serial S B I A i call (fun _ => False) p Q := Serial.absurd fun _ hfalse => hfalse
    exact hnever hfore h hinv (Or.inr (Or.inl hpassed))
  · exact hp k hfore h hinv (Or.inr (Or.inr ⟨hthere, last, hlast, hrel⟩))

/-- What every operation of the program keeps. -/
theorem Serial.invariant {φ : Op → Prop} {R : α → Prop} {p : Prog Op Res α} (hp : p.Ensures φ R)
    (hop : ∀ o, φ o → ∀ last h r s, P last → B.rel last h → I h → Next B i h →
      A h ⟨i, call, o, r, s⟩ → (∃ x, S.sem h.now x o = (r, s)) →
        I ⟨s, h.log ++ [⟨i, call, o, r, s⟩]⟩ ∧ P ⟨s, h.log ++ [⟨i, call, o, r, s⟩]⟩) :
    Serial S B I A i call P p fun a h => R a ∧ P h := by
  induction p with
  | pure a => exact Serial.pure fun _ hpre => ⟨hp, hpre⟩
  | perform o next ih =>
    exact Serial.perform (M := fun _ => P) (hop o hp.1) fun r => ih r (hp.2 r)

/-- A thread in its turn is safe from wherever it begins. -/
theorem Serial.safe {Q : α → Hist σ C Res → Prop} {p : Prog Op Res α} {h : Hist σ C Res}
    (hp : Serial S B I A i call (fun h => ¬ Moved B i h) p Q) (hfore : B.is call = false)
    (hinv : I h) (hfresh : ∀ e ∈ h.log, e.tid ≠ i) :
    Safe S (inSequence S B I A) i call (fun a => While B i (Q a)) p h := by
  refine hp hfore h hinv (Or.inl ⟨?_, fun _ hh => hh⟩)
  rintro ⟨e, he, _, htid⟩
  exact hfresh e he htid

end rules

/-! ## Section 4: Soundness -/

section soundness

variable {S : System σ X Res ρ} {B : Background σ C Res} {I : Hist σ C Res → Prop}
  {A : Hist σ C Res → Event σ C Res → Prop}

/-- The earlier threads of a log have moved before the later ones. -/
theorem InSequence.next {log : List (Event σ C Res)} (hlog : InSequence B log) {h : Hist σ C Res}
    {e : Event σ C Res} (hbelow : h.log ++ [e] <+: log) (hfore : B.is e.call = false) :
    Next B e.tid h := by
  intro d hd hdfore
  have hpair : (((h.log ++ [e]).filter fun e => !B.is e.call).map Event.tid).Pairwise (· ≤ ·) :=
    List.Pairwise.sublist ((hbelow.sublist.filter _).map _) hlog
  rw [List.filter_append, List.map_append, List.pairwise_append] at hpair
  refine hpair.2.2 d.tid ?_ e.tid ?_
  · exact List.mem_map_of_mem (List.mem_filter.mpr ⟨hd, by simp [hdfore]⟩)
  · simp [hfore]

/-- **Threads one after the other**: when each keeps the invariant in its turn, the invariant
    holds after every schedule in which they follow one another and only allowed events happen. -/
theorem sequence_after
    (hbody : ∀ i call, B.is call = false →
      Serial S B I A i call (fun h => ¬ Moved B i h) (S.body i call) fun _ _ => True)
    (hbackground : ∀ i call h, B.is call = true → I h →
      Safe S (inSequence S B I A) i call (fun _ _ => True) (S.body i call) h)
    {s : σ} (hinit : I ⟨s, []⟩) (schedule : List (Action C X))
    (hlog : InSequence B (S.after { hist := ⟨s, []⟩ } schedule).hist.log)
    (hallowed : Always (fun before e => A ⟨stateAfter s before, before⟩ e)
      (S.after { hist := ⟨s, []⟩ } schedule).hist.log) :
    I (S.after { hist := ⟨s, []⟩ } schedule).hist := by
  refine (contract_after (K := inSequence S B I A) ?_ (poolInv_init hinit) schedule
    (admissible_of_log rfl fun i call h o x hnow hbelow => ⟨?_, ?_⟩)).inv
  · intro i call h hinv hfresh
    -- The background keeps the invariant on its own; a call of the sequence does so from the start
    -- of its turn.
    cases hcall : B.is call with
    | true => exact hbackground i call h hcall hinv
    | false => exact ((hbody i call hcall).safe hcall hinv hfresh).mono fun _ _ _ _ => trivial
  · exact fun hfore => hlog.next hbelow hfore
  · obtain ⟨rest, hrest⟩ := hbelow
    have hsplit : h.log ++ ⟨i, call, o, (S.sem h.now x o).1, (S.sem h.now x o).2⟩ :: rest
        = (S.after { hist := ⟨s, []⟩ } schedule).hist.log := by simpa using hrest
    rw [← hsplit] at hallowed
    have hhere := hallowed.split
    rw [← hnow] at hhere
    exact hhere

/-! ## Section 5: One thread -/

/-- A thread alone, after some of its operations. -/
def alone (S : System σ X Res ρ) (s : σ) (call : C) (xs : List X) : World σ Res ρ :=
  S.after { hist := ⟨s, []⟩ } (.begin call :: xs.map (.run 0))

/-- **A thread alone**: what it keeps holds at any time, and what it leaves, when it is over. -/
theorem alone_after {call : C} {Q : ρ call → Hist σ C Res → Prop}
    (hbody : Serial S .none I (fun _ _ => True) 0 call (fun h => ¬ Moved .none 0 h)
      (S.body 0 call) Q)
    {s : σ} (hinit : I ⟨s, []⟩) (xs : List X) :
    I (alone S s call xs).hist ∧ ∃ rest, (alone S s call xs).threads 0 = some ⟨call, rest⟩ ∧
      ∀ a, rest = .pure a → Q a (alone S s call xs).hist := by
  suffices hrun : ∀ (w : World σ Res ρ) (rest : Prog Op Res (ρ call)),
      w.threads 0 = some ⟨call, rest⟩ → (∀ e ∈ w.hist.log, e.tid = 0) → I w.hist →
      Safe S (inSequence S .none I fun _ _ => True) 0 call (fun a => While .none 0 (Q a)) rest
        w.hist →
      I (S.after w (xs.map (.run 0))).hist ∧
        ∃ rest', (S.after w (xs.map (.run 0))).threads 0 = some ⟨call, rest'⟩ ∧
          ∀ a, rest' = .pure a → Q a (S.after w (xs.map (.run 0))).hist from
    hrun _ (S.body 0 call) rfl (by simp [System.act]) hinit
      (hbody.safe rfl hinit (by simp [System.act]))
  clear hinit
  induction xs with
  | nil =>
    intro w rest hthread hlog hinv hsafe
    refine ⟨hinv, rest, hthread, ?_⟩
    rintro a rfl
    -- nobody else has moved, so the thread was not passed
    obtain ⟨last, hlast, rfl⟩ := (hsafe w.hist (SequenceRely.refl 0 _) hinv).here
      fun e he _ => Nat.le_of_eq (hlog e he)
    exact hlast
  | cons x xs ih =>
    intro w rest hthread hlog hinv hsafe
    cases rest with
    | pure a =>
      have hact : S.act w (.run 0 x : Action C X) = w := by simp only [System.act, hthread]
      rw [List.map_cons, System.after_cons, hact]
      exact ih w (.pure a) hthread hlog hinv hsafe
    | perform o next =>
      obtain ⟨hguar, hnext⟩ := hsafe w.hist (SequenceRely.refl 0 _) hinv x
        ⟨fun _ e he _ => Nat.le_of_eq (hlog e he), trivial⟩
      rw [List.map_cons, System.after_cons]
      refine ih _ (next (S.perform w.hist 0 call x o).1) ?_ ?_ ?_ ?_
      · simp only [System.act, hthread]
        simp
      · simp only [System.act, hthread]
        intro e he
        rcases List.mem_append.mp he with he | he
        · exact hlog e he
        · obtain rfl := List.mem_singleton.mp he
          rfl
      · simp only [System.act, hthread]
        exact hguar.inv
      · simp only [System.act, hthread]
        exact hnext

end soundness

end Pool
