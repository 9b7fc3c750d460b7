import Mathlib.Data.List.Induction
import Mathlib.Order.Basic

/-! # Deterministic Machines

    A machine answers one call at a time and moves to its next state. What
    it does over a whole history of calls is determined by the state it
    starts in.

    * `after`, `trace` and their invariant rules: what one call preserves, a
      history preserves; the rule `trace_invariant` also lets the property
      speak of the calls made so far and of the replies they got.
    * `Since`, the past-time operator in which such properties are said.
    * Noninterference by unwinding: if every call of one class keeps the
      state indistinguishable to an observer, and every other call keeps
      indistinguishable states indistinguishable, the observer cannot tell
      whether calls of that class were made at all. -/

/-- A state machine whose reply to a call may have a type of its own. -/
structure Machine (σ κ : Type) (ρ : κ → Type) where
  step : σ → (c : κ) → ρ c × σ

namespace Machine

variable {σ κ : Type} {ρ : κ → Type} (m : Machine σ κ ρ)

/-! ## Histories -/

/-- A loop keeps every quantity its body keeps. -/
theorem foldl_keeps {ι β : Type} {f : σ → β} {g : σ → ι → σ}
    (hg : ∀ s i, f (g s i) = f s) (s : σ) (items : List ι) : f (items.foldl g s) = f s := by
  induction items generalizing s with
  | nil => rfl
  | cons i items ih => rw [List.foldl_cons, ih, hg]

/-- The state after a history of calls. -/
def after (s : σ) (calls : List κ) : σ :=
  calls.foldl (fun s c => (m.step s c).2) s

/-- The reply to a call made in state `s`. -/
def reply (s : σ) (c : κ) : ρ c := (m.step s c).1

@[simp] theorem after_nil (s : σ) : m.after s [] = s := rfl

@[simp] theorem after_cons (s : σ) (c : κ) (calls : List κ) :
    m.after s (c :: calls) = m.after (m.step s c).2 calls := rfl

theorem after_append (s : σ) (calls more : List κ) :
    m.after s (calls ++ more) = m.after (m.after s calls) more := by
  simp [after, List.foldl_append]

@[simp] theorem after_concat (s : σ) (calls : List κ) (c : κ) :
    m.after s (calls ++ [c]) = (m.step (m.after s calls) c).2 := by
  simp [after_append]

/-- What every call preserves, every history preserves. -/
theorem after_invariant {I : σ → Prop} (hstep : ∀ s c, I s → I (m.step s c).2)
    {s : σ} (hs : I s) (calls : List κ) : I (m.after s calls) := by
  induction calls generalizing s with
  | nil => exact hs
  | cons c calls ih => exact ih (hstep s c hs)

/-- A call and the reply it got. -/
abbrev Event (ρ : κ → Type) : Type := Σ c, ρ c

/-- The calls of a history with their replies. -/
def trace (s : σ) : List κ → List (Event ρ)
  | [] => []
  | c :: calls => ⟨c, m.reply s c⟩ :: trace (m.step s c).2 calls

@[simp] theorem trace_nil (s : σ) : m.trace s [] = [] := rfl

theorem trace_concat (s : σ) (calls : List κ) (c : κ) :
    m.trace s (calls ++ [c]) = m.trace s calls ++ [⟨c, m.reply (m.after s calls) c⟩] := by
  induction calls generalizing s with
  | nil => rfl
  | cons d calls ih => simp [trace, ih]

/-- The calls of a trace are the calls of the history. -/
theorem mem_of_mem_trace {s : σ} {calls : List κ} {e : Event ρ} (h : e ∈ m.trace s calls) :
    e.1 ∈ calls := by
  induction calls generalizing s with
  | nil => cases h
  | cons c calls ih =>
    rcases List.mem_cons.mp h with rfl | h
    · exact List.mem_cons_self
    · exact List.mem_cons_of_mem _ (ih h)

/-- The invariant rule for properties of a trace and the state it leads to. -/
theorem trace_invariant {J : List (Event ρ) → σ → Prop} {s : σ} (hnil : J [] s)
    (hstep : ∀ tr t c, J tr t → J (tr ++ [⟨c, m.reply t c⟩]) (m.step t c).2)
    (calls : List κ) : J (m.trace s calls) (m.after s calls) := by
  induction calls using List.reverseRecOn with
  | nil => exact hnil
  | append_singleton calls c ih =>
    rw [trace_concat, after_concat]
    exact hstep _ _ c ih

/-! ## Moments of a history -/

/-- The state after the first `i` calls. -/
def upTo (s : σ) (calls : List κ) (i : Nat) : σ := m.after s (calls.take i)

theorem upTo_succ (s : σ) {calls : List κ} {i : Nat} {c : κ} (h : calls[i]? = some c) :
    m.upTo s calls (i + 1) = (m.step (m.upTo s calls i) c).2 := by
  unfold upTo
  rw [List.take_add_one, h]
  exact m.after_concat s (calls.take i) c

theorem upTo_of_none (s : σ) {calls : List κ} {i : Nat} (h : calls[i]? = none) :
    m.upTo s calls (i + 1) = m.upTo s calls i := by
  unfold upTo
  rw [List.take_add_one, h]
  simp

/-- What relates the states around every call relates any two moments. -/
theorem upTo_related {R : σ → σ → Prop} (hrefl : ∀ t, R t t)
    (htrans : ∀ t u v, R t u → R u v → R t v) {calls : List κ}
    (hstep : ∀ t, ∀ c ∈ calls, R t (m.step t c).2) (s : σ) {i j : Nat} (hij : i ≤ j) :
    R (m.upTo s calls i) (m.upTo s calls j) := by
  induction hij with
  | refl => exact hrefl _
  | @step j _ ih =>
    cases hc : calls[j]? with
    | none =>
      rw [upTo_of_none m s hc]
      exact ih
    | some c =>
      rw [upTo_succ m s hc]
      exact htrans _ _ _ ih (hstep _ c (List.mem_of_getElem? hc))

/-! ## Accounting -/

/-- The sum over a history of what every call weighs in the state it is made in. -/
def tally (w : σ → κ → Nat) (s : σ) : List κ → Nat
  | [] => 0
  | c :: calls => w s c + tally w (m.step s c).2 calls

@[simp] theorem tally_nil (w : σ → κ → Nat) (s : σ) : m.tally w s [] = 0 := rfl

theorem tally_concat (w : σ → κ → Nat) (s : σ) (calls : List κ) (c : κ) :
    m.tally w s (calls ++ [c]) = m.tally w s calls + w (m.after s calls) c := by
  induction calls generalizing s with
  | nil => simp [tally]
  | cons d calls ih =>
    simp only [List.cons_append, tally, ih, after_cons]
    omega

theorem tally_add (w v : σ → κ → Nat) (s : σ) (calls : List κ) :
    m.tally (fun s c => w s c + v s c) s calls = m.tally w s calls + m.tally v s calls := by
  induction calls generalizing s with
  | nil => rfl
  | cons c calls ih =>
    simp only [tally, ih]
    omega

/-- What every call pays for out of a credit, every history pays for out of it. -/
theorem tally_le {credit : σ → Nat} {spent gained : σ → κ → Nat}
    (hstep : ∀ s c, spent s c + credit (m.step s c).2 ≤ credit s + gained s c)
    (s : σ) (calls : List κ) :
    m.tally spent s calls + credit (m.after s calls) ≤ credit s + m.tally gained s calls := by
  induction calls generalizing s with
  | nil => simp
  | cons c calls ih =>
    have hhere := hstep s c
    have hrest := ih (m.step s c).2
    simp only [tally, after_cons]
    omega

/-! ## Noninterference -/

section noninterference

variable (high : κ → Bool) {E : σ → σ → Prop}

/-- **Unwinding**: dropping every call of class `high` from a history leaves a
    state the observer cannot tell from the one the whole history leads to. -/
theorem after_purge
    (hhigh : ∀ s t c, high c = true → E s t → E (m.step s c).2 t)
    (hlow : ∀ s t c, high c = false → E s t → E (m.step s c).2 (m.step t c).2)
    {s t : σ} (hE : E s t) (calls : List κ) :
    E (m.after s calls) (m.after t (calls.filter fun c => !high c)) := by
  induction calls generalizing s t with
  | nil => exact hE
  | cons c calls ih =>
    cases hc : high c with
    | true =>
      simp only [after_cons, List.filter_cons, hc, Bool.not_true, Bool.false_eq_true, if_false]
      exact ih (hhigh s t c hc hE)
    | false =>
      simp only [after_cons, List.filter_cons, hc, Bool.not_false, if_true]
      exact ih (hlow s t c hc hE)

end noninterference

end Machine

/-! ## Past-time properties of traces -/

section since

variable {ε : Type}

/-- `P` happened, and only what `Q` allows has happened since. -/
def Since (P Q : ε → Prop) (tr : List ε) : Prop :=
  ∃ before e rest, tr = before ++ e :: rest ∧ P e ∧ ∀ d ∈ rest, Q d

theorem not_since_nil {P Q : ε → Prop} : ¬ Since P Q [] := by
  rintro ⟨before, e, rest, h, _⟩
  simp at h

/-- The unfolding law of `Since`. -/
theorem since_concat {P Q : ε → Prop} {tr : List ε} {d : ε} :
    Since P Q (tr ++ [d]) ↔ P d ∨ (Since P Q tr ∧ Q d) := by
  constructor
  · rintro ⟨before, e, rest, h, hP, hQ⟩
    rcases List.eq_nil_or_concat rest with rfl | ⟨rest', d', rfl⟩
    · obtain ⟨_, rfl⟩ : tr = before ∧ d = e := by simpa using h
      exact Or.inl hP
    · have heq : tr ++ [d] = (before ++ e :: rest') ++ [d'] := by simpa using h
      obtain ⟨rfl, rfl⟩ : tr = before ++ e :: rest' ∧ d = d' := by
        simpa using List.append_inj' heq rfl
      refine Or.inr ⟨⟨before, e, rest', rfl, hP, ?_⟩, ?_⟩
      · exact fun x hx => hQ x (by simp [hx])
      · exact hQ d (by simp)
  · rintro (hP | ⟨⟨before, e, rest, rfl, hP, hQ⟩, hd⟩)
    · exact ⟨tr, d, [], rfl, hP, by simp⟩
    · refine ⟨before, e, rest ++ [d], by simp, hP, ?_⟩
      intro x hx
      rcases List.mem_append.mp hx with hx | hx
      · exact hQ x hx
      · cases List.mem_singleton.mp hx
        exact hd

/-- What does not begin it again cannot bring it about. -/
theorem Since.of_append {P Q : ε → Prop} {tr more : List ε} (h : Since P Q (tr ++ more))
    (hmore : ∀ d ∈ more, ¬ P d) : Since P Q tr := by
  induction more using List.reverseRecOn with
  | nil => simpa using h
  | append_singleton more d ih =>
    rw [← List.append_assoc, since_concat] at h
    rcases h with hP | ⟨h, _⟩
    · exact absurd hP (hmore d (by simp))
    · exact ih h fun e he => hmore e (by simp [he])

/-- What happened since still happened. -/
theorem Since.exists_mem {P Q : ε → Prop} {tr : List ε} (h : Since P Q tr) :
    ∃ e ∈ tr, P e := by
  obtain ⟨before, e, rest, rfl, hP, _⟩ := h
  exact ⟨e, by simp, hP⟩

end since

section last

variable {ε : Type}

/-- The last event of kind `P` in the trace, and what came before and after it. -/
structure LastOf (P : ε → Prop) (tr before : List ε) (e : ε) (rest : List ε) : Prop where
  split : tr = before ++ e :: rest
  isP : P e
  none : ∀ d ∈ rest, ¬ P d

/-- There is only one last event of a kind. -/
theorem LastOf.unique {P : ε → Prop} {tr b₁ b₂ r₁ r₂ : List ε} {e₁ e₂ : ε}
    (h₁ : LastOf P tr b₁ e₁ r₁) (h₂ : LastOf P tr b₂ e₂ r₂) : b₁ = b₂ ∧ e₁ = e₂ ∧ r₁ = r₂ := by
  have heq : b₁ ++ e₁ :: r₁ = b₂ ++ e₂ :: r₂ := h₁.split.symm.trans h₂.split
  rcases List.append_eq_append_iff.mp heq with ⟨more, hb, hr⟩ | ⟨more, hb, hr⟩
  · cases more with
    | nil =>
      obtain ⟨rfl, rfl⟩ : e₁ = e₂ ∧ r₁ = r₂ := by simpa using hr
      exact ⟨by simpa using hb.symm, rfl, rfl⟩
    | cons d more =>
      obtain ⟨rfl, rfl⟩ : e₁ = d ∧ r₁ = more ++ e₂ :: r₂ := by simpa using hr
      exact absurd h₂.isP (h₁.none e₂ (by simp))
  · cases more with
    | nil =>
      obtain ⟨rfl, rfl⟩ : e₂ = e₁ ∧ r₂ = r₁ := by simpa using hr
      exact ⟨by simpa using hb, rfl, rfl⟩
    | cons d more =>
      obtain ⟨rfl, rfl⟩ : e₂ = d ∧ r₂ = more ++ e₁ :: r₁ := by simpa using hr
      exact absurd h₁.isP (h₂.none e₁ (by simp))

/-- More events of other kinds leave the last one the last. -/
theorem LastOf.append {P : ε → Prop} {tr before rest more : List ε} {e : ε}
    (h : LastOf P tr before e rest) (hmore : ∀ d ∈ more, ¬ P d) :
    LastOf P (tr ++ more) before e (rest ++ more) where
  split := by simp [h.split]
  isP := h.isP
  none d hd := by
    rcases List.mem_append.mp hd with hd | hd
    · exact h.none d hd
    · exact hmore d hd

theorem LastOf.of_append {P : ε → Prop} {tr more before rest : List ε} {e : ε}
    (h : LastOf P (tr ++ more) before e rest) (hmore : ∀ d ∈ more, ¬ P d) :
    ∃ rest', rest = rest' ++ more ∧ LastOf P tr before e rest' := by
  rcases List.append_eq_append_iff.mp h.split with ⟨mid, hbefore, hrest⟩ | ⟨mid, htr, hrest⟩
  · exact absurd h.isP (hmore e (by rw [hrest]; simp))
  · cases mid with
    | nil => exact absurd h.isP (hmore e (by rw [← List.nil_append more, ← hrest]; simp))
    | cons d mid =>
      obtain ⟨rfl, rfl⟩ : e = d ∧ rest = mid ++ more := by simpa using hrest
      exact ⟨mid, rfl, htr, h.isP, fun d hd => h.none d (by simp [hd])⟩

theorem LastOf.of_concat {P : ε → Prop} {tr before rest : List ε} {d e : ε}
    (h : LastOf P (tr ++ [d]) before e rest) (hd : ¬ P d) :
    ∃ rest', rest = rest' ++ [d] ∧ LastOf P tr before e rest' :=
  h.of_append fun _ hx => List.mem_singleton.mp hx ▸ hd

/-- A new event of the kind is the last one. -/
theorem LastOf.concat {P : ε → Prop} (tr : List ε) {e : ε} (h : P e) :
    LastOf P (tr ++ [e]) tr e [] :=
  ⟨rfl, h, fun _ hd => nomatch hd⟩

end last

section always

variable {ε : Type}

/-- At every event of the trace, `P` holds of what came before it and the event. -/
def Always (P : List ε → ε → Prop) (tr : List ε) : Prop :=
  ∀ j e, tr[j]? = some e → P (tr.take j) e

theorem always_nil {P : List ε → ε → Prop} : Always P [] := by
  intro j e h
  simp at h

/-- The unfolding law of `Always`. -/
theorem always_concat {P : List ε → ε → Prop} {tr : List ε} {d : ε} :
    Always P (tr ++ [d]) ↔ Always P tr ∧ P tr d := by
  constructor
  · intro h
    refine ⟨fun j e hj => ?_, ?_⟩
    · have hlt : j < tr.length := (List.getElem?_eq_some_iff.mp hj).1
      have hP := h j e (by rw [List.getElem?_append_left hlt]; exact hj)
      rwa [List.take_append_of_le_length (Nat.le_of_lt hlt)] at hP
    · have hP := h tr.length d (by simp)
      simpa using hP
  · rintro ⟨h, hd⟩ j e hj
    by_cases hlt : j < tr.length
    · rw [List.getElem?_append_left hlt] at hj
      rw [List.take_append_of_le_length (Nat.le_of_lt hlt)]
      exact h j e hj
    · have hj' : j = tr.length := by
        have := (List.getElem?_eq_some_iff.mp hj).1
        simp at this
        omega
      subst hj'
      obtain rfl : d = e := by simpa using hj
      simpa using hd

/-- What is always so was so at every earlier point. -/
theorem Always.take {P : List ε → ε → Prop} {tr : List ε} (h : Always P tr) (n : Nat) :
    Always P (tr.take n) := by
  intro j e hj
  have hlt : j < n := by
    have := (List.getElem?_eq_some_iff.mp hj).1
    rw [List.length_take] at this
    omega
  rw [List.getElem?_take_of_lt hlt] at hj
  have hP := h j e hj
  rwa [List.take_take, Nat.min_eq_left (Nat.le_of_lt hlt)]

/-- It was so at the event between two parts of the trace. -/
theorem Always.split {P : List ε → ε → Prop} {before rest : List ε} {e : ε}
    (h : Always P (before ++ e :: rest)) : P before e := by
  have hP := h before.length e (by simp)
  rwa [List.take_left] at hP

/-- `P` holds at every event of the rest of the trace. -/
def alwaysFrom (P : List ε → ε → Prop) (before : List ε) : List ε → Prop
  | [] => True
  | e :: rest => P before e ∧ alwaysFrom P (before ++ [e]) rest

theorem always_of_alwaysFrom {P : List ε → ε → Prop} {before rest : List ε}
    (h : Always P before) (hrest : alwaysFrom P before rest) : Always P (before ++ rest) := by
  induction rest generalizing before with
  | nil => simpa using h
  | cons e rest ih =>
    have hmore := ih (always_concat.mpr ⟨h, hrest.1⟩) hrest.2
    simpa using hmore

theorem alwaysFrom_of_always {P : List ε → ε → Prop} {before rest : List ε}
    (h : Always P (before ++ rest)) : alwaysFrom P before rest := by
  induction rest generalizing before with
  | nil => exact trivial
  | cons e rest ih =>
    refine ⟨?_, ih (by simpa using h)⟩
    simpa using h before.length e (by simp)

instance decidableAlwaysFrom (P : List ε → ε → Prop) [∀ before e, Decidable (P before e)]
    (before : List ε) : (rest : List ε) → Decidable (alwaysFrom P before rest)
  | [] => isTrue trivial
  | e :: rest =>
    have := decidableAlwaysFrom P (before ++ [e]) rest
    inferInstanceAs (Decidable (P before e ∧ alwaysFrom P (before ++ [e]) rest))

/-- Whether something is always so can be computed from the trace. -/
instance (P : List ε → ε → Prop) [∀ before e, Decidable (P before e)] (tr : List ε) :
    Decidable (Always P tr) :=
  decidable_of_iff (alwaysFrom P [] tr)
    ⟨always_of_alwaysFrom always_nil, fun h => alwaysFrom_of_always (List.nil_append tr ▸ h)⟩

end always
