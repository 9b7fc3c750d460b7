import Semora.Store.Effects

/-! # The Versions of an Effect

    A step that is only ever written as an effect makes one kind of move at a
    time, and every move that changes it raises its version. So a completed
    effect is immutable, and a version names one running episode: who
    observed an attempt cannot decide about a later one by mistake. -/

namespace Semora

variable {V : Type}

/-! ## Section 1: The moves of an effect -/

/-- The steps a call writes as control state. -/
def LedgerOp.controlKeys : LedgerOp V → List String
  | .writeControl _ key _ _ => [key]
  | .commitTransition _ transition _ => transition.controls.items.map Prod.fst
  | _ => []

theorem LedgerOp.keys_of_controlKeys {op : LedgerOp V} {key : String}
    (h : key ∈ op.controlKeys) : key ∈ op.keys := by
  cases op with
  | writeControl b key' value token => exact h
  | commitTransition b transition token => exact List.mem_append_right _ h
  | _ => cases h

/-- What one call can do to a step it does not write as control state. -/
inductive EffectMove : Step V → Step V → Prop where
  | same (st : Step V) : EffectMove st st
  | started (st : Step V) (hfree : st.status = .absent ∨ st.status = .ready) :
      EffectMove st { status := .running, version := st.version + 1 }
  | completed (st : Step V) (value : Option V)
      (hopen : st.status = .running ∨ st.status = .absent) :
      EffectMove st { status := .done, value := value, version := st.version + 1 }
  | cleared (st : Step V) (hrunning : st.status = .running) :
      EffectMove st { status := .absent, version := st.version + 1 }
  | regranted (st : Step V) (hrunning : st.status = .running) :
      EffectMove st { status := .ready, version := st.version + 1 }

/-- How far a step has come from one moment to a later one. -/
structure Advances (st st' : Step V) : Prop where
  done : st.status = .done → st'.status = .done ∧ st'.value = st.value
  version : st.version ≤ st'.version
  changed : st'.status ≠ st.status ∨ st'.value ≠ st.value → st.version < st'.version

theorem Advances.refl (st : Step V) : Advances st st where
  done h := ⟨h, rfl⟩
  version := Nat.le_refl _
  changed h := h.elim (fun hne => absurd rfl hne) fun hne => absurd rfl hne

theorem Advances.trans {st st' st'' : Step V} (h : Advances st st') (h' : Advances st' st'') :
    Advances st st'' where
  done hdone := by
    have hmid : st'.status = .done ∧ st'.value = st.value := h.done hdone
    have hlast : st''.status = .done ∧ st''.value = st'.value := h'.done hmid.1
    exact ⟨hlast.1, hlast.2.trans hmid.2⟩
  version := Nat.le_trans h.version h'.version
  changed hne := by
    have hle : st.version ≤ st'.version := h.version
    have hle' : st'.version ≤ st''.version := h'.version
    by_cases hsame : st'.status = st.status ∧ st'.value = st.value
    · -- the second half of the way changed it
      rw [← hsame.1, ← hsame.2] at hne
      have hlt : st'.version < st''.version := h'.changed hne
      omega
    · have hlt : st.version < st'.version := h.changed (by tauto)
      omega

/-- Every move advances. -/
theorem EffectMove.advances {st st' : Step V} (h : EffectMove st st') : Advances st st' := by
  cases h with
  | same => exact Advances.refl st
  | started hfree =>
    refine ⟨?_, Nat.le_succ _, fun _ => Nat.lt_succ_self _⟩
    intro hdone
    rcases hfree with hfree | hfree <;> simp [hdone] at hfree
  | completed value hopen =>
    refine ⟨?_, Nat.le_succ _, fun _ => Nat.lt_succ_self _⟩
    intro hdone
    rcases hopen with hopen | hopen <;> simp [hdone] at hopen
  | cleared hrunning =>
    refine ⟨?_, Nat.le_succ _, fun _ => Nat.lt_succ_self _⟩
    intro hdone
    simp [hdone] at hrunning
  | regranted hrunning =>
    refine ⟨?_, Nat.le_succ _, fun _ => Nat.lt_succ_self _⟩
    intro hdone
    simp [hdone] at hrunning

/-! ## Section 2: The moves of a transition -/

namespace MemorySteps

/-- What a transition plans to complete is open, and gets the next version. -/
theorem planEffects_open [BEq V] {s : MemorySteps V} {b : String}
    {effects : List (EffectCompletion V)} {seen : List String}
    {completed : List (String × Option V × Nat)}
    (h : s.planEffects b effects seen = .ok completed) :
    ∀ item ∈ completed, ((s.entry b item.1).status = .running ∨
      (s.entry b item.1).status = .absent) ∧ item.2.2 = (s.entry b item.1).version + 1 := by
  -- Induction on the effects: what is planned was in its expected status, which is never `done`.
  induction effects generalizing seen completed with
  | nil =>
    cases h
    intro item hitem
    cases hitem
  | cons effect rest ih =>
    unfold planEffects at h
    split at h
    · cases h
    · dsimp only at h
      split at h
      · split at h
        · cases h
        · exact ih h
      · split at h
        · cases h
        · next hexpected =>
          have hstatus : (s.entry b effect.key).status = effect.expected.status :=
            not_not.mp hexpected
          split at h
          · cases h
          · next more hmore =>
            cases h
            intro item hitem
            rcases List.mem_cons.mp hitem with rfl | hitem
            · refine ⟨?_, rfl⟩
              rw [hstatus]
              cases effect.expected with
              | absent => exact Or.inr rfl
              | running => exact Or.inl rfl
            · exact ih hmore item hitem

/-- A step is left, or gets what one of the completions says. -/
theorem applyCompleted_cases (s : MemorySteps V) (b b' : String)
    (completed : List (String × Option V × Nat)) (key : String) :
    (s.applyCompleted b' completed).entry b key = s.entry b key ∨
    ∃ item ∈ completed, b = b' ∧ item.1 = key ∧ (s.applyCompleted b' completed).entry b key
      = { status := .done, value := item.2.1, version := item.2.2 } := by
  induction completed using List.reverseRecOn with
  | nil => exact Or.inl rfl
  | append_singleton completed item ih =>
    have hlast : s.applyCompleted b' (completed ++ [item])
        = (s.applyCompleted b' completed).setEntry b' item.1
          { status := .done, value := item.2.1, version := item.2.2 } := by
      simp [applyCompleted, List.foldl_append]
    rw [hlast, entry_setEntry]
    by_cases hitem : b = b' ∧ key = item.1
    · rw [if_pos hitem]
      exact Or.inr ⟨item, by simp, hitem.1, hitem.2.symm, rfl⟩
    · rw [if_neg hitem]
      rcases ih with hsame | ⟨found, hfound, hb, hkey, heq⟩
      · exact Or.inl hsame
      · exact Or.inr ⟨found, by simp [hfound], hb, hkey, heq⟩

/-- A transition moves an effect at most once. -/
theorem commitTransition_move [BEq V] (s : MemorySteps V) (b b' key : String)
    (transition : ExecutionTransition V) (token : Int)
    (h : b' ≠ b ∨ key ∉ transition.controls.items.map Prod.fst) :
    EffectMove (s.entry b key) ((s.commitTransition b' transition token).2.entry b key) := by
  by_cases hb : b' = b
  · subst hb
    have hkey : key ∉ transition.controls.items.map Prod.fst := h.resolve_left fun hne => hne rfl
    unfold commitTransition
    rcases fenced_cases s b' token _ with heq | ⟨_, _, heq⟩
    · rw [heq]
      split
      · exact .same _
      · next completed hplan =>
        split
        · exact .same _
        · dsimp only
          have hcontrols : ∀ item ∈ transition.controls.items, item.1 ≠ key := by
            intro item hitem heq
            exact hkey (List.mem_map.mpr ⟨item, hitem, heq⟩)
          rw [applyInputs_entry, applyControls_entry _ _ _ hcontrols]
          -- Controls and inputs leave the step, so it is as before, or was completed once.
          rcases applyCompleted_cases s b' b' completed key with
            hsame | ⟨item, hitem, _, rfl, hdone⟩
          · rw [hsame]
            exact .same _
          · obtain ⟨hopen, hversion⟩ := planEffects_open hplan item hitem
            rw [hdone, hversion]
            exact .completed _ _ hopen
    · rw [heq]
      exact .same _
  · have hentry : ((LedgerOp.commitTransition b' transition token).perform 0 0 s).2.entry b key
        = s.entry b key := perform_entry _ 0 0 s (Or.inl hb)
    have hsame : (s.commitTransition b' transition token).2.entry b key = s.entry b key := hentry
    rw [hsame]
    exact .same _

/-! ## Section 3: One call -/

/-- **A call moves an effect in one of the five ways**, when it does not write it as control
    state. -/
theorem perform_move [BEq V] (op : LedgerOp V) (now later : ℚ) (s : MemorySteps V)
    {b key : String} (h : op.branchId ≠ b ∨ key ∉ op.controlKeys) :
    EffectMove (s.entry b key) ((op.perform now later s).2.entry b key) := by
  -- A call about another step leaves it; each of the others moves it as its spec lemma says.
  by_cases hop : op.branchId ≠ b ∨ key ∉ op.keys
  · rw [perform_entry op now later s hop]
    exact .same _
  · obtain ⟨hb, hkey⟩ : op.branchId = b ∧ key ∈ op.keys := by
      simpa only [not_or, not_not] using hop
    cases op with
    | start b' key' token =>
      obtain ⟨rfl, rfl⟩ : b' = b ∧ key = key' := by
        simpa [LedgerOp.branchId, LedgerOp.keys] using And.intro hb hkey
      show EffectMove _ ((s.start b' key token).2.entry b' key)
      rcases start_cases s b' key token with ⟨_, heq⟩ | heq | ⟨hrunning, hdone, heq⟩
      · rw [heq]; exact .same _
      · rw [heq]; exact .same _
      · rw [heq, entry_setEntry_self]
        refine .started _ ?_
        -- Begun from `absent` or `ready`: it was neither running nor done.
        cases hstatus : (s.entry b' key).status with
        | absent => exact Or.inl rfl
        | ready => exact Or.inr rfl
        | running => exact absurd hstatus hrunning
        | done => exact absurd hstatus hdone
    | finishEffect b' key' value token =>
      obtain ⟨rfl, rfl⟩ : b' = b ∧ key = key' := by
        simpa [LedgerOp.branchId, LedgerOp.keys] using And.intro hb hkey
      show EffectMove _ ((s.finishEffect b' key value token).2.entry b' key)
      rcases finishEffect_cases s b' key value token with ⟨_, heq⟩ | ⟨_, _, heq⟩ | ⟨hrunning, heq⟩
      · rw [heq]; exact .same _
      · rw [heq]; exact .same _
      · rw [heq, entry_setEntry_self]
        exact .completed _ value (Or.inl hrunning)
    | resolveEffect b' key' resolution workersStopped token =>
      obtain ⟨rfl, rfl⟩ : b' = b ∧ key = key' := by
        simpa [LedgerOp.branchId, LedgerOp.keys] using And.intro hb hkey
      show EffectMove _ ((s.resolveEffect b' key resolution workersStopped token).2.entry b' key)
      rcases resolveEffect_cases s b' key resolution workersStopped token with
        ⟨_, heq⟩ | ⟨_, _, _, _, _, heq⟩ | ⟨_, _, _, hrunning, _, heq⟩
      · rw [heq]; exact .same _
      · rw [heq]; exact .same _
      · have hentry : (s.resolveEffect b' key resolution workersStopped token).2.entry b' key
            = resolved resolution (s.entry b' key).version := by
          rw [heq]
          exact entry_setEntry_self ..
        rw [hentry]
        unfold resolved
        cases resolution.action with
        | complete => exact .completed _ _ (Or.inl hrunning)
        | retry => exact .regranted _ hrunning
    | writeControl b' key' value token =>
      obtain ⟨rfl, rfl⟩ : b' = b ∧ key = key' := by
        simpa [LedgerOp.branchId, LedgerOp.keys] using And.intro hb hkey
      simp [LedgerOp.branchId, LedgerOp.controlKeys] at h
    | forget b' key' token =>
      obtain ⟨rfl, rfl⟩ : b' = b ∧ key = key' := by
        simpa [LedgerOp.branchId, LedgerOp.keys] using And.intro hb hkey
      show EffectMove _ ((s.forget b' key token).2.entry b' key)
      rcases forget_cases s b' key token with ⟨_, heq⟩ | ⟨hrunning, heq⟩ | ⟨_, heq⟩
      · rw [heq]; exact .same _
      · rw [heq, entry_setEntry_self]
        exact .cleared _ hrunning
      · rw [heq]; exact .same _
    | commitTransition b' transition token =>
      exact commitTransition_move s b b' key transition token h
    | _ => simp [LedgerOp.keys] at hkey

end MemorySteps

/-! ## Section 4: A run -/

/-- The step at a moment of a run. -/
def stepAt [BEq V] (s : MemorySteps V) (calls : List (LedgerCall V)) (b key : String) (i : Nat) :
    Step V :=
  ((ledger V).upTo s calls i).entry b key

/-- No call of the run writes the step as control state. A control may be written over and over;
    a key that is used as both is not an effect any more. -/
def NeverControl (calls : List (LedgerCall V)) (b key : String) : Prop :=
  ∀ c ∈ calls, c.op.branchId = b → key ∉ c.op.controlKeys

theorem stepAt_advances [BEq V] {s : MemorySteps V} {calls : List (LedgerCall V)} {b key : String}
    (hcontrol : NeverControl calls b key) {i j : Nat} (hij : i ≤ j) :
    Advances (stepAt s calls b key i) (stepAt s calls b key j) := by
  have hrefl : ∀ t : MemorySteps V, Advances (t.entry b key) (t.entry b key) :=
    fun t => Advances.refl _
  have htrans : ∀ t u v : MemorySteps V, Advances (t.entry b key) (u.entry b key) →
      Advances (u.entry b key) (v.entry b key) → Advances (t.entry b key) (v.entry b key) :=
    fun _ _ _ h h' => h.trans h'
  have hstep : ∀ t : MemorySteps V, ∀ c ∈ calls,
      Advances (t.entry b key) (((ledger V).step t c).2.entry b key) := by
    intro t c hc
    have hnot : c.op.branchId ≠ b ∨ key ∉ c.op.controlKeys := by
      by_cases hb : c.op.branchId = b
      · exact Or.inr (hcontrol c hc hb)
      · exact Or.inl hb
    exact (MemorySteps.perform_move c.op c.now c.later t hnot).advances
  exact (ledger V).upTo_related hrefl htrans hstep s hij

/-- **Completed effects are immutable and versions never repeat**, in every run that never
    writes the step as control state: once it is completed with a value it stays so; its
    version never falls, and has risen wherever its status or value was another one in
    between; and two running episodes never have the same version. -/
theorem effect_immutable_versions_unique [BEq V] (s : MemorySteps V)
    (calls : List (LedgerCall V)) (b key : String) (hcontrol : NeverControl calls b key) :
    (∀ i j, i ≤ j → (stepAt s calls b key i).status = .done →
      (stepAt s calls b key j).status = .done ∧
        (stepAt s calls b key j).value = (stepAt s calls b key i).value) ∧
    (∀ i j, i ≤ j → (stepAt s calls b key i).version ≤ (stepAt s calls b key j).version) ∧
    (∀ i k j, i ≤ k → k ≤ j →
      (stepAt s calls b key k).status ≠ (stepAt s calls b key i).status ∨
        (stepAt s calls b key k).value ≠ (stepAt s calls b key i).value →
      (stepAt s calls b key i).version < (stepAt s calls b key j).version) ∧
    (∀ i k j, i ≤ k → k ≤ j → (stepAt s calls b key i).status = .running →
      (stepAt s calls b key k).status ≠ .running →
      (stepAt s calls b key j).status = .running →
      (stepAt s calls b key i).version ≠ (stepAt s calls b key j).version) := by
  -- A change anywhere between raises the version there, and it never falls again.
  have hrises : ∀ i k j, i ≤ k → k ≤ j →
      (stepAt s calls b key k).status ≠ (stepAt s calls b key i).status ∨
        (stepAt s calls b key k).value ≠ (stepAt s calls b key i).value →
      (stepAt s calls b key i).version < (stepAt s calls b key j).version := by
    intro i k j hik hkj hne
    have hlt := (stepAt_advances (s := s) hcontrol hik).changed hne
    have hle := (stepAt_advances (s := s) hcontrol hkj).version
    omega
  refine ⟨?_, ?_, hrises, ?_⟩
  · intro i j hij hdone
    exact (stepAt_advances hcontrol hij).done hdone
  · intro i j hij
    exact (stepAt_advances hcontrol hij).version
  · -- A step that runs again has changed in between, so its version is another.
    intro i k j hik hkj hrunning hother _
    have hne : (stepAt s calls b key k).status ≠ (stepAt s calls b key i).status := by
      intro heq
      exact hother (heq.trans hrunning)
    have hlt := hrises i k j hik hkj (Or.inl hne)
    omega

/-- An attempt, forgotten, and another attempt that completes. -/
def forgottenAttempt : List (LedgerCall Nat) :=
  [⟨.start "b" "k" 0, 0, 0⟩, ⟨.forget "b" "k" 0, 0, 0⟩, ⟨.start "b" "k" 0, 0, 0⟩,
    ⟨.finishEffect "b" "k" (some 7) 0, 0, 0⟩]

theorem effect_immutable_versions_unique_forgotten :
    (stepAt MemorySteps.init forgottenAttempt "b" "k" 1).version
      ≠ (stepAt MemorySteps.init forgottenAttempt "b" "k" 3).version := by
  have hcontrol : NeverControl forgottenAttempt "b" "k" := by
    simp [NeverControl, forgottenAttempt, LedgerOp.controlKeys]
  exact (effect_immutable_versions_unique MemorySteps.init forgottenAttempt "b" "k" hcontrol).2.2.2
    1 2 3 (by decide) (by decide) (by decide +kernel) (by decide +kernel) (by decide +kernel)

end Semora
