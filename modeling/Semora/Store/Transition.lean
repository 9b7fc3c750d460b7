import Semora.Store.Queue

/-! # Transitions

    `commit_transition` looks at everything before it writes anything: it
    raises and leaves the store as it was, or it applies every part. The first
    pass plans what is left to complete, the second one writes it.

    A state of the store is any value of the type, except where the order of a
    queue is concerned: there it is one that calls lead to. -/

namespace Semora

theorem Expected.status_ne_done (expected : Expected) : expected.status ≠ .done := by
  cases expected <;> decide

namespace MemorySteps

variable {V : Type}

/-! ## Section 1: What is to be proved -/

/-- When a transition is applied: what the store looks at before it writes anything. -/
structure Acceptable [BEq V] (s : MemorySteps V) (b : String) (transition : ExecutionTransition V)
    (token : Int) : Prop where
  /-- The fence admits the token. -/
  admitted : ¬ (token ≠ 0 ∧ token < s.issued b)
  /-- No effect key repeats. -/
  distinct : (transition.effects.map EffectCompletion.key).Nodup
  /-- No key is both effect and control. -/
  apart : ∀ effect ∈ transition.effects, effect.key ∉ transition.controls.items.map Prod.fst
  /-- Every effect is done with an equal value, or in its expected status. -/
  expected : ∀ effect ∈ transition.effects,
    ((s.entry b effect.key).status = .done ∧
      ((s.entry b effect.key).value == effect.value) = true) ∨
    (s.entry b effect.key).status = effect.expected.status

/-- The inputs of a list whose ids are new to the queue, each as it is first listed. -/
def newInputs (s : MemorySteps V) (b : String) (inputs : List (String × V)) : List (String × V) :=
  (inputs.filter fun item => (s.inputs.get? (b, item.1)).isNone).firstBy Prod.fst

/-- Pending inputs, numbered from `n` on. -/
def pendingFrom (n : Nat) (inputs : List (String × V)) : List (InputRecord V) :=
  (inputs.zipIdx n).map fun item => ⟨item.1.1, .pending, item.1.2, item.2⟩

/-- Every part of a transition is applied, and nothing else. -/
structure Applied [BEq V] (s : MemorySteps V) (b : String) (transition : ExecutionTransition V)
    (inserted : List String) (s' : MemorySteps V) : Prop where
  effects : ∀ effect ∈ transition.effects,
    ((s.entry b effect.key).status = .done ∧
      ((s.entry b effect.key).value == effect.value) = true ∧
      s'.entry b effect.key = s.entry b effect.key) ∨
    ((s.entry b effect.key).status = effect.expected.status ∧
      s'.entry b effect.key = ⟨.done, effect.value, (s.entry b effect.key).version + 1⟩)
  controls : ∀ item ∈ transition.controls.items,
    s'.entry b item.1 = ⟨.done, item.2, (s.entry b item.1).version + 1⟩
  /-- No other step changes. -/
  steps : ∀ b' key, (b' = b → key ∉ transition.effects.map EffectCompletion.key ∧
    key ∉ transition.controls.items.map Prod.fst) → s'.entry b' key = s.entry b' key
  inserted : inserted = (newInputs s b transition.inputs).map Prod.fst
  /-- The new inputs are appended, and no other input changes. -/
  inputs : s'.inputs.items = s.inputs.items ++
    (pendingFrom (s.inputSequence.getD b 0) (newInputs s b transition.inputs)).map fun record =>
      ((b, record.inputId), record)
  /-- They come after all earlier inputs. -/
  queue : Reached s → s'.listInputs b = s.listInputs b ++
    pendingFrom (s.inputSequence.getD b 0) (newInputs s b transition.inputs)
  sequence : ∀ b', s'.inputSequence.getD b' 0 = s.inputSequence.getD b' 0 +
    if b' = b then (newInputs s b transition.inputs).length else 0
  others : s'.leases = s.leases ∧ s'.tokens = s.tokens ∧ s'.decisions = s.decisions

/-! ## Section 2: The first pass -/

/-- What the first pass asks of effects that come after those of `seen`. -/
structure Plannable [BEq V] (s : MemorySteps V) (b : String) (effects : List (EffectCompletion V))
    (seen : List String) : Prop where
  distinct : (effects.map EffectCompletion.key).Nodup
  unseen : ∀ effect ∈ effects, effect.key ∉ seen
  expected : ∀ effect ∈ effects,
    ((s.entry b effect.key).status = .done ∧
      ((s.entry b effect.key).value == effect.value) = true) ∨
    (s.entry b effect.key).status = effect.expected.status

/-- The effects that are not done yet. -/
def incomplete (s : MemorySteps V) (b : String) (effects : List (EffectCompletion V)) :
    List (EffectCompletion V) :=
  effects.filter fun effect => (s.entry b effect.key).status ≠ .done

/-- An effect as it is to be completed: its key, its value and its next version. -/
def completion (s : MemorySteps V) (b : String) (effect : EffectCompletion V) :
    String × Option V × Nat :=
  (effect.key, effect.value, (s.entry b effect.key).version + 1)

theorem plannable_cons [BEq V] {s : MemorySteps V} {b : String} {effect : EffectCompletion V}
    {rest : List (EffectCompletion V)} {seen : List String} :
    Plannable s b (effect :: rest) seen ↔
      effect.key ∉ seen ∧
      (((s.entry b effect.key).status = .done ∧
        ((s.entry b effect.key).value == effect.value) = true) ∨
        (s.entry b effect.key).status = effect.expected.status) ∧
      Plannable s b rest (effect.key :: seen) := by
  -- Distinct keys that avoid `seen`: the head avoids it, and the rest avoids the head too.
  constructor
  · rintro ⟨hdistinct, hunseen, hexpected⟩
    rw [List.map_cons, List.nodup_cons] at hdistinct
    refine ⟨hunseen effect List.mem_cons_self, hexpected effect List.mem_cons_self,
      hdistinct.2, fun other hother => ?_, fun other hother =>
        hexpected other (List.mem_cons_of_mem _ hother)⟩
    rw [List.mem_cons, not_or]
    exact ⟨fun heq => hdistinct.1 (heq ▸ List.mem_map_of_mem hother),
      hunseen other (List.mem_cons_of_mem _ hother)⟩
  · rintro ⟨hseen, hhere, hdistinct, hunseen, hexpected⟩
    refine ⟨?_, ?_, ?_⟩
    · rw [List.map_cons, List.nodup_cons]
      refine ⟨fun hmem => ?_, hdistinct⟩
      obtain ⟨other, hother, heq⟩ := List.mem_map.mp hmem
      exact hunseen other hother (heq ▸ List.mem_cons_self)
    · rintro other hother
      rcases List.mem_cons.mp hother with rfl | hother
      · exact hseen
      · exact fun hmem => hunseen other hother (List.mem_cons_of_mem _ hmem)
    · rintro other hother
      rcases List.mem_cons.mp hother with rfl | hother
      · exact hhere
      · exact hexpected other hother

/-- **The first pass** plans the effects that are left, or raises. -/
theorem planEffects_cases [BEq V] (s : MemorySteps V) (b : String)
    (effects : List (EffectCompletion V)) (seen : List String) :
    (Plannable s b effects seen ∧
      s.planEffects b effects seen = .ok ((incomplete s b effects).map (completion s b))) ∨
    (¬ Plannable s b effects seen ∧ ∃ e, s.planEffects b effects seen = .error e) := by
  -- Induction on the effects, in the order of the checks: the key, the value under `done`, the
  -- status.
  induction effects generalizing seen with
  | nil => exact Or.inl ⟨⟨List.nodup_nil, by simp, by simp⟩, rfl⟩
  | cons effect rest ih =>
    rw [plannable_cons]
    unfold planEffects incomplete
    by_cases hseen : effect.key ∈ seen
    · rw [if_pos hseen]
      exact Or.inr ⟨fun h => h.1 hseen, _, rfl⟩
    rw [if_neg hseen]
    dsimp only
    by_cases hdone : (s.entry b effect.key).status = .done
    · rw [if_pos hdone, List.filter_cons_of_neg (by simp [hdone])]
      by_cases hvalue : ((s.entry b effect.key).value == effect.value) = true
      · rw [if_neg (by simp [bne, hvalue])]
        rcases ih (effect.key :: seen) with ⟨hplan, heq⟩ | ⟨hplan, e, heq⟩
        · exact Or.inl ⟨⟨hseen, Or.inl ⟨hdone, hvalue⟩, hplan⟩, heq⟩
        · exact Or.inr ⟨fun h => hplan h.2.2, e, heq⟩
      · rw [if_pos (by simp [bne, hvalue])]
        refine Or.inr ⟨fun h => ?_, _, rfl⟩
        rcases h.2.1 with ⟨_, hequal⟩ | hexpected
        · exact hvalue hequal
        · exact Expected.status_ne_done _ (hexpected ▸ hdone)
    · rw [if_neg hdone, List.filter_cons_of_pos (by simp [hdone])]
      by_cases hexpected : (s.entry b effect.key).status = effect.expected.status
      · rw [if_neg (not_not.mpr hexpected)]
        rcases ih (effect.key :: seen) with ⟨hplan, heq⟩ | ⟨hplan, e, heq⟩
        · rw [heq]
          exact Or.inl ⟨⟨hseen, Or.inr hexpected, hplan⟩, rfl⟩
        · rw [heq]
          exact Or.inr ⟨fun h => hplan h.2.2, e, rfl⟩
      · rw [if_pos hexpected]
        exact Or.inr ⟨fun h => h.2.1.elim (fun hequal => hdone hequal.1) hexpected, _, rfl⟩

theorem overlap_eq_nil {transition : ExecutionTransition V} :
    overlap transition = [] ↔
      ∀ effect ∈ transition.effects, effect.key ∉ transition.controls.items.map Prod.fst := by
  have hfilter : overlap transition = [] ↔ (transition.controls.items.map Prod.fst).filter
      (fun key => key ∈ transition.effects.map EffectCompletion.key) = [] := by
    unfold overlap
    rw [← List.length_eq_zero_iff, List.length_insertionSort, List.length_eq_zero_iff]
  rw [hfilter, List.filter_eq_nil_iff]
  constructor
  · intro h effect heffect hmem
    exact h effect.key hmem (by simpa using ⟨effect, heffect, rfl⟩)
  · intro h key hkey hmem
    obtain ⟨effect, heffect, rfl⟩ := List.mem_map.mp (of_decide_eq_true hmem)
    exact h effect heffect hkey

/-! ## Section 3: The second pass -/

theorem applyCompleted_mem {completed : List (String × Option V × Nat)}
    (hnodup : (completed.map Prod.fst).Nodup) {item : String × Option V × Nat}
    (hitem : item ∈ completed) (s : MemorySteps V) (b : String) :
    (s.applyCompleted b completed).entry b item.1 = ⟨.done, item.2.1, item.2.2⟩ := by
  induction completed generalizing s with
  | nil => cases hitem
  | cons first rest ih =>
    rw [List.map_cons, List.nodup_cons] at hnodup
    rcases List.mem_cons.mp hitem with rfl | hitem
    · have hlater : ∀ other ∈ rest, other.1 ≠ item.1 := fun other hother heq =>
        hnodup.1 (heq ▸ List.mem_map_of_mem hother)
      have hframe := applyCompleted_entry
        (s.setEntry b item.1 ⟨.done, item.2.1, item.2.2⟩) b rest hlater
      exact hframe.trans (entry_setEntry_self ..)
    · exact ih hnodup.2 hitem _

theorem applyControls_mem {controls : List (String × Option V)}
    (hnodup : (controls.map Prod.fst).Nodup) {item : String × Option V} (hitem : item ∈ controls)
    (s : MemorySteps V) (b : String) :
    (s.applyControls b controls).entry b item.1
      = ⟨.done, item.2, (s.entry b item.1).version + 1⟩ := by
  induction controls generalizing s with
  | nil => cases hitem
  | cons first rest ih =>
    rw [List.map_cons, List.nodup_cons] at hnodup
    let written := s.setEntry b first.1 ⟨.done, first.2, (s.entry b first.1).version + 1⟩
    rcases List.mem_cons.mp hitem with rfl | hitem
    · have hlater : ∀ other ∈ rest, other.1 ≠ item.1 := fun other hother heq =>
        hnodup.1 (heq ▸ List.mem_map_of_mem hother)
      exact (applyControls_entry written b rest hlater).trans (entry_setEntry_self ..)
    · have hne : item.1 ≠ first.1 := fun heq => hnodup.1 (heq ▸ List.mem_map_of_mem hitem)
      have hrest := ih hnodup.2 hitem written
      rw [show written.entry b item.1 = s.entry b item.1 from entry_setEntry_ne s _ hne] at hrest
      exact hrest

theorem appendInput_get (s : MemorySteps V) (b inputId : String) (value : V)
    (k : String × String) :
    (s.appendInput b inputId value).inputs.get? k =
      if k = (b, inputId) then some ⟨inputId, .pending, value, s.inputSequence.getD b 0⟩
      else s.inputs.get? k := Dict.get?_set ..

theorem newInputs_known {s : MemorySteps V} {b inputId : String} {record : InputRecord V}
    (h : s.inputs.get? (b, inputId) = some record) (value : V) (rest : List (String × V)) :
    newInputs s b ((inputId, value) :: rest) = newInputs s b rest := by
  unfold newInputs
  rw [List.filter_cons_of_neg (by simp [h])]

theorem newInputs_fresh {s : MemorySteps V} {b inputId : String}
    (h : s.inputs.get? (b, inputId) = none) (value : V) (rest : List (String × V)) :
    newInputs s b ((inputId, value) :: rest)
      = (inputId, value) :: newInputs (s.appendInput b inputId value) b rest := by
  have hafter : rest.filter (fun item =>
        ((s.appendInput b inputId value).inputs.get? (b, item.1)).isNone)
      = (rest.filter fun item => (s.inputs.get? (b, item.1)).isNone).filter
          fun item => item.1 ≠ inputId := by
    rw [List.filter_filter]
    refine List.filter_congr fun item _ => ?_
    rw [appendInput_get]
    by_cases hitem : item.1 = inputId <;> simp [hitem]
  unfold newInputs
  rw [List.filter_cons_of_pos (by simp [h]), hafter]
  have hfirst := List.firstBy_filter Prod.fst (fun inputId' => decide (inputId' ≠ inputId))
    (rest.filter fun item => (s.inputs.get? (b, item.1)).isNone)
  rw [hfirst]
  rfl

/-- **Inputs** that are new are appended, in the order in which they are listed. -/
theorem applyInputs_appends (s : MemorySteps V) (b : String) (inputs : List (String × V)) :
    (s.applyInputs b inputs).1 = (newInputs s b inputs).map Prod.fst ∧
    (s.applyInputs b inputs).2.inputs.items = s.inputs.items ++
      (pendingFrom (s.inputSequence.getD b 0) (newInputs s b inputs)).map
        (fun record => ((b, record.inputId), record)) ∧
    ∀ b', (s.applyInputs b inputs).2.inputSequence.getD b' 0 = s.inputSequence.getD b' 0 +
      if b' = b then (newInputs s b inputs).length else 0 := by
  induction inputs generalizing s with
  | nil =>
    exact ⟨rfl, (List.append_nil _).symm,
      fun b' => by simp [newInputs, List.firstBy, applyInputs]⟩
  | cons item rest ih =>
    obtain ⟨inputId, value⟩ := item
    unfold applyInputs
    -- A known id is passed over; a new one is numbered next and put last.
    cases hrecord : s.inputs.get? (b, inputId) with
    | some record =>
      rw [newInputs_known hrecord]
      exact ih s
    | none =>
      obtain ⟨hinserted, hitems, hsequence⟩ := ih (s.appendInput b inputId value)
      have hnext : (s.appendInput b inputId value).inputSequence.getD b 0
          = s.inputSequence.getD b 0 + 1 := by
        show (Dict.set _ b _).getD b 0 = _
        rw [Dict.getD_set, if_pos rfl]
      have happended : (s.appendInput b inputId value).inputs.items = s.inputs.items ++
          [((b, inputId), ⟨inputId, .pending, value, s.inputSequence.getD b 0⟩)] :=
        Dict.items_set_of_none hrecord _
      rw [newInputs_fresh hrecord]
      refine ⟨congrArg (inputId :: ·) hinserted, ?_, fun b' => ?_⟩
      · refine hitems.trans ?_
        rw [happended, hnext, List.append_assoc]
        rfl
      · refine (hsequence b').trans ?_
        show (Dict.set _ b _).getD b' 0 + _ = _
        rw [Dict.getD_set]
        split
        · next hb =>
          rw [hb, List.length_cons]
          omega
        · rfl

theorem pendingFrom_numbers {n : Nat} {inputs : List (String × V)} {record : InputRecord V}
    (h : record ∈ pendingFrom n inputs) : n ≤ record.sequence := by
  obtain ⟨item, hitem, rfl⟩ := List.mem_map.mp h
  exact List.le_snd_of_mem_zipIdx hitem

theorem pendingFrom_ordered (n : Nat) (inputs : List (String × V)) :
    (pendingFrom n inputs).Pairwise fun r r' => r.sequence ≤ r'.sequence := by
  induction inputs generalizing n with
  | nil => exact List.Pairwise.nil
  | cons item rest ih =>
    refine List.pairwise_cons.mpr ⟨fun record hrecord => ?_, ih (n + 1)⟩
    exact Nat.le_of_succ_le (pendingFrom_numbers hrecord)

/-! ## Section 4: All or nothing -/

/-- The three loops of the second pass, over what the first one planned. -/
def applyAll (s : MemorySteps V) (b : String) (transition : ExecutionTransition V) :
    List String × MemorySteps V :=
  ((s.applyCompleted b ((incomplete s b transition.effects).map (completion s b))).applyControls b
    transition.controls.items).applyInputs b transition.inputs

theorem commitTransition_cases [BEq V] (s : MemorySteps V) (b : String)
    (transition : ExecutionTransition V) (token : Int) :
    (Acceptable s b transition token ∧ s.commitTransition b transition token =
      (.ok (applyAll s b transition).1, (applyAll s b transition).2)) ∨
    (¬ Acceptable s b transition token ∧ ∃ e,
      s.commitTransition b transition token = (.error e, s)) := by
  unfold commitTransition fenced fence
  by_cases hstale : token ≠ 0 ∧ token < s.issued b
  · rw [if_pos hstale]
    exact Or.inr ⟨fun h => h.admitted hstale, _, rfl⟩
  rw [if_neg hstale]
  dsimp only
  rcases planEffects_cases s b transition.effects [] with ⟨hplan, heq⟩ | ⟨hplan, e, heq⟩
  · rw [heq]
    dsimp only
    by_cases hoverlap : overlap transition = []
    · rw [if_neg (not_not.mpr hoverlap)]
      exact Or.inl ⟨⟨hstale, hplan.distinct, overlap_eq_nil.mp hoverlap, hplan.expected⟩, rfl⟩
    · rw [if_pos hoverlap]
      exact Or.inr ⟨fun h => hoverlap (overlap_eq_nil.mpr h.apart), _, rfl⟩
  · rw [heq]
    exact Or.inr ⟨fun h => hplan ⟨h.distinct, by simp, h.expected⟩, e, rfl⟩

/-- A step that no input or control touches is as the effects leave it. -/
theorem applyAll_entry (s : MemorySteps V) (b : String) (transition : ExecutionTransition V)
    {key : String} (h : key ∉ transition.controls.items.map Prod.fst) :
    (applyAll s b transition).2.entry b key =
      (s.applyCompleted b ((incomplete s b transition.effects).map (completion s b))).entry b
        key := by
  unfold applyAll
  rw [applyInputs_entry]
  exact applyControls_entry _ b _ fun item hitem heq => h (heq ▸ List.mem_map_of_mem hitem)

/-- **Effects**: what is done is untouched, the others are completed. -/
theorem applyAll_effect [BEq V] {s : MemorySteps V} {b : String}
    {transition : ExecutionTransition V} {token : Int} (h : Acceptable s b transition token)
    {effect : EffectCompletion V} (heffect : effect ∈ transition.effects) :
    ((s.entry b effect.key).status = .done ∧
      ((s.entry b effect.key).value == effect.value) = true ∧
      (applyAll s b transition).2.entry b effect.key = s.entry b effect.key) ∨
    ((s.entry b effect.key).status = effect.expected.status ∧
      (applyAll s b transition).2.entry b effect.key
        = ⟨.done, effect.value, (s.entry b effect.key).version + 1⟩) := by
  rw [applyAll_entry s b transition (h.apart effect heffect)]
  -- Done already, it is not among the incomplete; otherwise it is completed, once.
  rcases h.expected effect heffect with ⟨hdone, hvalue⟩ | hexpected
  · refine Or.inl ⟨hdone, hvalue, applyCompleted_entry s b _ ?_⟩
    rintro item hitem heq
    obtain ⟨other, hother, rfl⟩ := List.mem_map.mp hitem
    have hopen := of_decide_eq_true (List.mem_filter.mp hother).2
    rw [show other.key = effect.key from heq] at hopen
    exact hopen hdone
  · refine Or.inr ⟨hexpected, ?_⟩
    have hopen : effect ∈ incomplete s b transition.effects := by
      refine List.mem_filter.mpr ⟨heffect, decide_eq_true ?_⟩
      rw [hexpected]
      exact Expected.status_ne_done _
    have hkeys : (((incomplete s b transition.effects).map (completion s b)).map
        Prod.fst).Nodup := by
      rw [List.map_map]
      exact h.distinct.sublist (List.filter_sublist.map EffectCompletion.key)
    exact applyCompleted_mem hkeys (List.mem_map_of_mem hopen) s b

theorem applyAll_control [BEq V] {s : MemorySteps V} {b : String}
    {transition : ExecutionTransition V} {token : Int} (h : Acceptable s b transition token)
    {item : String × Option V} (hitem : item ∈ transition.controls.items) :
    (applyAll s b transition).2.entry b item.1
      = ⟨.done, item.2, (s.entry b item.1).version + 1⟩ := by
  have hcompleted : (s.applyCompleted b ((incomplete s b transition.effects).map
      (completion s b))).entry b item.1 = s.entry b item.1 := by
    refine applyCompleted_entry s b _ ?_
    rintro planned hplanned heq
    obtain ⟨effect, heffect, rfl⟩ := List.mem_map.mp hplanned
    refine h.apart effect (List.mem_filter.mp heffect).1 ?_
    rw [show effect.key = item.1 from heq]
    exact List.mem_map_of_mem hitem
  unfold applyAll
  rw [applyInputs_entry, applyControls_mem transition.controls.nodup hitem, hcompleted]

/-- **Inputs**: those that are new are appended to the queue as it was. -/
theorem applyAll_inputs (s : MemorySteps V) (b : String) (transition : ExecutionTransition V) :
    (applyAll s b transition).1 = (newInputs s b transition.inputs).map Prod.fst ∧
    (applyAll s b transition).2.inputs.items = s.inputs.items ++
      (pendingFrom (s.inputSequence.getD b 0) (newInputs s b transition.inputs)).map
        (fun record => ((b, record.inputId), record)) ∧
    ∀ b', (applyAll s b transition).2.inputSequence.getD b' 0 = s.inputSequence.getD b' 0 +
      if b' = b then (newInputs s b transition.inputs).length else 0 := by
  have hcompleted := applyCompleted_queue s b
    ((incomplete s b transition.effects).map (completion s b))
  have hcontrols := applyControls_queue (s.applyCompleted b
    ((incomplete s b transition.effects).map (completion s b))) b transition.controls.items
  have happends := applyInputs_appends ((s.applyCompleted b
    ((incomplete s b transition.effects).map (completion s b))).applyControls b
      transition.controls.items) b transition.inputs
  unfold newInputs at happends
  rw [hcontrols.1, hcontrols.2, hcompleted.1, hcompleted.2] at happends
  exact happends

/-- **All or nothing**: a transition that is acceptable is applied in every part, and one that is
    not is refused and leaves the store as it was. The store plans the effects in a first pass that
    only reads, and writes in a second that cannot fail, so there is no third way. -/
theorem commitTransition_atomic [BEq V] (s : MemorySteps V) (b : String)
    (transition : ExecutionTransition V) (token : Int) :
    (Acceptable s b transition token ∧ ∃ inserted s',
      s.commitTransition b transition token = (.ok inserted, s') ∧
        Applied s b transition inserted s') ∨
    (¬ Acceptable s b transition token ∧ ∃ e,
      s.commitTransition b transition token = (.error e, s)) := by
  rcases commitTransition_cases s b transition token with ⟨h, heq⟩ | hrefused
  · obtain ⟨hinserted, hitems, hsequence⟩ := applyAll_inputs s b transition
    have hleases : SameLeases s (s.commitTransition b transition token).2 :=
      perform_sameLeases (.commitTransition b transition token) rfl 0 0 s
    have hdecisions := commitTransition_decisions s b transition token
    -- Accepted: what the transition does not name is as before.
    have hframe : ∀ b' key,
        b ≠ b' ∨ key ∉ (LedgerOp.commitTransition b transition token).keys →
          (s.commitTransition b transition token).2.entry b' key = s.entry b' key :=
      fun b' key => perform_entry (.commitTransition b transition token) 0 0 s
    rw [heq] at hleases hdecisions hframe
    refine Or.inl ⟨h, _, _, heq, ?_⟩
    refine ⟨fun effect heffect => applyAll_effect h heffect,
      fun item hitem => applyAll_control h hitem, fun b' key hkey => hframe b' key ?_, hinserted,
      hitems, fun hreached => ?_, hsequence, hleases.1, hleases.2, hdecisions⟩
    · by_cases hb : b' = b
      · refine Or.inr ?_
        simp only [LedgerOp.keys, List.mem_append, not_or]
        exact hkey hb
      · exact Or.inl (Ne.symm hb)
    · exact hreached.numbered.listInputs_append hitems (pendingFrom_ordered _ _)
        fun record hrecord => pendingFrom_numbers hrecord
  · exact Or.inr hrefused

end MemorySteps

end Semora
