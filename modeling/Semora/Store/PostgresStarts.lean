import Semora.Store.PostgresFence
import Semora.Store.PostgresRows

/-! # Starts in PostgresSteps

    A worker may run an effect when `start` has returned true. What lets it be
    started again is a `forget`, or a decision to retry it.

    The main result says how these come about in every schedule of statements:
    in the order of commits, starts and reopenings of a step take turns, the
    start first, and each decision is applied once. -/

namespace Semora

open ReadCommitted PostgresSteps

section starts

variable {V : Type}

/-! ## Section 1: Statement -/

/-- The step that a call was told to run. -/
def startedStep (b key : String) (started : Bool) : Option (String × String) :=
  if started then some (b, key) else none

def startOf : PgEvent V → Option (String × String)
  | .committed _ ⟨.start b key _, _⟩ started _ => startedStep b key started
  | _ => none

/-- The step an event makes startable again. -/
def reopenOf : PgEvent V → Option (String × String)
  | .committed _ ⟨.forget b key _, _⟩ _ true => some (b, key)
  | .committed _ ⟨.resolveEffect b key resolution _ _, _⟩ _ true =>
      if resolution.action = .retry then some (b, key) else none
  | _ => none

/-- The branch and the id of the decision an event applies. -/
def appliedDecision : PgEvent V → Option (String × String)
  | .committed _ ⟨.resolveEffect b _ resolution _ _, _⟩ _ true => some (b, resolution.decisionId)
  | _ => none

/-- Whether the step can be started, going by the starts and reopenings of it. -/
def mayStartAfter (step : String × String) (may : Bool) (e : PgEvent V) : Bool :=
  if startOf e = some step then false
  else if reopenOf e = some step then true
  else may

def mayStart (step : String × String) (log : List (PgEvent V)) : Bool :=
  log.foldl (mayStartAfter step) true

/-- A start comes first or after a reopening, and a reopening after a start. -/
def TakesTurns (before : List (PgEvent V)) (e : PgEvent V) : Prop :=
  ∀ step, (startOf e = some step → mayStart step before = true) ∧
    (reopenOf e = some step → mayStart step before = false)

/-- A decision that is applied had not been. -/
def DecidesOnce (before : List (PgEvent V)) (e : PgEvent V) : Prop :=
  ∀ decision, appliedDecision e = some decision → ∀ a ∈ before, appliedDecision a ≠ some decision

/-! ## Section 2: What the methods leave -/

/-- There is nothing to run, or nothing has been run of it. -/
def Startable (row : Option (StepRow V)) : Prop :=
  ∀ r ∈ row, r.status = .absent ∨ r.status = .ready

/-- What a committed call leaves in the step it is about, and with which decision. -/
def LeavesStep : (call : PgCall V) → call.op.Reply → Footprint (PgRow V) → Prop
  | ⟨.start b key _, _⟩, started, f =>
      ∃ row write : Option (StepRow V), f (.step b key) = some ⟨row, write⟩ ∧
        started = write.isSome ∧ ∀ new ∈ write, Startable row ∧ new.status = .running
  | ⟨.forget b key _, _⟩, _, f =>
      f (.step b key) = none ∨
      ∃ row new : StepRow V, row.status = .running ∧ new.status = .absent ∧
        f (.step b key) = some ⟨some row, some new⟩
  | ⟨.resolveEffect b key resolution _ _, _⟩, _, f =>
      ¬ f.Wrote ∨
      ∃ (row new : StepRow V) (decision : DecisionRow V), row.status = .running ∧
        (resolution.action = .retry → new.status = .ready) ∧
        f (.step b key) = some ⟨some row, some new⟩ ∧
        f (.decision b resolution.decisionId) = some ⟨none, some decision⟩
  | _, _, _ => True

theorem fence_leaves {f : Footprint (PgRow V)} (b : String) (token : Int) :
    (PostgresSteps.fence b token : PgTxn V Unit).Leaves f fun _ f' => f' = f := by
  unfold PostgresSteps.fence
  split
  · exact Txn.leaves_pure rfl
  · refine (Txn.leaves_select (Q := fun _ f' => f' = f) fun row => rfl).bind fun row f' hf' => ?_
    split
    · exact Txn.leaves_throw _
    · exact Txn.leaves_pure hf'

theorem start_leaves (b key : String) (token : Int) :
    (PostgresSteps.start b key token : PgTxn V Bool).Leaves .nothing
      fun started f => ∃ row write : Option (StepRow V), f (.step b key) = some ⟨row, write⟩ ∧
        started = write.isSome ∧ ∀ new ∈ write, Startable row ∧ new.status = .running := by
  refine (fence_leaves b token).bind ?_
  rintro _ f rfl
  have hexec : (PostgresSteps.exec (.upsert (.step b key) { status := .running } fun row =>
      if row.status = .absent ∨ row.status = .ready then
        some { status := .running, version := row.version + 1 }
      else none) : PgTxn V _).Leaves .nothing fun write f => ∃ row : Option (StepRow V),
        f (.step b key) = some ⟨row, write⟩ ∧
        ∀ new ∈ write, Startable row ∧ new.status = .running := by
    refine Txn.leaves_upsert rfl fun row => ⟨row, Function.update_self .., fun new hnew => ?_⟩
    -- No row, or one that is absent or ready, is begun; any other is left, and `False` answered.
    cases row with
    | none =>
      obtain rfl := Option.some.inj hnew
      exact ⟨nofun, rfl⟩
    | some old =>
      simp only [Option.elim_some] at hnew
      split at hnew
      · next hold =>
        obtain rfl := Option.some.inj hnew
        exact ⟨fun r hr => Option.some.inj hr ▸ hold, rfl⟩
      · cases hnew
  apply hexec.bind
  rintro write f ⟨row, hf, hwrite⟩
  exact Txn.leaves_pure ⟨row, write, hf, rfl, hwrite⟩

theorem forget_leaves (b key : String) (token : Int) :
    (PostgresSteps.forget b key token : PgTxn V Unit).Leaves .nothing
      fun _ f => f (.step b key) = none ∨
        ∃ row new : StepRow V, row.status = .running ∧ new.status = .absent ∧
          f (.step b key) = some ⟨some row, some new⟩ := by
  refine (fence_leaves b token).bind ?_
  rintro _ f rfl
  refine (Txn.leaves_update rfl (Or.inl rfl) fun row new hnew => Or.inr ⟨row, new, ?_⟩).bind
    fun _ f h => Txn.leaves_pure h
  split at hnew
  · next hrunning =>
    obtain rfl := Option.some.inj hnew
    exact ⟨hrunning, rfl, Function.update_self ..⟩
  · cases hnew

/-- The lock of a row that nothing has been written over. -/
theorem lock_leaves (k : PgKey) :
    (PostgresSteps.exec (.selectForUpdate k) : PgTxn V _).Leaves .nothing fun reply f =>
      ∀ row ∈ reply, f k = some ⟨some row, none⟩ ∧ ∀ k', k' ≠ k → f k' = none := by
  refine Txn.leaves_selectForUpdate rfl nofun fun row r hr => ?_
  obtain rfl := Option.some.inj hr
  exact ⟨Function.update_self .., fun k' hk' => Function.update_of_ne hk' ..⟩

theorem applyResolution_leaves [BEq V] (b key : String) (resolution : EffectResolution V)
    (payload : ResolutionPayload V) :
    (PostgresSteps.applyResolution b key resolution payload).Leaves .nothing fun _ f =>
      ¬ f.Wrote ∨
      ∃ (row new : StepRow V) (decision : DecisionRow V), row.status = .running ∧
        (resolution.action = .retry → new.status = .ready) ∧
        f (.step b key) = some ⟨some row, some new⟩ ∧
        f (.decision b resolution.decisionId) = some ⟨none, some decision⟩ := by
  unfold PostgresSteps.applyResolution
  refine (lock_leaves (.step b key)).bind fun reply f hf => ?_
  cases reply with
  | none => exact Txn.leaves_throw _
  | some row =>
    obtain ⟨hstep, hothers⟩ := hf row rfl
    have hne : PgKey.decision b resolution.decisionId ≠ .step b key := nofun
    have hfree : f (.decision b resolution.decisionId) = none := hothers _ hne
    have hclean : ¬ f.Wrote := Footprint.not_wrote_of_only hothers (by rw [hstep]; rfl)
    refine (Txn.leaves_select (Q := fun _ f' => f' = f) fun _ => rfl).bind ?_
    rintro previous f' rfl
    -- The decision was there: nothing is written. It is new: both rows are.
    cases previous with
    | some previous =>
      dsimp only
      split
      · exact Txn.leaves_throw _
      · exact Txn.leaves_pure (Or.inl hclean)
    | none =>
      dsimp only
      split
      · exact Txn.leaves_throw _
      · next hmatches =>
        have hrunning : row.status = .running := by
          by_contra hne
          exact hmatches (Or.inl hne)
        refine (Txn.leaves_update_held (Q := fun _ f => ∃ new : StepRow V,
          (resolution.action = .retry → new.status = .ready) ∧
          f (.step b key) = some ⟨some row, some new⟩ ∧
          f (.decision b resolution.decisionId) = none) hstep
          ⟨_, ?_, Function.update_self .., ?_⟩).bind ?_
        · intro hretry
          rw [hretry]
        · exact (Function.update_of_ne hne _ _).trans hfree
        · rintro _ f ⟨new, hready, hnew, hdecision⟩
          refine (Txn.leaves_insert (Q := fun reply f => ∀ decision ∈ reply,
            f (.step b key) = some ⟨some row, some new⟩ ∧
            f (.decision b resolution.decisionId) = some ⟨none, some decision⟩)
            hdecision nofun fun decision hdecision => ?_).bind fun reply f hf => ?_
          · obtain rfl := Option.some.inj hdecision
            exact ⟨(Function.update_of_ne hne.symm _ _).trans hnew, Function.update_self ..⟩
          · cases reply with
            | none => exact Txn.leaves_throw _
            | some decision =>
              obtain ⟨hnew, hdecision⟩ := hf decision rfl
              exact Txn.leaves_pure (Or.inr ⟨row, new, decision, hrunning, hready, hnew, hdecision⟩)

/-- **What each call leaves**: its rows, of which it finishes the steps unless it is a call that
    does not, and the step that it is about. -/
theorem leaves_step [BEq V] (call : PgCall V) :
    call.body.Leaves .nothing fun result f =>
      (∀ k, ¬ call.op.Touches k → f k = none) ∧
      (¬ call.op.Unfinishes → f.Written Finished) ∧ LeavesStep call result f := by
  refine (leaves_untouched call).and (Txn.Leaves.and ?_ ?_)
  · by_cases hcall : call.op.Unfinishes
    · exact (leaves_untouched call).mono fun _ _ _ h => absurd hcall h
    · exact (leaves_finished call hcall).mono fun _ _ h _ => h
  · obtain ⟨op, now⟩ := call
    cases op with
    | start b key token => exact start_leaves b key token
    | forget b key token => exact forget_leaves b key token
    | resolveEffect b key resolution workersStopped token =>
      change (PostgresSteps.resolveEffect b key resolution workersStopped token).Leaves _ _
      unfold PostgresSteps.resolveEffect
      split
      · exact Txn.leaves_throw _
      · refine (fence_leaves b token).bind ?_
        rintro _ f rfl
        exact applyResolution_leaves b key resolution _
    | _ => exact (leaves_untouched _).mono fun _ _ _ => trivial

/-! ## Section 3: The invariant -/

/-- The row of a step that may be started, or may not. -/
structure StepFits (may : Bool) (row : Option (StepRow V)) : Prop where
  startable : Startable row → may = true
  running : ∀ r ∈ row, r.status = .running → may = false

/-- A finished step fits in with anything. -/
theorem fits_done {may : Bool} {row : StepRow V} (h : row.status = .done) :
    StepFits may (some row) := by
  refine ⟨fun hstartable => ?_, fun r hr hrunning => ?_⟩
  · rcases hstartable row rfl with hstatus | hstatus <;> simp [h] at hstatus
  · obtain rfl := Option.some.inj hr
    simp [h] at hrunning

theorem fits_running {row : StepRow V} (h : row.status = .running) : StepFits false (some row) := by
  refine ⟨fun hstartable => ?_, fun _ _ _ => rfl⟩
  rcases hstartable row rfl with hstatus | hstatus <;> simp [h] at hstatus

theorem fits_startable {row : StepRow V} (h : row.status = .absent ∨ row.status = .ready) :
    StepFits true (some row) := by
  refine ⟨fun _ => rfl, fun r hr hrunning => ?_⟩
  obtain rfl := Option.some.inj hr
  rcases h with hstatus | hstatus <;> simp [hrunning] at hstatus

/-- What the log says of the starts, and the rows of the steps and of the decisions. -/
structure StepRows (log : List (PgEvent V)) (db : Database (PgRow V)) : Prop where
  fits : ∀ b key, StepFits (mayStart (b, key) log) (db (.step b key))
  decided : ∀ e ∈ log, ∀ b id, appliedDecision e = some (b, id) → db (.decision b id) ≠ none
  turns : Always TakesTurns log
  once : Always DecidesOnce log

variable {log : List (PgEvent V)} {db db' : Database (PgRow V)} {e : PgEvent V}

theorem stepRows_init : StepRows ([] : List (PgEvent V)) fun _ => none where
  fits _ _ := ⟨fun _ => rfl, nofun⟩
  decided _ h := nomatch h
  turns := always_nil
  once := always_nil

theorem mayStart_concat (step : String × String) (log : List (PgEvent V)) (e : PgEvent V) :
    mayStart step (log ++ [e]) = mayStartAfter step (mayStart step log) e := by
  simp [mayStart]

/-- An event that applies no decision. -/
theorem applies_nothing {P : String → String → Prop} (h : appliedDecision e = none) (b id : String)
    (happlied : appliedDecision e = some (b, id)) : P b id := by
  rw [h] at happlied
  cases happlied

/-- An event whose steps fit, whose turn it is, and whose decision is a new one. -/
theorem StepRows.step (h : StepRows log db)
    (hfits : ∀ b key, StepFits (mayStartAfter (b, key) (mayStart (b, key) log) e)
      (db' (.step b key)))
    (hturns : TakesTurns log e)
    (hkept : ∀ b id, db (.decision b id) ≠ none → db' (.decision b id) ≠ none)
    (hdecision : ∀ b id, appliedDecision e = some (b, id) →
      db (.decision b id) = none ∧ db' (.decision b id) ≠ none) :
    StepRows (log ++ [e]) db' := by
  refine ⟨fun b key => ?_, fun a ha b id hdecided => ?_, always_concat.mpr ⟨h.turns, hturns⟩,
    always_concat.mpr ⟨h.once, ?_⟩⟩
  · rw [mayStart_concat]
    exact hfits b key
  · rcases List.mem_append.mp ha with ha | ha
    · exact hkept b id (h.decided a ha b id hdecided)
    · rw [List.mem_singleton.mp ha] at hdecided
      exact (hdecision b id hdecided).2
  · rintro ⟨b, id⟩ hnew a ha hdecided
    exact h.decided a ha b id hdecided (hdecision b id hnew).1

/-- An event that starts no step and reopens none. -/
theorem StepRows.settle (h : StepRows log db) (hstart : startOf e = none)
    (hreopen : reopenOf e = none)
    (hrows : ∀ b key, db' (.step b key) = db (.step b key) ∨
      ∃ row : StepRow V, row.status = .done ∧ db' (.step b key) = some row)
    (hkept : ∀ b id, db (.decision b id) ≠ none → db' (.decision b id) ≠ none)
    (hdecision : ∀ b id, appliedDecision e = some (b, id) →
      db (.decision b id) = none ∧ db' (.decision b id) ≠ none) :
    StepRows (log ++ [e]) db' := by
  refine h.step (fun b key => ?_) (fun step => ?_) hkept hdecision
  · have hsame : mayStartAfter (b, key) (mayStart (b, key) log) e = mayStart (b, key) log := by
      simp [mayStartAfter, hstart, hreopen]
    rw [hsame]
    rcases hrows b key with hrow | ⟨row, hdone, hrow⟩
    · rw [hrow]
      exact h.fits b key
    · rw [hrow]
      exact fits_done hdone
  · simp [hstart, hreopen]

/-- An event that starts a step that can be started. -/
theorem StepRows.start (h : StepRows log db) (b key : String) (hstart : startOf e = some (b, key))
    (hreopen : reopenOf e = none) (hdecision : appliedDecision e = none)
    (hstartable : Startable (db (.step b key))) {new : StepRow V} (hnew : new.status = .running)
    (hrow : db' (.step b key) = some new) (hothers : ∀ k, k ≠ .step b key → db' k = db k) :
    StepRows (log ++ [e]) db' := by
  refine h.step (fun b' key' => ?_) (fun step => ⟨fun heq => ?_, fun heq => ?_⟩)
    (fun b' id hid => ?_) (applies_nothing hdecision)
  · by_cases hkey : (b', key') = (b, key)
    · obtain ⟨rfl, rfl⟩ := Prod.mk.inj hkey
      rw [hrow, mayStartAfter, if_pos hstart]
      exact fits_running hnew
    · rw [hothers _ fun heq => hkey (by cases heq; rfl), mayStartAfter, hstart, hreopen,
        if_neg fun heq => hkey (Option.some.inj heq).symm, if_neg nofun]
      exact h.fits b' key'
  · rw [hstart] at heq
    rw [← Option.some.inj heq]
    exact (h.fits b key).startable hstartable
  · rw [hreopen] at heq
    cases heq
  · rw [hothers (.decision b' id) nofun]
    exact hid

/-- An event that reopens a running step. -/
theorem StepRows.reopen (h : StepRows log db) {b key : String} (hstart : startOf e = none)
    (hreopen : reopenOf e = some (b, key)) {row new : StepRow V}
    (hheld : db (.step b key) = some row)
    (hrunning : row.status = .running) (hnew : new.status = .absent ∨ new.status = .ready)
    (hrow : db' (.step b key) = some new)
    (hothers : ∀ b' key', (b', key') ≠ (b, key) → db' (.step b' key') = db (.step b' key'))
    (hkept : ∀ b id, db (.decision b id) ≠ none → db' (.decision b id) ≠ none)
    (hdecision : ∀ b id, appliedDecision e = some (b, id) →
      db (.decision b id) = none ∧ db' (.decision b id) ≠ none) :
    StepRows (log ++ [e]) db' := by
  refine h.step (fun b' key' => ?_) (fun step => ⟨fun heq => ?_, fun heq => ?_⟩) hkept hdecision
  · -- Only the step's own row has changed, from running to free.
    by_cases hkey : (b', key') = (b, key)
    · obtain ⟨rfl, rfl⟩ := Prod.mk.inj hkey
      rw [hrow, mayStartAfter, hstart, if_neg nofun, if_pos hreopen]
      exact fits_startable hnew
    · rw [hothers _ _ hkey, mayStartAfter, hstart, hreopen, if_neg nofun,
        if_neg fun heq => hkey (Option.some.inj heq).symm]
      exact h.fits b' key'
  · rw [hstart] at heq
    cases heq
  · rw [hreopen] at heq
    rw [← Option.some.inj heq]
    exact (h.fits b key).running row hheld hrunning

/-! ## Section 4: Every schedule -/

/-- What a commit does to the steps. -/
theorem StepRows.committed [BEq V] (h : StepRows log db) (tid : Nat) (call : PgCall V)
    (result : call.op.Reply) (wrote : Bool) {f : Footprint (PgRow V)}
    (hf : ∀ k, ¬ call.op.Touches k → f k = none)
    (hfinished : ¬ call.op.Unfinishes → f.Written Finished) (hleaves : LeavesStep call result f)
    (hof : f.Of db) (hwrote : wrote = true ↔ f.Wrote) :
    StepRows (log ++ [.committed tid call result wrote]) (f.onto db) := by
  have hquiet : ¬ f.Wrote → wrote = false ∧ f.onto db = db := fun hclean =>
    ⟨Bool.eq_false_iff.mpr fun htrue => hclean (hwrote.mp htrue),
      Footprint.onto_of_not_wrote hclean⟩
  have hdecided : ∀ b id, db (.decision b id) ≠ none → f.onto db (.decision b id) ≠ none :=
    fun _ _ => Footprint.onto_ne_none
  have hrows : ¬ call.op.Unfinishes → ∀ b key, f.onto db (.step b key) = db (.step b key) ∨
      ∃ row : StepRow V, row.status = .done ∧ f.onto db (.step b key) = some row := by
    intro hcall b key
    cases hwritten : (f (.step b key)).bind Held.write with
    | none => exact Or.inl (by simp [Footprint.onto, hwritten])
    | some row =>
      have hdone : row.status = .done := hfinished hcall _ row hwritten
      exact Or.inr ⟨row, hdone, by simp [Footprint.onto, hwritten]⟩
  obtain ⟨op, now⟩ := call
  cases op with
  | start b key token =>
    obtain ⟨row, write, hrow, rfl, hwrite⟩ := hleaves
    obtain rfl : row = db (.step b key) := hof _ _ hrow
    cases write with
    | none =>
      -- the step was not to be started: its row is locked, and stays
      obtain ⟨-, hsame⟩ := hquiet (Footprint.not_wrote_of_only hf (by rw [hrow]; rfl))
      rw [hsame]
      exact h.settle rfl rfl (fun _ _ => Or.inl rfl) (fun _ _ hid => hid) (applies_nothing rfl)
    | some new =>
      obtain ⟨hstartable, hnew⟩ := hwrite new rfl
      exact h.start b key rfl rfl rfl hstartable hnew (Footprint.onto_of_held hrow)
        fun k hk => Footprint.onto_of_none (hf k hk)
  | forget b key token =>
    rcases hleaves with hnone | ⟨row, new, hrunning, hnew, hrow⟩
    · -- the statement found no running step, and has left the row to others
      obtain ⟨rfl, hsame⟩ := hquiet (Footprint.not_wrote_of_only hf (by rw [hnone]; rfl))
      rw [hsame]
      exact h.settle rfl rfl (fun _ _ => Or.inl rfl) (fun _ _ hid => hid) (applies_nothing rfl)
    · obtain rfl : wrote = true := hwrote.mpr (Footprint.wrote_of_held hrow)
      refine h.reopen rfl rfl (hof _ _ hrow).symm hrunning (Or.inl hnew)
        (Footprint.onto_of_held hrow) (fun b' key' hkey => Footprint.onto_of_none (hf _ ?_))
        hdecided (applies_nothing rfl)
      exact fun htouched => hkey (by cases htouched; rfl)
  | resolveEffect b key resolution workersStopped token =>
    rcases hleaves with hclean | ⟨row, new, decision, hrunning, hready, hrow, hdecision⟩
    · -- the decision had been applied before
      obtain ⟨rfl, hsame⟩ := hquiet hclean
      rw [hsame]
      exact h.settle rfl rfl (fun _ _ => Or.inl rfl) (fun _ _ hid => hid) (applies_nothing rfl)
    · obtain rfl : wrote = true := hwrote.mpr (Footprint.wrote_of_held hrow)
      -- the row of the decision was inserted, so there had been none
      have hnew : ∀ b' id, some (b, resolution.decisionId) = some (b', id) →
          db (.decision b' id) = none ∧ f.onto db (.decision b' id) ≠ none := by
        intro b' id heq
        cases heq
        exact ⟨(hof _ _ hdecision).symm, by simp [Footprint.onto_of_held hdecision]⟩
      cases haction : resolution.action with
      | complete =>
        have hcall : ¬ (resolution.action = .retry) := by simp [haction]
        exact h.settle rfl (if_neg hcall) (hrows hcall) hdecided hnew
      | retry =>
        refine h.reopen rfl (if_pos haction) (hof _ _ hrow).symm hrunning (Or.inr (hready haction))
          (Footprint.onto_of_held hrow) (fun b' key' hkey => Footprint.onto_of_none (hf _ ?_))
          hdecided hnew
        intro htouched
        rcases htouched with htouched | htouched
        · exact hkey (by cases htouched; rfl)
        · cases htouched
  | _ =>
    -- every other method writes steps as done, if it writes any
    exact h.settle rfl rfl (hrows fun hcall => hcall) hdecided (applies_nothing rfl)

/-- **Starts under READ COMMITTED.** In every schedule of calls and of their statements, in the
    order of the commits, the starts of a step that return true and its reopenings take turns, the
    start first, and no decision is applied twice. -/
theorem steps_take_turns [BEq V] (schedule : List (Action (PgCall V))) :
    Always TakesTurns (PgWorld.after schedule).log ∧
    Always DecidesOnce (PgWorld.after schedule).log := by
  have hrows : StepRows (PgWorld.after schedule).log (PgWorld.after schedule).db := by
    refine World.committed_rows leaves_step stepRows_init ?_ ?_ ?_ schedule
    · intro log db tid stmt reply h
      exact h.settle rfl rfl (fun _ _ => Or.inl rfl) (fun _ _ hid => hid) (applies_nothing rfl)
    · intro log db tid c error h
      exact h.settle rfl rfl (fun _ _ => Or.inl rfl) (fun _ _ hid => hid) (applies_nothing rfl)
    · intro log db tid c result wrote f h hleaves hof hwrote
      exact h.committed tid c result wrote hleaves.1 hleaves.2.1 hleaves.2.2 hof hwrote
  exact ⟨hrows.turns, hrows.once⟩

/-- Two workers start one step: the second waits for the row, and is told not to run it. -/
example : (PgWorld.after (V := Nat)
    [.begin ⟨.start "b" "tool:a" 0, 1⟩, .begin ⟨.start "b" "tool:a" 0, 1⟩, .run 0, .run 1,
      .finish 0, .run 1, .finish 1]).log.map startOf
    = [none, some ("b", "tool:a"), none, none] := by
  decide +kernel

end starts

end Semora
