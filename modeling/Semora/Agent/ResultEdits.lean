import Semora.Agent.Alone
import Semora.Agent.Controls
import Semora.Agent.Projection
import Semora.Framework.JsonText
import Semora.Transcript.Entries

/-! # Edits of a Result

    `post_tool_use` may edit the result it is handed in place. A success hands
    it the value inside the copied record, so what the writers make of it is
    stored and returned. A failure hands it an object made for the occasion;
    the record keeps its own text of the error, whatever the writers do. -/

namespace Semora

open MemorySteps

/-! ## Section 1: Writers -/

/-- A value that can be edited in place: an object or a list. -/
def mutable (value : Json) : Bool := isObject value || value.front == '['

/-- A writer that edits in place the result it is handed. -/
structure Writer where
  edit : Ctx → ToolCall → Json → Json
  /-- There is no editing what is not mutable. -/
  inPlace : ∀ ctx call value, mutable value = false → edit ctx call value = value

/-- `{"type": "error", "message": …}`, made for the writers. -/
def errorObject (error : String) : Json :=
  JsonTree.dumps true
    (.obj [("type", .str "error"), ("message", .str error)] : JsonTree PyScalar)

/-- The result that `post_tool_use` is handed. -/
def ToolRecord.handed : ToolRecord → Json
  | .ok value => value
  | .failed error => errorObject error

/-- What `Journal(*writers)` leaves of a result. -/
def leftBy (writers : List Writer) (here : Ctx) (call : ToolCall) (result : Json) : Json :=
  journal (m := Id) (writers.map Writer.edit) here call result

/-- The writers edit one object, one after another. -/
theorem leftBy_eq (writers : List Writer) (here : Ctx) (call : ToolCall) (result : Json) :
    leftBy writers here call result
      = writers.foldl (fun result write => write.edit here call result) result := by
  induction writers generalizing result with
  | nil => rfl
  | cons write rest ih => exact ih _

/-- The controls are a plane whose `post_tool_use` is `Journal(*writers)`. -/
def Journals (x : Env) (writers : List Writer) : Prop :=
  ∀ here call record, x.reply (.postToolUse here call record)
    = .ok (leftBy writers here call record.handed)

/-- The record with the result as the writers left it: only a success holds what they were
    handed. -/
def ToolRecord.edited (left : Json) : ToolRecord → ToolRecord
  | .ok _ => .ok left
  | .failed error => .failed error

/-! ## Section 2: One call -/

section call

variable {boundary : ExecutionBoundary} {x : Env} {writers : List Writer} {here : Ctx}
  {call : ToolCall} {record : ToolRecord} {s : MemorySteps Record}

/-- The branch as the boundary's store files it. -/
def ExecutionBoundary.filed (boundary : ExecutionBoundary) : String :=
  boundary.store.name boundary.branchId

theorem afterTool_alone (hcontrols : boundary.policy.controls = true)
    (hjournals : Journals x writers) :
    runAlone x (boundary.policy.afterTool here call record).run s
      = (.ok (record.edited (leftBy writers here call record.handed)), s) := by
  unfold PolicyRunner.afterTool
  rw [if_neg (by simp [hcontrols])]
  have hasked : runAlone x (Code.ask (.postToolUse here call record) : Code Json).run s
      = (.ok (leftBy writers here call record.handed), s) := by
    show (x.reply (.postToolUse here call record), s) = _
    rw [hjournals]
    rfl
  rw [Code.runAlone_ok hasked]
  cases record <;> rfl

/-- What `project_once` stores and returns when nothing was projected yet. -/
theorem projectOnce_alone (hcontrols : boundary.policy.controls = true)
    (hjournals : Journals x writers)
    (hopen : (s.read boundary.filed (afterKey call.toolCallId)).status ≠ .done)
    (htoken : ¬ (boundary.token ≠ 0 ∧ boundary.token < s.issued boundary.filed)) :
    runAlone x (boundary.journal.projectOnce call.toolCallId (some (.tool record))
        (if boundary.policy.controls then some (boundary.policy.afterTool here call)
          else none)).run s
      = (.ok (some (.tool (record.edited (leftBy writers here call record.handed)))),
        s.setEntry boundary.filed (afterKey call.toolCallId)
          { status := .done
            value := some (.after (record.edited (leftBy writers here call record.handed)))
            version := (s.entry boundary.filed (afterKey call.toolCallId)).version + 1 }) := by
  have hread : runAlone x (boundary.journal.store.read boundary.journal.branchId
      (afterKey call.toolCallId)).run s
      = (.ok (s.read boundary.filed (afterKey call.toolCallId)), s) := rfl
  have hrecord : runAlone x (asToolRecord (some (.tool record))).run s = (.ok record, s) := rfl
  have hwrite : runAlone x (boundary.journal.store.writeControl boundary.journal.branchId
      (afterKey call.toolCallId)
      (some (.after (record.edited (leftBy writers here call record.handed))))
      boundary.journal.token).run s
      = (.ok (), s.setEntry boundary.filed (afterKey call.toolCallId)
          { status := .done
            value := some (.after (record.edited (leftBy writers here call record.handed)))
            version := (s.entry boundary.filed (afterKey call.toolCallId)).version + 1 }) := by
    -- The token is current, so the write is accepted.
    rcases writeControl_cases s boundary.filed (afterKey call.toolCallId)
      (some (.after (record.edited (leftBy writers here call record.handed)))) boundary.token with
      ⟨hnonzero, hstale, _⟩ | ⟨_, heq⟩
    · exact absurd ⟨hnonzero, hstale⟩ htoken
    · show (Except.mapError Raised.store (s.writeControl boundary.filed _ _ boundary.token).1,
        (s.writeControl boundary.filed _ _ boundary.token).2) = _
      rw [heq]
      rfl
  unfold EffectJournal.projectOnce
  dsimp only
  rw [Code.runAlone_ok hread, if_neg hopen, if_pos hcontrols]
  dsimp only
  rw [Code.runAlone_ok hrecord, Code.runAlone_ok (afterTool_alone hcontrols hjournals),
    Code.runAlone_ok hwrite]
  rfl

variable {args : Json} {s₁ : MemorySteps Record}

/-- **One tool call**, from where its record is committed: the projection is stored, and handed
    over as it is stored. -/
theorem wrapToolExecute_alone (ctx : RunContext) (tool : ToolDefinition) (st : AttemptState)
    (hcontrols : boundary.policy.controls = true)
    (hjournals : Journals x writers)
    (hcommitted : runAlone x (boundary.journal.tool call.toolCallId
      (Code.ask (.handler call args))).run s = (.ok (some (.tool record)), s₁))
    (hopen : (s₁.read boundary.filed (afterKey call.toolCallId)).status ≠ .done)
    (htoken : ¬ (boundary.token ≠ 0 ∧ boundary.token < s₁.issued boundary.filed)) :
    let here := boundary.policy.context st ctx [] (some tool)
    let projected := record.edited (leftBy writers here call record.handed)
    runAlone x ((boundary.wrapToolExecute ctx tool call args).runFrom st) s
      = ((projected.outcome, st), s₁.setEntry boundary.filed (afterKey call.toolCallId)
          { status := .done, value := some (.after projected)
            version := (s₁.entry boundary.filed (afterKey call.toolCallId)).version + 1 }) := by
  intro here projected
  have hmark : runAlone x ((AttemptM.mark
      (.toolReturned call.toolCallId (.ok (some (.tool record))))).runFrom st) s₁
      = ((.ok (), st), s₁) := rfl
  have hstate : runAlone x (AttemptM.state.runFrom st) s₁ = ((.ok st, st), s₁) := rfl
  unfold ExecutionBoundary.wrapToolExecute
  rw [AttemptM.runAlone_ok (AttemptM.runAlone_code hcommitted st), AttemptM.runAlone_ok hmark,
    AttemptM.runAlone_ok hstate]
  dsimp only
  rw [AttemptM.runAlone_ok (AttemptM.runAlone_code
    (projectOnce_alone hcontrols hjournals hopen htoken) st)]
  -- A success is returned, a failure raised: both are the record's outcome.
  cases record <;> rfl

/-- The record is committed under the key. -/
def CommittedAt (s : MemorySteps Record) (b key : String) (record : ToolRecord) : Prop :=
  (s.read b key).status = .done ∧ (s.read b key).value = some (.tool record)

/-- What a handler came to is committed before it is returned. -/
theorem commit_alone {key : String} {made : ToolRecord} {value : Option Record}
    (h : runAlone x (boundary.journal.commit key made).run s = (Except.ok value, s₁)) :
    value = some (.tool made) ∧ CommittedAt s₁ boundary.filed key made := by
  obtain ⟨⟨⟩, t, hfinish, hreturn⟩ := Code.runAlone_bind_ok h
  obtain ⟨hvalue, rfl⟩ := Prod.mk.inj hreturn
  have hvalue : some (Record.tool made) = value := Except.ok.inj hvalue
  subst hvalue
  have hfinish : s.finishEffect boundary.filed key (some (.tool made)) boundary.token =
    (.ok (), t) :=
    Code.runAlone_ledger_ok hfinish
  refine ⟨rfl, ?_⟩
  rcases finishEffect_cases s boundary.filed key (some (.tool made)) boundary.token with
    ⟨e, heq⟩ | ⟨hdone, hvalue, heq⟩ | ⟨_, heq⟩
  · cases heq.symm.trans hfinish
  · obtain ⟨_, rfl⟩ := Prod.mk.inj (heq.symm.trans hfinish)
    exact ⟨hdone, eq_of_beq hvalue⟩
  · obtain ⟨_, rfl⟩ := Prod.mk.inj (heq.symm.trans hfinish)
    unfold CommittedAt MemorySteps.read
    rw [entry_setEntry_self]
    exact ⟨rfl, rfl⟩

/-- What `tool` returns is what is committed. -/
theorem tool_alone {callId : String} {handler : Code Json}
    (h : runAlone x (boundary.journal.tool callId handler).run s
      = (Except.ok (some (.tool record)), s₁)) :
    CommittedAt s₁ boundary.filed (stepKey callId) record := by
  obtain ⟨step, t, hread, h⟩ := Code.runAlone_bind_ok h
  obtain ⟨hstep, rfl⟩ := Prod.mk.inj (Code.runAlone_ledger_ok hread)
  have hstep : s.read boundary.filed (stepKey callId) = step := Except.ok.inj hstep
  subst hstep
  dsimp only at h
  -- Done before, or run now: either way the value returned is the one committed.
  split at h
  · rename_i hdone
    obtain ⟨hvalue, rfl⟩ := Prod.mk.inj h
    exact ⟨hdone, Except.ok.inj hvalue⟩
  · obtain ⟨⟨⟩, t₁, _, h⟩ := Code.runAlone_bind_ok h
    obtain ⟨⟨⟩, t₂, _, h⟩ := Code.runAlone_bind_ok h
    obtain ⟨outcome, t₃, _, h⟩ := Code.runAlone_bind_ok h
    cases outcome with
    | ok made =>
      obtain ⟨hvalue, hcommitted⟩ := commit_alone h
      obtain rfl : record = .ok made := Record.tool.inj (Option.some.inj hvalue)
      exact hcommitted
    | error e =>
      dsimp only at h
      split at h
      · obtain ⟨⟨⟩, t₄, _, h⟩ := Code.runAlone_bind_ok h
        cases (Prod.mk.inj h).1
      · split at h
        · cases (Prod.mk.inj h).1
        · obtain ⟨hvalue, hcommitted⟩ := commit_alone h
          obtain rfl : record = .failed e.text := Record.tool.inj (Option.some.inj hvalue)
          exact hcommitted

/-- The edits reach the model: the projection filed for the call, and what is handed to Pydantic
    AI, are the result as the last writer left it, and the record stays as it was committed. -/
structure EditsReach (boundary : ExecutionBoundary) (callId : String) (record : ToolRecord)
    (left : Json) (outcome : Except Raised Json) (s : MemorySteps Record) : Prop where
  projected : ∃ projection : ToolRecord,
    s.read boundary.filed (afterKey callId)
      = { status := .done, value := some (.after projection)
          version := (s.read boundary.filed (afterKey callId)).version } ∧
    projection.handed = left ∧ outcome = projection.outcome
  kept : CommittedAt s boundary.filed (stepKey callId) record

/-- The projection of a call whose after-step was just written. -/
theorem EditsReach.of_written {callId : String} (projection : ToolRecord) (version : Nat)
    (hcommitted : CommittedAt s boundary.filed (stepKey callId) record) :
    EditsReach boundary callId record projection.handed projection.outcome
      (s.setEntry boundary.filed (afterKey callId)
        { status := .done, value := some (.after projection), version := version }) where
  projected := by
    refine ⟨projection, ?_, rfl, rfl⟩
    unfold MemorySteps.read
    rw [entry_setEntry_self]
  kept := by
    unfold CommittedAt MemorySteps.read
    rw [entry_setEntry_ne _ _ (stepKey_ne_afterKey _ _)]
    exact hcommitted

/-- Whatever else is claimed to be left, it is what the stored projection holds. -/
theorem EditsReach.left_eq {callId : String} {projection : ToolRecord} {version : Nat}
    {left : Json} {outcome : Except Raised Json}
    (h : EditsReach boundary callId record left outcome
      (s.setEntry boundary.filed (afterKey callId)
        { status := .done, value := some (.after projection), version := version })) :
    left = projection.handed := by
  obtain ⟨projection', hstored, rfl, _⟩ := h.projected
  have hstored := congrArg Step.value hstored
  unfold MemorySteps.read at hstored
  rw [entry_setEntry_self] at hstored
  obtain rfl : projection = projection' := Record.after.inj (Option.some.inj hstored)
  rfl

/-- What the writers leave is what the edited record holds, unless they changed the object that
    stood for a failure. -/
theorem ToolRecord.edited_handed (left : Json) :
    (record.edited left).handed = left ↔
      (∃ value, record = .ok value) ∨
        ∃ error, record = .failed error ∧ left = errorObject error := by
  constructor
  · intro h
    cases record with
    | ok value => exact .inl ⟨value, rfl⟩
    | failed error => exact .inr ⟨error, rfl, h.symm⟩
  · rintro (⟨value, rfl⟩ | ⟨error, rfl, rfl⟩) <;> rfl

/-- **The edits of `post_tool_use` reach the model** exactly when the record is a success, or the
    writers leave the object made of its error as it is. The attempt has controls, which are a
    chain of writers in place; it commits the record, or finds it committed; the projection is not
    stored yet; and the fence admits the attempt, so that it can be. A success is handed to the
    writers itself, an error as an object made for the occasion, which nobody reads afterwards. -/
theorem edits_reach_iff (ctx : RunContext) (tool : ToolDefinition) (st : AttemptState)
    (hcontrols : boundary.policy.controls = true)
    (hjournals : Journals x writers)
    (hcommitted : runAlone x (boundary.journal.tool call.toolCallId
      (Code.ask (.handler call args))).run s = (.ok (some (.tool record)), s₁))
    (hopen : (s₁.read boundary.filed (afterKey call.toolCallId)).status ≠ .done)
    (htoken : ¬ (boundary.token ≠ 0 ∧ boundary.token < s₁.issued boundary.filed)) :
    let here := boundary.policy.context st ctx [] (some tool)
    let run := runAlone x ((boundary.wrapToolExecute ctx tool call args).runFrom st) s
    EditsReach boundary call.toolCallId record (leftBy writers here call record.handed)
        run.1.1 run.2 ↔
      (∃ value, record = .ok value) ∨
        ∃ error, record = .failed error ∧
          leftBy writers here call (errorObject error) = errorObject error := by
  intro here run
  have hrun := wrapToolExecute_alone ctx tool st hcontrols hjournals hcommitted hopen htoken
  -- What was committed is the record as the handler made it.
  have hkept := tool_alone hcommitted
  rw [show run = _ from hrun]
  -- A failure is handed to the writers as a fresh object, so there is nothing to reach unless they
  -- left it alone.
  have hwhen : (∃ error, record = .failed error ∧
        leftBy writers here call (errorObject error) = errorObject error) ↔
      ∃ error, record = .failed error ∧
        leftBy writers here call record.handed = errorObject error := by
    constructor <;> rintro ⟨error, rfl, h⟩ <;> exact ⟨error, rfl, h⟩
  rw [hwhen, ← ToolRecord.edited_handed]
  constructor
  · intro h
    exact h.left_eq.symm
  · intro h
    have hreach := EditsReach.of_written (record.edited (leftBy writers here call record.handed))
      ((s₁.entry boundary.filed (afterKey call.toolCallId)).version + 1) hkept
    rw [h] at hreach
    exact hreach

end call

/-! An object is replaced by another, in a success and in a failure. -/

section replaced

/-- A writer that empties an object it is handed, and fills it anew. -/
def refill (anew : Json) : Writer where
  edit _ _ value := if isObject value then anew else value
  inPlace _ _ value h := by
    rw [mutable, Bool.or_eq_false_iff] at h
    rw [if_neg (by simp [h.1])]

theorem leftBy_refill {anew value : Json} (h : isObject value = true) (here : Ctx)
    (call : ToolCall) : leftBy [refill anew] here call value = anew := by
  rw [leftBy_eq]
  exact if_pos h

/-- The outside with controls that journal through the writers. -/
def journalling (writers : List Writer) : Env where
  reply
    | .postToolUse here call record => .ok (leftBy writers here call record.handed)
    | e => (outside 0 ⟨[]⟩ .continue).reply e

/-- An attempt of the branch, with controls. -/
def controlled : ExecutionBoundary :=
  ⟨.whole, "main", 0, false, ⟨true, "", "", Dict.empty, []⟩, false, false⟩

/-- The branch with the call's record committed. -/
def committedWith (record : ToolRecord) : MemorySteps Record :=
  MemorySteps.init.setEntry "main" (stepKey "c1")
    { status := .done, value := some (.tool record), version := 1 }

/-- The call that was made. -/
def readCall : ToolCall := ⟨"read", "", "c1"⟩

/-- The call from its committed record, with the writers journalling. -/
def journalled (writers : List Writer) (record : ToolRecord) :
    (Except Raised Json × AttemptState) × MemorySteps Record :=
  runAlone (journalling writers) ((controlled.wrapToolExecute ⟨0, []⟩ { name := "read" }
    readCall "").runFrom {}) (committedWith record)

theorem journalling_journals (writers : List Writer) : Journals (journalling writers) writers :=
  fun _ _ _ => rfl

theorem committedWith_alone (writers : List Writer) (record : ToolRecord) :
    runAlone (journalling writers) (controlled.journal.tool readCall.toolCallId
      (Code.ask (.handler readCall ""))).run (committedWith record)
      = (.ok (some (.tool record)), committedWith record) := rfl

/-- A success is handed over as the writer filled it. -/
theorem edits_reach_iff_success :
    EditsReach controlled "c1" (.ok (errorObject "secret")) "\x7b\x7d"
      (journalled [refill "\x7b\x7d"] (.ok (errorObject "secret"))).1.1
      (journalled [refill "\x7b\x7d"] (.ok (errorObject "secret"))).2 := by
  have hreach := (edits_reach_iff ⟨0, []⟩ { name := "read" } {} rfl
    (journalling_journals [refill "\x7b\x7d"]) (committedWith_alone _ (.ok (errorObject "secret")))
    (by decide +kernel) (by decide +kernel)).2 (.inl ⟨_, rfl⟩)
  rw [show (ToolRecord.ok (errorObject "secret")).handed = errorObject "secret" from rfl,
    leftBy_refill (by decide +kernel)] at hreach
  exact hreach

/-- The message of a failure is handed over as it was, whatever the writer put in its place. -/
theorem error_edit_lost :
    CommittedAt (committedWith (.failed "secret")) "main" (stepKey "c1") (.failed "secret") ∧
    (∀ here call, leftBy [refill (errorObject "***")] here call (errorObject "secret")
      = errorObject "***") ∧
    (journalled [refill (errorObject "***")] (.failed "secret")).1.1
      = .error (.toolFailed "secret") ∧
    ¬ EditsReach controlled "c1" (.failed "secret") (errorObject "***")
      (journalled [refill (errorObject "***")] (.failed "secret")).1.1
      (journalled [refill (errorObject "***")] (.failed "secret")).2 := by
  have hrun : journalled [refill (errorObject "***")] (.failed "secret") = _ :=
    wrapToolExecute_alone ⟨0, []⟩ { name := "read" } {} rfl (journalling_journals _)
      (committedWith_alone _ _) (by decide +kernel) (by decide +kernel)
  refine ⟨⟨by decide +kernel, by decide +kernel⟩, leftBy_refill (by decide +kernel), ?_, ?_⟩
  · rw [hrun]
    rfl
  · intro hreach
    rw [hrun] at hreach
    exact absurd hreach.left_eq (by decide +kernel)

end replaced

end Semora
