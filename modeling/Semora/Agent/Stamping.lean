import Semora.Agent.BranchRuns
import Semora.Agent.InputIds
import Semora.Agent.RuntimeOps
import Semora.Store.QueueHistory

/-! # What a Thread Names in Its Requests

    Several filters keep an input from being named twice: the queue's status,
    the ids a history names, and what the attempt has seen.

    Whether they do is a property of one thread's exchanges: a monitor
    (`stamping`) says what a thread may append to its branch and show the
    model, as long as it was answered nothing that names an input twice. -/

namespace Semora

open Pool MemorySteps

/-! ## Section 1: What a thread may append and show -/

/-- A queued input, under the id that it names itself. -/
def ItemUnder (inputId : String) (value : Record) : Prop :=
  ∃ item, value = .input item ∧ item.originId = some inputId

/-- A queue that lists every input under its own id. -/
def WellQueued (records : List (InputRecord Record)) : Prop :=
  ∀ record ∈ records, ItemUnder record.inputId record.value

/-- A round that is parked in the branch's conversation, and names no input twice. -/
structure WellParked (conversation : String) (active : Suspension) : Prop where
  conversation : active.conversationId = conversation
  nodup : (representedInputs active.continuation.messages).Nodup

/-- What a thread was answered about the inputs its history names. -/
structure Stamping where
  /-- Nothing that it was answered names an input twice. -/
  clean : Prop := True
  /-- The ids that the messages of its branch name. -/
  branch : List String := []

section monitor

variable (execution : ExecutionContext)

/-- An exchange of the thread. -/
def Stamping.answered (m : Stamping) : (o : Op) → o.Reply → Stamping
  | .ledger (.listInputs b), .ok (records : List (InputRecord Record)) =>
    { m with clean := m.clean ∧ (b = execution.filedName → WellQueued records) }
  | .ledger (.read b key), .ok (step : Step Record) =>
    { m with
      clean := m.clean ∧ (b = execution.filedName → key = activeSuspension →
        ∀ active, suspensionOf step = some active → WellParked execution.conversation active) }
  | .ext (.onInputs _ inputs), .ok (.inl screened) =>
    { m with clean := m.clean ∧ (originIds screened).Subperm (originIds inputs) }
  | .ext (.transcript (.openBranch _ _)), .ok (messages : List Message) =>
    { clean := m.clean ∧ (representedInputs messages).Nodup
      branch := representedInputs messages }
  | .ext (.transcript (.read _ _)), .ok (messages : List Message) =>
    { m with clean := m.clean ∧ (representedInputs messages).Nodup }
  | .ext (.transcript (.append messages)), .ok _ =>
    { m with branch := m.branch ++ representedInputs messages }
  | .ext (.transcript (.replace messages)), .ok _ =>
    { m with branch := representedInputs messages }
  | .ext (.mark (.agentRun _ start)), _ => { m with clean := m.clean ∧ start.stamp = [] }
  | _, _ => m

/-- What a call leaves in the ledger: queued inputs that name themselves, and no round but one that
    is parked as it should be. -/
structure StoresOnce (op : LedgerOp Record) : Prop where
  offered : op.branchId = execution.filedName → ∀ item ∈ op.offers, ItemUnder item.1 item.2
  parked : ∀ now later s active, live execution.filedName (op.perform now later s).2 = some active →
    live execution.filedName s = some active ∨ WellParked execution.conversation active

/-- What it may do: no input is named twice on its branch, before the model, or in what it leaves
    in the ledger; and what it reads is what is active. -/
def Stamping.Permits (m : Stamping) : Op → Prop
  | .ledger op => StoresOnce execution op
  | .ext (.transcript (.append messages)) => (m.branch ++ representedInputs messages).Nodup
  | .ext (.transcript (.replace messages)) => (representedInputs messages).Nodup
  | .ext (.transcript (.read _ cursor)) => cursor = none
  | .ext (.model messages) => (representedInputs messages).Nodup
  | _ => True

/-- Watches a thread that drives the branch, as long as it was answered nothing twice. -/
def stamping : Monitor Op Op.Reply Stamping where
  next m o r := m.answered execution o r
  allows m o := m.clean → m.Permits execution o

/-- An operation that may be done whenever, and leaves the thread's branch alone. -/
structure Stamping.Quiet (o : Op) : Prop where
  permitted : ∀ m : Stamping, m.Permits execution o
  branch : ∀ (m : Stamping) r, (m.answered execution o r).branch = m.branch

end monitor

section rules

variable {execution : ExecutionContext} {α β : Type}

/-- What was answered twice stays answered. -/
theorem Stamping.clean_of_answered {m : Stamping} {o : Op} {r : o.Reply}
    (h : (m.answered execution o r).clean) : m.clean := by
  unfold Stamping.answered at h
  split at h
  all_goals first
    | exact h.1
    | exact h

/-- A thread that was answered something twice may do anything. -/
theorem Stamping.spoiled {m : Stamping} (h : ¬ m.clean) (p : Prog Op Op.Reply α) :
    p.Obeys (stamping execution) (fun _ m => ¬ m.clean) m := by
  induction p generalizing m with
  | pure a => exact h
  | perform o next ih =>
    exact ⟨fun hclean => absurd hclean h, fun r => ih r fun hclean => h (clean_of_answered hclean)⟩

variable (execution) in
/-- Code of an attempt under the monitor. What is said of the fields and of the branch, is said of
    a thread that was answered nothing twice. -/
abbrev StampsIn (P : AttemptState → List String → Prop) (x : AttemptM α)
    (Q : α → AttemptState → List String → Prop) (E : AttemptState → List String → Prop) : Prop :=
  AttemptM.Watched (stamping execution) (fun st m => m.clean → P st m.branch) x
    (fun a st m => m.clean → Q a st m.branch) fun _ st m => m.clean → E st m.branch

variable {P : AttemptState → List String → Prop} {x : AttemptM α}
  {Q : α → AttemptState → List String → Prop} {E : AttemptState → List String → Prop}

/-- Code may be looked at from one state of the fields and the branch. -/
theorem StampsIn.at_ (h : ∀ st branch, P st branch →
    StampsIn execution (fun st' branch' => st' = st ∧ branch' = branch) x Q E) :
    StampsIn execution P x Q E := by
  intro st m hm
  by_cases hclean : m.clean
  · exact h st m.branch (hm hclean) st m fun _ => ⟨rfl, rfl⟩
  · refine Prog.Obeys.bind (Stamping.spoiled hclean (x.runFrom st)) (AttemptM.forall_ended ?_ ?_)
    · exact fun a st' m' hspoiled hclean' => absurd hclean' hspoiled
    · exact fun e st' m' hspoiled hclean' => absurd hclean' hspoiled

theorem StampsIn.bind {f : α → AttemptM β} {Q' : β → AttemptState → List String → Prop}
    (hx : StampsIn execution P x Q E) (hf : ∀ a, StampsIn execution (Q a) (f a) Q' E) :
    StampsIn execution P (x >>= f) Q' E := AttemptM.Watched.bind hx hf

theorem StampsIn.pure {a : α} (h : ∀ st branch, P st branch → Q a st branch) :
    StampsIn execution P (Pure.pure a) Q E := fun st m hm hclean => h st m.branch (hm hclean)

/-- What is read are the fields. -/
theorem StampsIn.state :
    StampsIn execution P AttemptM.state (fun a st branch => a = st ∧ P st branch) E :=
  fun _ _ h hclean => ⟨rfl, h hclean⟩

theorem StampsIn.update {f : AttemptState → AttemptState}
    {Q : Unit → AttemptState → List String → Prop}
    (h : ∀ st branch, P st branch → Q () (f st) branch) :
    StampsIn execution P (AttemptM.update f) Q E := fun st m hm hclean => h st m.branch (hm hclean)

theorem StampsIn.ite {p : Prop} [Decidable p] {y : AttemptM α}
    (hx : p → StampsIn execution P x Q E) (hy : ¬ p → StampsIn execution P y Q E) :
    StampsIn execution P (if p then x else y) Q E := AttemptM.Watched.ite hx hy

/-- What code does, as a value. -/
theorem StampsIn.attempt (hx : StampsIn execution P x Q E)
    {E' : AttemptState → List String → Prop} :
    StampsIn execution P (AttemptM.attempt x)
      (fun r st branch => match r with
        | .ok a => Q a st branch
        | .error _ => E st branch) E' := by
  refine AttemptM.Watched.mono (AttemptM.Watched.attempt hx) (fun _ _ h => h) ?_ fun _ _ _ h => h
  intro r st m h
  cases r with
  | ok a => exact h
  | error e => exact h

/-- A precondition that says something of the world but the fields and the branch. -/
theorem StampsIn.known {a : Prop} (ha : ∀ st branch, P st branch → a)
    (h : a → StampsIn execution P x Q E) : StampsIn execution P x Q E := by
  refine StampsIn.at_ fun st branch hpre => ?_
  refine (h (ha st branch hpre)).mono ?_ (fun _ _ _ h => h) fun _ _ _ h => h
  rintro _ m hsame hclean
  obtain ⟨rfl, hbranch⟩ := hsame hclean
  exact hbranch ▸ hpre

theorem StampsIn.mono {P' E' : AttemptState → List String → Prop}
    {Q' : α → AttemptState → List String → Prop} (h : StampsIn execution P x Q E)
    (hP : ∀ st branch, P' st branch → P st branch)
    (hQ : ∀ a st branch, Q a st branch → Q' a st branch)
    (hE : ∀ st branch, E st branch → E' st branch) : StampsIn execution P' x Q' E' :=
  AttemptM.Watched.mono h (fun _ _ h hclean => hP _ _ (h hclean))
    (fun _ _ _ h hclean => hQ _ _ _ (h hclean)) fun _ _ _ h hclean => hE _ _ (h hclean)

variable (execution) in
/-- Code of the runtime under the monitor. -/
abbrev Stamps (P : List String → Prop) (x : Code α) (Q : α → List String → Prop) : Prop :=
  Code.Watched (stamping execution) (fun m => m.clean → P m.branch) x
    (fun a m => m.clean → Q a m.branch) fun _ _ => True

variable {R : List String → Prop}

theorem Stamps.known {a : Prop} {x : Code α} {Q : α → List String → Prop}
    (ha : ∀ branch, R branch → a) (h : a → Stamps execution R x Q) : Stamps execution R x Q := by
  intro m hm
  by_cases hclean : m.clean
  · exact h (ha _ (hm hclean)) m hm
  · refine (Stamping.spoiled hclean _).mono ?_
    rintro (e | a) m' hspoiled
    · trivial
    · exact fun hclean' => absurd hclean' hspoiled

/-- What may be done whenever keeps what is said of the branch. -/
theorem Stamping.Quiet.keeps {o : Op} (ho : Stamping.Quiet execution o) {m : Stamping}
    (hm : m.clean → R m.branch) :
    (stamping execution).allows m o ∧
      ∀ r, ((stamping execution).next m o r).clean →
        R ((stamping execution).next m o r).branch := by
  refine ⟨fun _ => ho.permitted m, fun r hclean => ?_⟩
  have hbranch : ((stamping execution).next m o r).branch = m.branch := ho.branch m r
  rw [hbranch]
  exact hm (Stamping.clean_of_answered hclean)

theorem quiet_stamps {x : Code α} (hx : Code.Only (Stamping.Quiet execution) x) :
    Stamps execution R x fun _ => R :=
  (hx.watched fun _ ho _ hm => ho.keeps hm).mono (fun _ h => h) (fun _ _ h => h)
    fun _ _ _ => trivial

/-- What may be done whenever, when nothing has to be kept. -/
theorem quiet_ends {x : Code α} (hx : Code.Only (Stamping.Quiet execution) x) :
    Stamps execution R x fun _ _ => True :=
  (quiet_stamps hx).mono (fun _ h => h) (fun _ _ _ _ => trivial) fun _ _ _ => trivial

end rules

/-! ## Section 2: The hooks -/

/-- What an attempt has taken from the queue: the ids it has seen, and the inputs it holds back. -/
def AttemptState.taken (st : AttemptState) : List String × List PendingInput :=
  (st.seen, st.prefetched)

section frames

variable (p : PolicyRunner)

theorem frames_prepareTools (tools : List ToolDefinition) :
    AttemptM.Frames AttemptState.taken (PolicyRunner.prepareTools tools) :=
  (AttemptM.frames_code _).bind fun _ =>
    AttemptM.Frames.bind (AttemptM.frames_update fun _ => rfl) fun _ => AttemptM.frames_pure _

theorem frames_decideTool (here : Ctx) (call : ToolCall) (args : Json) (approved recorded : Bool) :
    AttemptM.Frames AttemptState.taken (p.decideTool here call args approved recorded) := by
  have hresume : ∀ call,
      AttemptM.Frames AttemptState.taken (p.resumeDecision here call) := by
    intro call
    unfold PolicyRunner.resumeDecision
    split
    · exact AttemptM.frames_code _
    · exact AttemptM.frames_pure _
  -- Of the policy's parts none writes what the attempt has taken.
  have hgate : AttemptM.Frames AttemptState.taken (p.gate here call) := by
    refine (AttemptM.Frames.ite (AttemptM.frames_code _) (AttemptM.frames_pure _)).bind fun _ => ?_
    refine AttemptM.frames_state.bind fun _ => ?_
    exact AttemptM.Frames.ite (AttemptM.frames_pure _) (AttemptM.frames_pure _)
  have hchoose : AttemptM.Frames AttemptState.taken
      (p.choose here call args approved recorded) :=
    AttemptM.Frames.ite (AttemptM.frames_pure _) (AttemptM.Frames.ite (hresume _) hgate)
  refine hchoose.bind fun decision => ?_
  have henter : AttemptM.Frames AttemptState.taken
      (PolicyRunner.enterSuspension call decision) := by
    cases decision with
    | suspend request =>
      exact AttemptM.Frames.ite (AttemptM.frames_update fun _ => rfl) (AttemptM.frames_throw _)
    | «continue» => exact AttemptM.frames_pure _
    | deny result => exact AttemptM.frames_pure _
  have hnoted : ∀ call refused,
      AttemptM.Frames AttemptState.taken (PolicyRunner.noteTool call refused) :=
    fun _ _ => AttemptM.frames_update fun _ => rfl
  refine henter.bind fun _ => (hnoted _ _).bind fun _ => ?_
  exact (AttemptM.frames_code _).bind fun _ => AttemptM.frames_pure _

variable (boundary : ExecutionBoundary)

theorem frames_callToolsNode (ctx : RunContext) (response : ModelResponse) :
    AttemptM.Frames AttemptState.taken (boundary.callToolsNode ctx response) := by
  have hbegun : AttemptM.Frames AttemptState.taken PolicyRunner.beginToolRound :=
    (AttemptM.frames_code _).bind fun _ => AttemptM.frames_update fun _ => rfl
  refine AttemptM.Frames.bind (AttemptM.frames_update fun _ => rfl) fun _ =>
    hbegun.bind fun _ => ?_
  exact AttemptM.Frames.ite (AttemptM.frames_pure _) (AttemptM.frames_code _)

theorem frames_beforeToolExecute (ctx : RunContext) (tool : ToolDefinition) (call : ToolCall)
    (args : Json) (approved : Bool) :
    AttemptM.Frames AttemptState.taken
      (boundary.beforeToolExecute ctx tool call args approved) := by
  refine (AttemptM.frames_code _).bind fun _ => AttemptM.frames_state.bind fun st => ?_
  refine (AttemptM.frames_code _).bind fun recorded => ?_
  refine (frames_decideTool _ _ _ _ _ _).bind fun decision => ?_
  cases decision with
  | «continue» => exact AttemptM.frames_pure _
  | deny result => exact AttemptM.frames_throw _
  | suspend request => exact AttemptM.frames_throw _

theorem frames_wrapToolExecute (ctx : RunContext) (tool : ToolDefinition) (call : ToolCall)
    (args : Json) :
    AttemptM.Frames AttemptState.taken (boundary.wrapToolExecute ctx tool call args) := by
  refine (AttemptM.frames_code _).bind fun _ => (AttemptM.frames_code _).bind fun _ => ?_
  refine AttemptM.frames_state.bind fun st => (AttemptM.frames_code _).bind fun record => ?_
  refine (AttemptM.frames_code _).bind fun record => ?_
  cases record with
  | ok value => exact AttemptM.frames_pure _
  | failed error => exact AttemptM.frames_throw _

end frames

section quiet

variable {execution : ExecutionContext} {α : Type}

/-- What leaves the suspension alone. -/
theorem storesOnce_apart {op : LedgerOp Record}
    (hoffers : op.branchId = execution.filedName → ∀ item ∈ op.offers, ItemUnder item.1 item.2)
    (hkeys : op.branchId ≠ execution.filedName ∨ activeSuspension ∉ op.keys) :
    StoresOnce execution op where
  offered := hoffers
  parked now later s active hactive := by
    unfold live at hactive ⊢
    rw [perform_entry op now later s hkeys] at hactive
    exact Or.inl hactive

theorem storesOnce_idle {op : LedgerOp Record} (hoffers : op.offers = [])
    (hkeys : op.branchId ≠ execution.filedName ∨ activeSuspension ∉ op.keys) :
    StoresOnce execution op :=
  storesOnce_apart (fun _ => by simp [hoffers]) hkeys

theorem quiet_ledger {op : LedgerOp Record} (h : StoresOnce execution op) :
    Stamping.Quiet execution (.ledger op) := by
  refine ⟨fun _ => h, fun m r => ?_⟩
  cases op <;> cases r <;> rfl

/-- A call that neither offers an input nor writes a step. -/
theorem quiet_silent {op : LedgerOp Record} (hoffers : op.offers = []) (hkeys : op.keys = []) :
    Stamping.Quiet execution (.ledger op) :=
  quiet_ledger (storesOnce_idle hoffers (Or.inr (by simp [hkeys])))

theorem LedgerOp.offers_atBoundary {V : Type} {op : LedgerOp V} (hcalled : op.atBoundary = true) :
    op.offers = [] := by
  cases op with
  | enqueueInput b inputId value => cases hcalled
  | commitTransition b transition token => cases hcalled
  | _ => rfl

theorem quiet_controls (boundary : ExecutionBoundary) :
    PermitsControls boundary (Stamping.Quiet execution) where
  silent _ _ _ hcalled hkeys := quiet_silent (LedgerOp.offers_atBoundary hcalled) hkeys
  asked e he hother := by
    cases e with
    | onInputs here inputs =>
      refine ⟨fun _ => trivial, fun m r => ?_⟩
      cases r with
      | error e => rfl
      | ok screened => cases screened <;> rfl
    | transcript op =>
      cases op with
      | append messages => exact absurd rfl (hother messages)
      | _ => cases he
    | model messages => cases he
    | mark m => cases he
    | _ => exact ⟨fun _ => trivial, fun _ _ => rfl⟩
  mark m _ := by
    refine ⟨fun _ => trivial, fun _ _ => ?_⟩
    cases m <;> rfl

theorem quiet_key (boundary : ExecutionBoundary) {key : String} (hkey : key ≠ activeSuspension) :
    PermitsKey boundary (Stamping.Quiet execution) key :=
  fun _ _ _ hcalled hkeys => quiet_ledger (storesOnce_idle (LedgerOp.offers_atBoundary hcalled)
    (Or.inr fun hmem => hkey (hkeys _ hmem).symm))

/-- The model may be shown what names no input twice. -/
theorem quiet_model {messages : List Message} (h : (representedInputs messages).Nodup) :
    Stamping.Quiet execution (.ext (.model messages)) := ⟨fun _ => h, fun _ _ => rfl⟩

/-- What may be done whenever keeps what is said of the branch and of what was taken. -/
theorem quiet_stampsIn {R : List String × List PendingInput → List String → Prop} {x : AttemptM α}
    (hx : AttemptM.Only (Stamping.Quiet execution) x)
    (hframes : AttemptM.Frames AttemptState.taken x) :
    StampsIn execution (fun st => R st.taken) x (fun _ st => R st.taken) fun st => R st.taken :=
  hx.watched_fields (P := fun (taken : List String × List PendingInput) (m : Stamping) =>
    m.clean → R taken m.branch) hframes fun _ ho _ _ hm => ho.keeps hm

/-- So does code that touches no field. -/
theorem quiet_code {P : AttemptState → List String → Prop} {x : Code α}
    (hx : Code.Only (Stamping.Quiet execution) x) :
    StampsIn execution P (AttemptM.code x) (fun _ => P) P :=
  AttemptM.Watched.code fun _ => hx.watched fun _ ho _ hm => ho.keeps hm

end quiet

/-! What an attempt has taken, and what it may still name. -/

/-- Ids that were taken from the queue, and that nothing names yet. -/
structure Unnamed (seen ids branch new : List String) : Prop where
  nodup : new.Nodup
  taken : new ⊆ seen
  unshown : ∀ id ∈ new, id ∉ ids
  off_branch : ∀ id ∈ new, id ∉ branch

/-- No input is named twice: by the messages of the run, and on the branch. `start` is what the
    history named at the start of the run. -/
structure Unrepeated (start ids : List String) (taken : List String × List PendingInput)
    (branch : List String) : Prop where
  ids_nodup : ids.Nodup
  start_shown : start ⊆ ids
  branch_nodup : branch.Nodup
  branch_from : ∀ id ∈ branch, id ∈ start ∨ id ∈ taken.1
  held : Unnamed taken.1 ids branch (originIds taken.2)

section taken

variable {start ids branch new more seen seen' : List String} {held : List PendingInput}

theorem unnamed_nil : Unnamed seen ids branch [] :=
  ⟨List.nodup_nil, List.nil_subset _, nofun, nofun⟩

theorem Unnamed.grow (h : Unnamed seen ids branch new) (hseen : seen ⊆ seen') :
    Unnamed seen' ids branch new :=
  ⟨h.nodup, List.Subset.trans h.taken hseen, h.unshown, h.off_branch⟩

theorem Unnamed.subperm (h : Unnamed seen ids branch new) (hmore : more.Subperm new) :
    Unnamed seen ids branch more := by
  obtain ⟨among, hperm, hamong⟩ := hmore
  have hsubset : more ⊆ new := fun id hid => hamong.subset (hperm.mem_iff.mpr hid)
  exact ⟨hperm.nodup_iff.mp (h.nodup.sublist hamong), List.Subset.trans hsubset h.taken,
    fun id hid => h.unshown id (hsubset hid), fun id hid => h.off_branch id (hsubset hid)⟩

/-- What is taken later is none of what was taken before. -/
theorem Unnamed.append (h : Unnamed seen ids branch new) (hmore : Unnamed seen' ids branch more)
    (hseen : seen ⊆ seen') (hfresh : ∀ id ∈ more, id ∉ seen) :
    Unnamed seen' ids branch (new ++ more) where
  nodup := by
    refine List.nodup_append.mpr ⟨h.nodup, hmore.nodup, ?_⟩
    rintro id hid _ hother rfl
    exact hfresh id hother (h.taken hid)
  taken := List.append_subset.mpr ⟨List.Subset.trans h.taken hseen, hmore.taken⟩
  unshown id hid := (List.mem_append.mp hid).elim (h.unshown id) (hmore.unshown id)
  off_branch id hid := (List.mem_append.mp hid).elim (h.off_branch id) (hmore.off_branch id)

/-- At the start of a run nothing is taken. -/
theorem unrepeated_start (h : start.Nodup) : Unrepeated start start ([], []) start :=
  ⟨h, List.Subset.refl _, h, fun _ hid => Or.inl hid, unnamed_nil⟩

/-- What is held back may be dropped, and more be seen. -/
theorem Unrepeated.hold (h : Unrepeated start ids (seen, held) branch) (hseen : seen ⊆ seen')
    {items : List PendingInput} (hitems : Unnamed seen' ids branch (originIds items)) :
    Unrepeated start ids (seen', items) branch :=
  ⟨h.ids_nodup, h.start_shown, h.branch_nodup,
    fun id hid => (h.branch_from id hid).imp_right fun hmem => hseen hmem, hitems⟩

theorem Unnamed.append_nodup (h : Unnamed seen ids branch new) (hids : ids.Nodup) :
    (ids ++ new).Nodup := by
  refine List.nodup_append.mpr ⟨hids, h.nodup, ?_⟩
  rintro id hid _ hother rfl
  exact h.unshown id hother hid

/-- The branch may name what was taken. -/
theorem Unrepeated.record (h : Unrepeated start ids (seen, []) branch)
    (hnew : Unnamed seen ids branch new) : Unrepeated start ids (seen, []) (branch ++ new) where
  ids_nodup := h.ids_nodup
  start_shown := h.start_shown
  branch_nodup := by
    refine List.nodup_append.mpr ⟨h.branch_nodup, hnew.nodup, ?_⟩
    rintro id hid _ hother rfl
    exact hnew.off_branch id hother hid
  branch_from id hid := (List.mem_append.mp hid).elim (h.branch_from id)
    fun hmem => Or.inr (hnew.taken hmem)
  held := unnamed_nil

/-- And the messages of the run then name it as well. -/
theorem Unrepeated.show (h : Unrepeated start ids (seen, []) branch) (hnew : (ids ++ new).Nodup) :
    Unrepeated start (ids ++ new) (seen, []) branch :=
  ⟨hnew, List.Subset.trans h.start_shown (List.subset_append_left _ _), h.branch_nodup,
    h.branch_from, unnamed_nil⟩

/-- What is claimed is not named yet, as long as the run knows what the branch names. -/
theorem Unrepeated.unnamed (h : Unrepeated start ids (seen, held) branch) (hnodup : new.Nodup)
    (htaken : new ⊆ seen') (hunshown : ∀ id ∈ new, id ∉ ids) (hfresh : ∀ id ∈ new, id ∉ seen) :
    Unnamed seen' ids branch new := by
  refine ⟨hnodup, htaken, hunshown, fun id hid hbranch => ?_⟩
  rcases h.branch_from id hbranch with hstart | hseen
  · exact hunshown id hid (h.start_shown hstart)
  · exact hfresh id hid hseen

end taken

/-! What each hook takes and names. -/

section hooks

variable {execution : ExecutionContext} {boundary : ExecutionBoundary}
  {P : AttemptState → List String → Prop}

/-- What `claim` comes back with: inputs that were not seen, and are seen now. -/
structure Claimed (represented seen : List String) (items : List PendingInput)
    (seen' : List String) : Prop where
  grown : seen ⊆ seen'
  nodup : (originIds items).Nodup
  taken : originIds items ⊆ seen'
  unshown : ∀ id ∈ originIds items, id ∉ represented
  fresh : ∀ id ∈ originIds items, id ∉ seen

theorem claimed_nil (represented seen : List String) : Claimed represented seen [] seen :=
  ⟨List.Subset.refl _, List.nodup_nil, List.nil_subset _, nofun, nofun⟩

/-- One more input is claimed before the others. -/
theorem Claimed.cons {represented seen seen' : List String} {item : PendingInput}
    {items : List PendingInput} {inputId : String} (hitem : item.originId = some inputId)
    (hshown : inputId ∉ represented) (hseen : inputId ∉ seen)
    (h : Claimed represented (inputId :: seen) items seen') :
    Claimed represented seen (item :: items) seen' := by
  have hids : originIds (item :: items) = inputId :: originIds items := by
    simp [originIds, hitem]
  obtain ⟨hmem, hgrown⟩ := List.cons_subset.mp h.grown
  refine ⟨hgrown, ?_, ?_, ?_, ?_⟩
  · rw [hids]
    exact List.nodup_cons.mpr ⟨fun hlater => h.fresh inputId hlater List.mem_cons_self, h.nodup⟩
  · rw [hids]
    exact List.cons_subset.mpr ⟨hmem, h.taken⟩
  · rw [hids]
    exact List.forall_mem_cons.mpr ⟨hshown, h.unshown⟩
  · rw [hids]
    exact List.forall_mem_cons.mpr
      ⟨hseen, fun id hid hold => h.fresh id hid (List.mem_cons_of_mem _ hold)⟩

/-- The loop of `claim`: each record that is claimed names its own input. -/
theorem claimRecords_stamps (represented : List String) {records : List (InputRecord Record)}
    (hqueued : WellQueued records) (seen : List String) (held : List PendingInput)
    (branch : List String) :
    StampsIn execution (fun st named => st.taken = (seen, held) ∧ named = branch)
      (boundary.inputs.claimRecords represented records)
      (fun items st named => ∃ seen', Claimed represented seen items seen' ∧
        st.taken = (seen', held) ∧ named = branch)
      fun st named => ∃ seen', seen ⊆ seen' ∧ st.taken = (seen', held) ∧ named = branch := by
  -- Induction on the records; `seen` grows by each one that is claimed.
  induction records generalizing seen with
  | nil =>
    exact AttemptM.Watched.pure fun _ _ h hclean => ⟨seen, claimed_nil _ _, h hclean⟩
  | cons record rest ih =>
    have hrest : WellQueued rest := fun other hother =>
      hqueued other (List.mem_cons_of_mem _ hother)
    refine StampsIn.bind StampsIn.state fun fields => ?_
    refine StampsIn.known (a := fields.seen = seen) (fun st _ h => ?_) fun hfields => ?_
    · rw [h.1]
      exact congrArg Prod.fst h.2.1
    -- Represented already, or seen: passed over. Otherwise claimed, noted, and decoded.
    refine StampsIn.ite (fun _ => ?_) fun hclaimed => ?_
    · exact (ih hrest seen).mono (fun _ _ h => h.2) (fun _ _ _ h => h) fun _ _ h => h
    · rw [hfields] at hclaimed
      obtain ⟨item, hvalue, hitem⟩ := hqueued record List.mem_cons_self
      have hclaim : Code.Only (Stamping.Quiet execution) (boundary.inputs.store.claimInput
          boundary.inputs.branchId record.inputId boundary.inputs.token) :=
        Code.only_ledger (quiet_silent rfl rfl)
      refine StampsIn.bind ((quiet_code hclaim).mono (fun _ _ h => h) (fun _ _ _ h => h)
        fun _ _ h => ⟨seen, List.Subset.refl _, h.2⟩) fun _ => ?_
      refine StampsIn.bind (Q := fun _ st named =>
        st.taken = (record.inputId :: seen, held) ∧ named = branch)
        (StampsIn.update fun st named h => ?_) fun _ => ?_
      · obtain ⟨hseen, hheld⟩ := Prod.mk.inj h.2.1
        exact ⟨congrArg₂ Prod.mk (congrArg _ hseen) hheld, h.2.2⟩
      · rw [hvalue]
        refine StampsIn.bind (Q := fun a st named => a = item ∧
          st.taken = (record.inputId :: seen, held) ∧ named = branch)
          (AttemptM.Watched.code fun _ => Code.Watched.pure fun _ h hclean => ⟨rfl, h hclean⟩)
          fun decoded => StampsIn.known (fun _ _ h => h.1) fun hdecoded => ?_
        refine StampsIn.bind ((ih hrest (record.inputId :: seen)).mono (fun _ _ h => h.2)
          (fun _ _ _ h => h) ?_) fun items => StampsIn.pure ?_
        · rintro st named ⟨seen', hgrown, h⟩
          exact ⟨seen', (List.cons_subset.mp hgrown).2, h⟩
        · rintro st named ⟨seen', hitems, h⟩
          -- The new item is neither represented nor seen, so the list stays without repeats.
          exact ⟨seen', hdecoded ▸ hitems.cons hitem (fun hshown => hclaimed (by simp [hshown]))
            (fun hold => hclaimed (by simp [hold])), h⟩

/-- `claim`, on the branch itself. -/
theorem claim_stamps (hb : boundary.store.name boundary.branchId = execution.filedName)
    (represented seen : List String) (held : List PendingInput) (branch : List String) :
    StampsIn execution (fun st named => st.taken = (seen, held) ∧ named = branch)
      (boundary.inputs.claim represented)
      (fun items st named => ∃ seen', Claimed represented seen items seen' ∧
        st.taken = (seen', held) ∧ named = branch)
      fun st named => ∃ seen', seen ⊆ seen' ∧ st.taken = (seen', held) ∧ named = branch := by
  have hlist : StampsIn execution (fun st named => st.taken = (seen, held) ∧ named = branch)
      (AttemptM.code (boundary.inputs.store.listInputs boundary.inputs.branchId))
      (fun records st named => WellQueued records ∧ st.taken = (seen, held) ∧ named = branch)
      fun st named => ∃ seen', seen ⊆ seen' ∧ st.taken = (seen', held) ∧ named = branch := by
    refine AttemptM.Watched.code fun st => Code.Watched.ledger
      (fun _ _ _ => (quiet_silent rfl rfl).permitted ⟨True, []⟩) ?_ ?_
    · exact fun m hm records hclean => ⟨hclean.2 hb, hm hclean.1⟩
    · exact fun m hm _ hclean => ⟨seen, List.Subset.refl _, hm hclean⟩
  refine StampsIn.bind hlist fun records => StampsIn.known (fun _ _ h => h.1) fun hqueued => ?_
  exact (claimRecords_stamps represented hqueued seen held branch).mono (fun _ _ h => h.2)
    (fun _ _ _ h => h) fun _ _ h => h

theorem originIds_append (items more : List PendingInput) :
    originIds (items ++ more) = originIds items ++ originIds more := List.filterMap_append

/-- What the caller asks is no queued input. -/
theorem originIds_prompts (parts : List RequestPart) :
    originIds (parts.map fun part => { kind := "user", part := part }) = [] := by
  simp [originIds, List.filterMap_map]

/-- `_screen`: what passes are inputs that were offered. -/
theorem screen_stamps (here : Ctx) (pending inputs : List PendingInput) :
    StampsIn execution P (boundary.screen here pending inputs)
      (fun screened st branch => P st branch ∧ ∀ passed, screened = .inl passed →
        (originIds passed).Subperm (originIds inputs)) P := by
  refine StampsIn.ite (fun _ => StampsIn.pure fun _ _ h => ⟨h, ?_⟩) fun _ => ?_
  · rintro passed heq
    rw [Sum.inl.inj heq]
  · -- What the screen passes is some of what it was given: that is the hypothesis on it.
    have hasked : StampsIn execution P
        (AttemptM.ask (α := List PendingInput ⊕ StopReason) (.onInputs here inputs))
        (fun screened st branch => P st branch ∧ ∀ passed, screened = .inl passed →
          (originIds passed).Subperm (originIds inputs)) P := by
      refine AttemptM.Watched.code fun st => Code.Watched.ask rfl (fun _ _ _ => trivial) ?_
      intro m hm r
      cases r with
      | error error => exact hm
      | ok screened =>
        cases screened with
        | inl passed =>
          rintro ⟨hclean, hpassed⟩
          refine ⟨hm hclean, fun passed' heq => ?_⟩
          rw [← Sum.inl.inj heq]
          exact hpassed
        | inr reason => exact fun hclean => ⟨hm hclean, nofun⟩
    refine StampsIn.bind hasked fun screened => ?_
    cases screened with
    | inr reason => exact StampsIn.pure fun _ _ h => ⟨h.1, nofun⟩
    | inl passed =>
      refine StampsIn.known (fun _ _ h => h.2 passed rfl) fun hpassed => ?_
      -- Discarding the rest is ledger work and stamps nothing.
      have hdiscard : ∀ items, StampsIn execution P (boundary.inputs.discard items)
          (fun _ => P) P := fun items =>
        StampsIn.ite (fun _ => StampsIn.pure fun _ _ h => h) fun _ =>
          quiet_code (Code.only_ledger (quiet_silent rfl rfl))
      refine StampsIn.bind ((hdiscard _).mono (fun _ _ h => h.1) (fun _ _ _ h => h)
        fun _ _ h => h) fun _ => StampsIn.pure fun _ _ h => ⟨h, ?_⟩
      intro passed' heq
      rw [← Sum.inl.inj heq]
      exact hpassed

/-- The controls before a model request. -/
theorem steer_stamps (ctx : RunContext) (request : ModelRequest)
    (pending inputs : List PendingInput) :
    StampsIn execution P (boundary.steer ctx request pending inputs)
      (fun steered st branch => P st branch ∧ ∀ passed steers, steered = .inl (passed, steers) →
        (originIds passed).Subperm (originIds inputs)) P := by
  refine StampsIn.ite (fun _ => StampsIn.pure fun _ _ h => ⟨h, ?_⟩) fun _ => ?_
  · intro passed steers heq
    rw [← (Prod.mk.inj (Sum.inl.inj heq)).1]
  · refine StampsIn.bind (StampsIn.state.mono (fun _ _ h => h) (fun _ _ _ h => h.2) fun _ _ h => h)
      fun st => StampsIn.bind (screen_stamps _ pending inputs) fun screened => ?_
    -- A halt, by the screen or by the control, passes nothing on.
    cases screened with
    | inr reason => exact StampsIn.pure fun _ _ h => ⟨h.1, nofun⟩
    | inl passed =>
      refine StampsIn.known (fun _ _ h => h.2 passed rfl) fun hpassed => ?_
      have hasked : ∀ here, StampsIn execution P
          (AttemptM.ask (α := TurnDecision) (.beforeModel here)) (fun _ => P) P := fun here =>
        quiet_code (Code.only_ask rfl ⟨fun _ => trivial, fun _ _ => rfl⟩)
      refine StampsIn.bind ((hasked _).mono (fun _ _ h => h.1) (fun _ _ _ h => h) fun _ _ h => h)
        fun decision => ?_
      cases decision with
      | halt reason => exact StampsIn.pure fun _ _ h => ⟨h, nofun⟩
      | proceed steers =>
        refine StampsIn.pure fun _ _ h => ⟨h, fun passed' steers' heq => ?_⟩
        rw [← (Prod.mk.inj (Sum.inl.inj heq)).1]
        exact hpassed

/-- A request that named nothing names its inputs. -/
theorem admittedRequest_inputIds {request : ModelRequest} (hrequest : request.inputIds = [])
    (inputs : List PendingInput) (steers : List RequestPart) :
    (ExecutionBoundary.admittedRequest request inputs steers).inputIds = originIds inputs := by
  unfold ExecutionBoundary.admittedRequest
  dsimp only
  split
  · next hnone => rw [hrequest, hnone]
  · rfl

/-- What is appended is named on the branch, if there is a transcript. -/
theorem record_stamps {messages : List Message} {E : AttemptState → List String → Prop}
    {Q : AttemptState → List String → Prop}
    (hpermits : ∀ st branch, P st branch → (branch ++ representedInputs messages).Nodup)
    (hnamed : ∀ st branch, P st branch → Q st (branch ++ representedInputs messages))
    (hsame : ∀ st branch, P st branch → Q st branch) (hfailed : ∀ st branch, P st branch →
      E st branch) :
    StampsIn execution P (boundary.record messages) (fun _ => Q) E := by
  refine StampsIn.ite (fun _ => ?_) fun _ => StampsIn.pure fun _ _ h => hsame _ _ h
  refine AttemptM.Watched.code fun st => Code.Watched.ask rfl
    (fun m hm hclean => hpermits st m.branch (hm hclean)) ?_
  intro m hm r
  cases r with
  | error error => exact fun hclean => hfailed st m.branch (hm hclean)
  | ok u => exact fun hclean => hnamed st m.branch (hm hclean)

/-- Nothing is named twice, where the messages of the run name `ids`. -/
def NamesOnce (start ids : List String) (st : AttemptState) (branch : List String) : Prop :=
  Unrepeated start ids st.taken branch

theorem NamesOnce.at_taken {start ids seen branch branch' : List String}
    {held : List PendingInput} {st : AttemptState} (h : Unrepeated start ids (seen, held) branch)
    (htaken : st.taken = (seen, held)) (hbranch : branch' = branch) :
    NamesOnce start ids st branch' := by
  unfold NamesOnce
  rw [htaken, hbranch]
  exact h

/-- The request joins the branch, and then its inputs are admitted. -/
theorem joined_stamps {start ids seen branch : List String} {admitted : ModelRequest}
    (hempty : Unrepeated start ids (seen, []) branch)
    (hnew : Unnamed seen ids branch admitted.inputIds) (passed : List PendingInput) :
    StampsIn execution (fun st named => st.taken = (seen, []) ∧ named = branch)
      (do
        boundary.record [.request admitted]
        boundary.inputs.admit_ passed
        pure (Sum.inl admitted : ModelRequest ⊕ StopReason))
      (fun joined st named => NamesOnce start ids st named ∧
        ∀ request, joined = .inl request → NamesOnce start (ids ++ request.inputIds) st named)
      (NamesOnce start ids) := by
  have hshown := hnew.append_nodup hempty.ids_nodup
  -- Recording names the inputs on the branch, and showing them adds them to what is shown.
  have hrecord : StampsIn execution (fun st named => st.taken = (seen, []) ∧ named = branch)
      (boundary.record [.request admitted])
      (fun _ st named => NamesOnce start ids st named ∧
        NamesOnce start (ids ++ admitted.inputIds) st named) (NamesOnce start ids) := by
    refine record_stamps ?_ ?_ ?_ fun _ _ h => .at_taken hempty h.1 h.2
    · rintro st named ⟨_, rfl⟩
      rw [representedInputs_request]
      exact (hempty.record hnew).branch_nodup
    · rintro st named ⟨hst, rfl⟩
      rw [representedInputs_request]
      exact ⟨.at_taken (hempty.record hnew) hst rfl,
        .at_taken ((hempty.record hnew).show hshown) hst rfl⟩
    · rintro st named ⟨hst, rfl⟩
      exact ⟨.at_taken hempty hst rfl, .at_taken (hempty.show hshown) hst rfl⟩
  -- Admitting them is ledger work.
  have hadmit : StampsIn execution (fun st named => NamesOnce start ids st named ∧
      NamesOnce start (ids ++ admitted.inputIds) st named) (boundary.inputs.admit_ passed)
      (fun _ st named => NamesOnce start ids st named ∧
        NamesOnce start (ids ++ admitted.inputIds) st named) (NamesOnce start ids) := by
    refine StampsIn.ite (fun _ => StampsIn.pure fun _ _ h => h) fun _ => ?_
    exact (quiet_code (Code.only_ledger (quiet_silent rfl rfl))).mono (fun _ _ h => h)
      (fun _ _ _ h => h) fun _ _ h => h.1
  refine StampsIn.bind hrecord fun _ => StampsIn.bind hadmit fun _ =>
    StampsIn.pure fun st named h => ⟨h.1, ?_⟩
  intro request heq
  rw [← Sum.inl.inj heq]
  exact h.2

/-- `_admit`: the request names inputs that nothing named, and its branch names them with it. -/
theorem admit_stamps (hb : boundary.store.name boundary.branchId = execution.filedName)
    {start ids : List String} {ctx : RunContext} {request : ModelRequest}
    (hctx : representedInputs ctx.messages = ids) (hrequest : request.inputIds = []) :
    StampsIn execution (NamesOnce start ids) (boundary.admit_ ctx request)
      (fun admitted st branch => NamesOnce start ids st branch ∧
        ∀ request, admitted = .inl request → NamesOnce start (ids ++ request.inputIds) st branch)
      (NamesOnce start ids) := by
  refine StampsIn.bind StampsIn.state fun before => ?_
  -- what the attempt held back is among what it takes now
  refine StampsIn.at_ fun _ branch hpre => ?_
  obtain ⟨rfl, hbefore⟩ := hpre
  obtain ⟨seen, hseen⟩ : ∃ seen, before.seen = seen := ⟨_, rfl⟩
  obtain ⟨held, hheld⟩ : ∃ held, before.prefetched = held := ⟨_, rfl⟩
  have htaken : before.taken = (seen, held) := congrArg₂ Prod.mk hseen hheld
  unfold NamesOnce at hbefore
  rw [htaken] at hbefore
  -- The held ones are given up before anything is claimed.
  refine StampsIn.bind (Q := fun _ st named => st.taken = (seen, []) ∧ named = branch)
    (StampsIn.update ?_) fun _ => ?_
  · rintro _ _ ⟨rfl, rfl⟩
    exact ⟨congrArg (·, []) hseen, rfl⟩
  refine StampsIn.bind ((claim_stamps hb (representedInputs ctx.messages) seen [] branch).mono
    (fun _ _ h => h) (fun _ _ _ h => h) ?_) fun claimed => ?_
  · rintro st named ⟨seen', hgrown, hst, hnamed⟩
    exact .at_taken (hbefore.hold hgrown unnamed_nil) hst hnamed
  refine StampsIn.at_ fun after named hpre => ?_
  obtain ⟨seen', hclaimed, hafter, rfl⟩ := hpre
  have hempty : Unrepeated start ids (seen', []) named := hbefore.hold hclaimed.grown unnamed_nil
  -- Held and claimed together are named nowhere yet, so what passes of them may be named.
  have hpending : Unnamed seen' ids named (originIds (before.prefetched ++ claimed)) := by
    rw [originIds_append, hheld]
    refine hbefore.held.append ?_ hclaimed.grown hclaimed.fresh
    exact hbefore.unnamed hclaimed.nodup hclaimed.taken
      (fun id hid => hctx ▸ hclaimed.unshown id hid) hclaimed.fresh
  refine StampsIn.bind ((steer_stamps (P := fun st branch => st.taken = (seen', []) ∧
    branch = named) ctx request _ _).mono ?_ (fun _ _ _ h => h) ?_) fun steered => ?_
  · rintro st branch' ⟨rfl, rfl⟩
    exact ⟨hafter, rfl⟩
  · exact fun _ _ h => .at_taken hempty h.1 h.2
  cases steered with
  | inr reason =>
    exact StampsIn.pure fun _ _ h => ⟨.at_taken hempty h.1.1 h.1.2, nofun⟩
  | inl steered =>
    obtain ⟨passed, steers⟩ := steered
    refine StampsIn.known (fun _ _ h => h.2 passed steers rfl) fun hpassed => ?_
    rw [originIds_append, originIds_prompts, List.nil_append] at hpassed
    have hnew := hpending.subperm hpassed
    rw [← admittedRequest_inputIds hrequest passed steers] at hnew
    exact (joined_stamps hempty hnew passed).mono (fun _ _ h => h.1) (fun _ _ _ h => h)
      fun _ _ h => h

/-- `wrap_node_run` of a `ModelRequestNode`. -/
theorem modelRequestNode_stamps
    (hb : boundary.store.name boundary.branchId = execution.filedName) {start ids : List String}
    (digest : List Message → List ToolDefinition → String) {ctx : RunContext}
    {request : ModelRequest} (tools : List ToolDefinition)
    (hctx : representedInputs ctx.messages = ids) (hrequest : request.inputIds = []) :
    StampsIn execution (NamesOnce start ids) (boundary.modelRequestNode digest ctx request tools)
      (fun result => NamesOnce start
        ((NodeOp.modelRequest ctx request tools).idsAfter ids [] (.ok result)))
      (NamesOnce start ids) := by
  have hturned : StampsIn execution (NamesOnce start ids)
      (AttemptM.update fun st => { st with turn := ctx.runStep })
      (fun _ => NamesOnce start ids) (NamesOnce start ids) := StampsIn.update fun _ _ h => h
  -- A halt shows nothing new.
  have hhalt : ∀ reason joined, StampsIn execution (NamesOnce start ids)
      (ExecutionBoundary.halt ctx reason joined) (fun result => NamesOnce start
        ((NodeOp.modelRequest ctx request tools).idsAfter ids [] (.ok result)))
      (NamesOnce start ids) := by
    intro reason joined
    refine StampsIn.bind (Q := fun _ => NamesOnce start ids)
      (StampsIn.update fun _ _ h => h) fun _ => StampsIn.pure fun st branch h => ?_
    cases joined with
    | false => exact h
    | true =>
      show NamesOnce start (ids ++ []) st branch
      rw [List.append_nil]
      exact h
  refine StampsIn.bind hturned fun _ => StampsIn.ite (fun _ => hhalt _ _) fun _ => ?_
  refine StampsIn.bind (admit_stamps hb hctx hrequest) fun admitted => ?_
  cases admitted with
  | inr reason =>
    exact (hhalt reason false).mono (fun _ _ h => h.1) (fun _ _ _ h => h) fun _ _ h => h
  | inl request' =>
    -- Preparing the tools stamps nothing.
    have hprepare : StampsIn execution (fun st branch => NamesOnce start ids st branch ∧
        NamesOnce start (ids ++ request'.inputIds) st branch) (PolicyRunner.prepareTools tools)
        (fun _ st branch => NamesOnce start ids st branch ∧
          NamesOnce start (ids ++ request'.inputIds) st branch)
        fun st branch => NamesOnce start ids st branch ∧
          NamesOnce start (ids ++ request'.inputIds) st branch :=
      quiet_stampsIn (R := fun taken branch => Unrepeated start ids taken branch ∧
        Unrepeated start (ids ++ request'.inputIds) taken branch)
        (prepareTools_only (quiet_controls boundary) tools) (frames_prepareTools tools)
    refine StampsIn.bind (hprepare.mono (fun _ _ h => ⟨h.1, h.2 request' rfl⟩)
      (fun _ _ _ h => h) fun _ _ h => h.1) fun prepared => ?_
    refine StampsIn.known (fun _ _ h => h.2.ids_nodup) fun hnodup => ?_
    -- The request now shows the history and what was joined, each input once.
    have hshown : (representedInputs (ctx.messages ++ [.request request'])).Nodup := by
      rw [representedInputs_append, representedInputs_request, hctx]
      exact hnodup
    have hkey : PermitsKey boundary (Stamping.Quiet execution)
        (modelStepKey (digest (ctx.messages ++ [.request request']) prepared)) :=
      quiet_key boundary (modelStepKey_ne_activeSuspension _)
    have hmodel := model_only hkey (Code.only_ask rfl (quiet_model hshown))
    refine StampsIn.bind ((quiet_code hmodel).mono (fun _ _ h => h) (fun _ _ _ h => h)
      fun _ _ h => h.1) fun response => StampsIn.pure fun _ _ h => h.2

/-- `_decide_finish`: inputs that come late are held back for the next request. -/
theorem decideFinish_stamps (hb : boundary.store.name boundary.branchId = execution.filedName)
    {start ids : List String} {ctx : RunContext} (hctx : representedInputs ctx.messages = ids)
    (output : Json) :
    StampsIn execution (NamesOnce start ids) (boundary.decideFinish ctx output)
      (fun result st branch => NamesOnce start ids st branch ∧
        ∀ request, result = .next request → request.inputIds = []) (NamesOnce start ids) := by
  refine StampsIn.at_ fun before branch hbefore => ?_
  obtain ⟨seen, held, htaken⟩ : ∃ seen held, before.taken = (seen, held) := ⟨_, _, rfl⟩
  unfold NamesOnce at hbefore
  rw [htaken] at hbefore
  refine StampsIn.bind ((claim_stamps hb (representedInputs ctx.messages) seen held branch).mono
    ?_ (fun _ _ _ h => h) ?_) fun late => ?_
  · rintro _ _ ⟨rfl, rfl⟩
    exact ⟨htaken, rfl⟩
  · rintro st named ⟨seen', hgrown, hst, hnamed⟩
    exact .at_taken (hbefore.hold hgrown (hbefore.held.grow hgrown)) hst hnamed
  -- What came late is claimed, and held for the next turn if there is any.
  refine StampsIn.at_ fun after named hpre => ?_
  obtain ⟨seen', hlate, hafter, rfl⟩ := hpre
  refine StampsIn.ite (fun _ => ?_) fun _ => ?_
  · have hheld : Unnamed seen' ids named (originIds late) := by
      exact hbefore.unnamed hlate.nodup hlate.taken
        (fun id hid => hctx ▸ hlate.unshown id hid) hlate.fresh
    refine StampsIn.bind (Q := fun _ => NamesOnce start ids) (StampsIn.update ?_) fun _ =>
      StampsIn.pure fun _ _ h => ⟨h, ?_⟩
    · rintro _ _ ⟨rfl, rfl⟩
      exact .at_taken (hbefore.hold hlate.grown hheld)
        (congrArg (·, late) (congrArg Prod.fst hafter)) rfl
    · intro request heq
      rw [← NodeResult.next.inj heq]
  -- Nothing came: the end is decided with what was held before.
  have hkept : ∀ st branch', (st = after ∧ branch' = named) → NamesOnce start ids st branch' := by
    rintro _ _ ⟨rfl, rfl⟩
    exact .at_taken (hbefore.hold hlate.grown (hbefore.held.grow hlate.grown)) hafter rfl
  have hfinished : ∀ reason, StampsIn execution (NamesOnce start ids)
      (do
        AttemptM.update fun st => { st with stopReason := some reason }
        pure (NodeResult.finished output))
      (fun result st branch => NamesOnce start ids st branch ∧
        ∀ request, result = .next request → request.inputIds = []) (NamesOnce start ids) :=
    fun reason => StampsIn.bind (Q := fun _ => NamesOnce start ids)
      (StampsIn.update fun _ _ h => h) fun _ => StampsIn.pure fun _ _ h => ⟨h, nofun⟩
  refine StampsIn.ite (fun _ => (hfinished _).mono hkept (fun _ _ _ h => h) fun _ _ h => h)
    fun _ => ?_
  refine StampsIn.bind (StampsIn.state.mono hkept (fun _ _ _ h => h.2) fun _ _ h => h) fun st => ?_
  have hasked : ∀ here, StampsIn execution (NamesOnce start ids)
      (AttemptM.ask (α := TurnDecision) (.beforeFinish here .completed))
      (fun _ => NamesOnce start ids) (NamesOnce start ids) := fun here =>
    quiet_code (Code.only_ask rfl ⟨fun _ => trivial, fun _ _ => rfl⟩)
  refine StampsIn.bind (hasked _) fun decision => ?_
  cases decision with
  | halt reason => exact hfinished reason
  | proceed steers =>
    refine StampsIn.pure fun _ _ h => ⟨h, fun request heq => ?_⟩
    rw [← NodeResult.next.inj heq]

/-- `wrap_node_run` of a `CallToolsNode`, after the handler: a response names nothing. -/
theorem toolsCalledNode_stamps
    (hb : boundary.store.name boundary.branchId = execution.filedName) {start ids : List String}
    {ctx : RunContext} {response : ModelResponse} {result : NodeResult}
    (hctx : representedInputs ctx.messages = ids)
    (hresult : ∀ request, result = .next request → request.inputIds = []) :
    StampsIn execution (NamesOnce start ids) (boundary.toolsCalledNode ctx response result)
      (fun result st branch => NamesOnce start ids st branch ∧
        ∀ request, result = .next request → request.inputIds = []) (NamesOnce start ids) := by
  have hrecord : StampsIn execution (NamesOnce start ids) (boundary.record [.response response])
      (fun _ => NamesOnce start ids) (NamesOnce start ids) := by
    refine record_stamps (fun st branch h => ?_) (fun st branch h => ?_) (fun _ _ h => h)
      fun _ _ h => h
    · rw [representedInputs_response, List.append_nil]
      exact h.branch_nodup
    · rw [representedInputs_response, List.append_nil]
      exact h
  cases result with
  | deferred requests => exact StampsIn.pure fun _ _ h => ⟨h, nofun⟩
  | next request =>
    exact StampsIn.bind hrecord fun _ => StampsIn.pure fun _ _ h => ⟨h, hresult⟩
  | finished output => exact StampsIn.bind hrecord fun _ => decideFinish_stamps hb hctx output

/-- **A hook** under the monitor. -/
theorem hook_stamps (hb : boundary.store.name boundary.branchId = execution.filedName)
    (digest : List Message → List ToolDefinition → String) {o : NodeOp} {start ids : List String}
    (ho : o.Shows ids []) :
    StampsIn execution (NamesOnce start ids) (boundary.hook digest o)
      (fun r st branch => NamesOnce start (o.idsAfter ids [] (.ok r)) st branch ∧
        o.Unstamped (.ok r)) (NamesOnce start ids) := by
  -- Three of the five hooks take nothing and record nothing, so `NamesOnce` passes them.
  have hquiet : ∀ {α : Type} {x : AttemptM α}, AttemptM.Only (Stamping.Quiet execution) x →
      AttemptM.Frames AttemptState.taken x →
        StampsIn execution (NamesOnce start ids) x (fun _ => NamesOnce start ids)
          (NamesOnce start ids) := fun hx hframes =>
    quiet_stampsIn (R := fun taken branch => Unrepeated start ids taken branch) hx hframes
  have hcontrols : PermitsControls boundary (Stamping.Quiet execution) := quiet_controls boundary
  cases o with
  | modelRequest ctx request tools =>
    exact (modelRequestNode_stamps hb digest tools ho.1 ho.2).mono (fun _ _ h => h)
      (fun _ _ _ h => ⟨h, trivial⟩) fun _ _ h => h
  | prepareTools tools =>
    exact (hquiet (prepareTools_only hcontrols tools) (frames_prepareTools tools)).mono
      (fun _ _ h => h) (fun _ _ _ h => ⟨h, trivial⟩) fun _ _ h => h
  | callTools ctx response =>
    exact (hquiet (callToolsNode_only hcontrols
      (quiet_key boundary pendingRoundKey_ne_activeSuspension) ctx response)
      (frames_callToolsNode boundary ctx response)).mono
      (fun _ _ h => h) (fun _ _ _ h => ⟨h, trivial⟩) fun _ _ h => h
  | tool ctx tool call args approved =>
    have hwrap : ∀ args, AttemptM.Only (Stamping.Quiet execution)
        (boundary.wrapToolExecute ctx tool call args) := by
      intro args
      have hhandler : Code.Only (Stamping.Quiet execution) (Code.ask (.handler call args)) :=
        Code.only_ask rfl ⟨fun _ => trivial, fun _ _ => rfl⟩
      have hstep : PermitsKey boundary (Stamping.Quiet execution) (stepKey call.toolCallId) :=
        quiet_key boundary (stepKey_ne_activeSuspension _)
      refine (AttemptM.only_code (tool_only hstep hhandler)).bind fun record => ?_
      refine (AttemptM.only_code (Code.only_mark ⟨fun _ => trivial, fun _ _ => rfl⟩)).bind
        fun _ => AttemptM.only_state.bind fun st => ?_
      exact project_only (quiet_key boundary (afterKey_ne_activeSuspension _))
        (fun _ _ => ⟨fun _ => trivial, fun _ _ => rfl⟩) _ record
    refine StampsIn.bind (hquiet (beforeToolExecute_only hcontrols ctx tool call args approved)
      (frames_beforeToolExecute boundary ctx tool call args approved)) fun args => ?_
    exact (hquiet (hwrap args) (frames_wrapToolExecute boundary ctx tool call args)).mono
      (fun _ _ h => h) (fun _ _ _ h => ⟨h, trivial⟩) fun _ _ h => h
  | toolsCalled ctx response result =>
    refine (toolsCalledNode_stamps hb ho.1 ho.2).mono (fun _ _ h => h) ?_ fun _ _ h => h
    intro r st branch h
    refine ⟨h.1, ?_⟩
    cases r with
    | next request => exact h.2 request rfl
    | finished output => trivial
    | deferred requests => trivial

/-- **Whatever the agent does with its history**, no input is named twice. -/
theorem drive_stamps (hb : boundary.store.name boundary.branchId = execution.filedName)
    (digest : List Message → List ToolDefinition → String) {start ids : List String}
    {program : AgentProg (Except Raised RunResult)} (hprogram : KeepsHistory ids [] program) :
    StampsIn execution (NamesOnce start ids) (boundary.drive digest program)
      (fun r _ _ => ∀ result, r = .ok result → (representedInputs result.messages).Nodup)
      fun _ _ => True := by
  -- Induction on the agent's program: each hook's end is what the rest may start from.
  induction program generalizing ids with
  | pure r =>
    refine StampsIn.pure fun st branch h result heq => ?_
    rw [hprogram result heq]
    exact h.ids_nodup
  | perform o next ih =>
    obtain ⟨hshows, hnext⟩ := hprogram
    have hstamp : o.stampAfter [] = [] := by cases o <;> rfl
    rw [hstamp] at hnext
    refine StampsIn.bind (hook_stamps hb digest hshows).attempt fun r => ?_
    cases r with
    | ok a =>
      exact StampsIn.known (fun _ _ h => h.2) fun hr =>
        (ih _ (hnext (.ok a) hr)).mono (fun _ _ h => h.1) (fun _ _ _ h => h) fun _ _ h => h
    -- A hook that raised has shown nothing.
    | error e =>
      have hr : o.Unstamped (.error e) := by cases o <;> trivial
      have hids : o.idsAfter ids [] (.error e) = ids := by cases o <;> rfl
      have hrest := hnext (.error e) hr
      rw [hids] at hrest
      exact ih _ hrest

end hooks

end Semora
