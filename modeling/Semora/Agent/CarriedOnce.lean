import Semora.Agent.Recovery
import Semora.Agent.StampedRuns

/-! # Each Input Is Carried Once

    The queue lists every input under its own id, the suspension holds a round
    that names no input twice, and what is read of the transcript names none
    twice. So a thread is answered nothing that does, and leaves nothing that
    does: that holds over every run in which no attempt starts from a history
    whose last request names an input.

    Such a history is what a crash leaves between the record of a request and
    its answer. A run without a prompt issues the request again, with the ids
    it names, and `_admit` records it again: what was recorded as one request
    lies on the branch twice. -/

namespace Semora

open Pool MemorySteps

/-! ## Section 1: The ledger -/

/-- The ledger names every queued input once, and in what is parked none twice. -/
structure StoredOnce (execution : ExecutionContext) (s : MemorySteps Record) : Prop where
  queued : ∃ offers, Queued offers execution.filedName s ∧
    ∀ item ∈ offers, ItemUnder item.1 item.2
  parked : ∀ active, live execution.filedName s = some active →
    WellParked execution.conversation active

section ledger

variable {execution : ExecutionContext} {s : MemorySteps Record}

theorem storedOnce_init : StoredOnce execution (.init : MemorySteps Record) :=
  ⟨⟨[], .init _, nofun⟩, nofun⟩

/-- Every input is listed under its own id. -/
theorem StoredOnce.listed (h : StoredOnce execution s) :
    WellQueued (s.listInputs execution.filedName) := by
  obtain ⟨offers, hqueued, hoffers⟩ := h.queued
  intro record hrecord
  rw [hqueued.listInputs_eq] at hrecord
  obtain ⟨item, hitem, rfl⟩ := List.mem_map.mp hrecord
  obtain ⟨hmem, hb⟩ := List.mem_filter.mp hitem
  have hlisted : ((item.1.2, item.2.value), item.2.sequence) ∈
      (offers.firstBy Prod.fst).zipIdx := by
    rw [← hqueued.records]
    exact List.mem_map.mpr ⟨item, hitem, rfl⟩
  have hoffered : (item.1.2, item.2.value) ∈ offers :=
    (List.firstBy_sublist Prod.fst offers).subset (List.fst_mem_of_mem_zipIdx hlisted)
  rw [hqueued.named item hmem (of_decide_eq_true hb)]
  exact hoffers _ hoffered

/-- **A call** that stores inputs once keeps them so. -/
theorem StoredOnce.perform (h : StoredOnce execution s) {op : LedgerOp Record}
    (hop : StoresOnce execution op) (now later : ℚ) :
    StoredOnce execution (op.perform now later s).2 := by
  refine ⟨?_, fun active hactive => (hop.parked now later s active hactive).elim
    (h.parked active) id⟩
  obtain ⟨offers, hqueued, hoffers⟩ := h.queued
  by_cases hb : op.branchId = execution.filedName
  · have hoffered := perform_offers op now later s
    rw [hb] at hoffered
    refine ⟨_, (hqueued.offerAll _).settle hoffered, fun item hitem => ?_⟩
    rcases List.mem_append.mp hitem with hitem | hitem
    · exact hoffers item hitem
    · split at hitem
      · exact hop.offered hb item hitem
      · cases hitem
  · exact ⟨offers, hqueued.agree (perform_frame op now later s hb), hoffers⟩

/-- What the ledger answers names no input twice. -/
theorem StoredOnce.answered (h : StoredOnce execution s) {m : Stamping} (hm : m.clean)
    (op : LedgerOp Record) (now later : ℚ) :
    let m' := m.answered execution (.ledger op) (op.perform now later s).1
    m'.clean ∧ m'.branch = m.branch := by
  cases op with
  | listInputs b =>
    refine ⟨⟨hm, ?_⟩, rfl⟩
    rintro rfl
    exact h.listed
  | read b key =>
    refine ⟨⟨hm, ?_⟩, rfl⟩
    rintro rfl rfl
    exact h.parked
  | _ =>
    dsimp only
    generalize LedgerOp.perform _ now later s = answer
    obtain ⟨r, s'⟩ := answer
    cases r <;> exact ⟨hm, rfl⟩

end ledger

/-! ## Section 2: The transcript -/

section transcript

variable {S : Type} [PythonScalar S] {outside : Outside S Message}

/-- The transcript reads back what requests name. -/
def KeepsIds (outside : Outside S Message) : Prop :=
  ∀ m m', SameMessage outside m m' → representedInputs [m] = representedInputs [m']

theorem KeepsIds.history (hids : KeepsIds outside) {history history' : List Message}
    (h : SameHistory outside history history') :
    representedInputs history = representedInputs history' := by
  induction h with
  | nil => rfl
  | @cons m m' rest rest' hsame _ ih =>
    have hhead := hids m m' hsame
    calc representedInputs (m :: rest)
        = representedInputs [m] ++ representedInputs rest :=
          representedInputs_append [m] rest
      _ = representedInputs [m'] ++ representedInputs rest' := by rw [hhead, ih]
      _ = representedInputs (m' :: rest') := (representedInputs_append [m'] rest').symm

/-- No input is named twice by what is read of the transcript, nor on any branch; `m` is what each
    thread was answered. -/
structure RecordedOnce (outside : Outside S Message) (t : TranscriptState S)
    (m : Nat → Stamping) : Prop where
  sound : t.Sound outside
  read : ∀ conversation,
    (representedInputs (messagesOf outside (t.log.entries conversation))).Nodup
  clean : ∀ i, (m i).clean
  branches : ∀ i b, t.branches i = some b → representedInputs b.messages = (m i).branch
  nodup : ∀ i, (m i).branch.Nodup

variable (time : Nat → String) {t t' : TranscriptState S} {m : Nat → Stamping} {tid : Nat}
  {m' : Stamping}

/-- One thread has moved, and its branch with it. -/
theorem RecordedOnce.move (h : RecordedOnce outside t m) (hleaves : Leaves outside tid t t')
    (hread : ∀ conversation,
      (representedInputs (messagesOf outside (t'.log.entries conversation))).Nodup)
    (hclean : m'.clean)
    (hbranch : ∀ b, t'.branches tid = some b → representedInputs b.messages = m'.branch)
    (hnodup : m'.branch.Nodup) : RecordedOnce outside t' (Function.update m tid m') where
  sound := hleaves.sound
  read := hread
  clean i := by
    -- Only thread `tid` has moved; of the others both the branch and the monitor are as before.
    by_cases hi : i = tid
    · rw [hi, Function.update_self]
      exact hclean
    · rw [Function.update_of_ne hi]
      exact h.clean i
  branches i b hb := by
    by_cases hi : i = tid
    · rw [hi] at hb ⊢
      rw [Function.update_self]
      exact hbranch b hb
    · rw [hleaves.others i hi] at hb
      rw [Function.update_of_ne hi]
      exact h.branches i b hb
  nodup i := by
    by_cases hi : i = tid
    · rw [hi, Function.update_self]
      exact hnodup
    · rw [Function.update_of_ne hi]
      exact h.nodup i

/-- Nothing is written. -/
theorem RecordedOnce.still (h : RecordedOnce outside t m) (hlog : t'.log = t.log)
    (hbranches : t'.branches = t.branches) (hclean : m'.clean)
    (hbranch : m'.branch = (m tid).branch) :
    RecordedOnce outside t' (Function.update m tid m') := by
  have hsound : t'.Sound outside := by
    refine ⟨hlog.symm ▸ h.sound.kept, fun i b hb => ?_⟩
    rw [hlog]
    exact h.sound.anchored i b (hbranches ▸ hb)
  refine h.move ⟨hsound, fun _ => hlog.symm ▸ List.prefix_refl _, fun _ _ => by rw [hbranches]⟩ ?_
    hclean (fun b hb => ?_) (hbranch.symm ▸ h.nodup tid)
  · rw [hlog]
    exact h.read
  · rw [hbranch]
    exact h.branches tid b (hbranches ▸ hb)

variable {execution : ExecutionContext} (hfree : CollisionFree outside)
  (htimes : Function.Injective outside.markerTime)
  (hdecode : ∀ m, outside.encode (outside.decode (outside.encode m)) = outside.encode m)
  (hids : KeepsIds outside)

include hdecode hids in
/-- The thread's branch goes on: what is read is what was read, or what the branch holds. -/
theorem RecordedOnce.write (h : RecordedOnce outside t m) (hleaves : Leaves outside tid t t')
    (hfollows : Follows tid t t') {b' : Branch Message} (hb' : t'.branches tid = some b')
    (hclean : m'.clean) (hbranch : representedInputs b'.messages = m'.branch)
    (hnodup : m'.branch.Nodup) : RecordedOnce outside t' (Function.update m tid m') := by
  refine h.move hleaves (fun conversation => ?_) hclean (fun b hb => ?_) hnodup
  · rcases hleaves.reads hdecode h.sound hfollows hb' conversation with hsame | hsame
    · rw [hids.history hsame]
      exact h.read conversation
    · rw [hids.history hsame, hbranch]
      exact hnodup
  · rw [hb'] at hb
    obtain rfl := Option.some.inj hb
    exact hbranch

include hfree htimes hdecode hids

/-- **An operation** of a thread under the monitor, as the transcript answers it. -/
theorem RecordedOnce.perform (h : RecordedOnce outside t m) {op : TranscriptOp}
    (hpermits : (m tid).Permits execution (.ext (.transcript op))) :
    let answer := t.perform outside time tid op
    RecordedOnce outside answer.2 (Function.update m tid
      ((m tid).answered execution (.ext (.transcript op)) answer.1)) := by
  intro answer
  have hclean := h.clean tid
  -- One case an operation: opening takes over what the log says, the writes are what the monitor
  -- let pass, and the rest leave log and branches alone.
  cases op with
  | openBranch conversation branchId =>
    obtain ⟨hleaves, hlog, _⟩ := h.sound.openBranch time tid hdecode conversation branchId
    refine h.move hleaves (fun other => ?_) ⟨hclean, h.read conversation⟩ (fun b hb => ?_)
      (h.read conversation)
    · rw [show answer.2.log = t.log from hlog]
      exact h.read other
    · have hself : answer.2.branches tid
          = some (Branch.open_ outside t.log conversation branchId) := Function.update_self ..
      rw [hself] at hb
      obtain rfl := Option.some.inj hb
      rfl
  | replace messages =>
    cases hb : t.branches tid with
    | none =>
      have hmoved : answer = (.error .indexError, t) := by
        show t.moved tid ((t.branches tid).bind _) = _
        rw [hb]
        rfl
      rw [hmoved]
      exact h.still rfl rfl hclean rfl
    | some b =>
      obtain ⟨hleaves, hfollows, b', hb', _, hheld, _⟩ :=
        h.sound.replace time hfree htimes hb messages
      have hok : answer.1 = .ok () := by
        obtain ⟨b₂, log₂, hreplace, _⟩ :=
          replace_anchored hfree htimes (h.sound.anchored tid b hb) messages
        show (t.moved tid ((t.branches tid).bind _)).1 = _
        rw [hb, Option.bind_some, hreplace]
        rfl
      rw [hok]
      exact h.write hdecode hids hleaves hfollows hb' hclean (hids.history hheld) hpermits
  | append messages =>
    cases hb : t.branches tid with
    | none =>
      have hmoved : answer = (.error .indexError, t) := by
        show t.moved tid ((t.branches tid).bind _) = _
        rw [hb]
        rfl
      rw [hmoved]
      exact h.still rfl rfl hclean rfl
    | some b =>
      obtain ⟨hleaves, hfollows, b', hb', _, hmessages, _⟩ :=
        h.sound.append time hfree htimes hb messages
      have hok : answer.1 = .ok () := by
        obtain ⟨b₂, log₂, happend, _⟩ :=
          append_anchored hfree htimes (h.sound.anchored tid b hb) messages
        show (t.moved tid ((t.branches tid).bind _)).1 = _
        rw [hb, Option.bind_some, happend]
        rfl
      rw [hok]
      refine h.write hdecode hids hleaves hfollows hb' hclean ?_ hpermits
      rw [hmessages, representedInputs_append, h.branches tid b hb]
      rfl
  | closed reason toolCalls =>
    have hstill : answer.2.log = t.log ∧ answer.2.branches = t.branches := by
      show (((t.branches tid).map fun branch =>
          t.closed time branch reason toolCalls).getD t).log = _ ∧
        (((t.branches tid).map fun branch =>
          t.closed time branch reason toolCalls).getD t).branches = _
      cases t.branches tid <;> exact ⟨rfl, rfl⟩
    exact h.still hstill.1 hstill.2 hclean rfl
  | readBranch branchId => exact h.still rfl rfl hclean rfl
  | read conversation cursor =>
    obtain rfl : cursor = none := hpermits
    exact h.still rfl rfl ⟨hclean, h.read conversation⟩ rfl

end transcript

/-! ## Section 3: Every schedule -/

/-- A screen passes on inputs that it was handed, and none twice. It may drop some, and rewrite
    what they say; a screen that makes up an input would name one the queue has not given it. -/
def ScreensKeep {C : Type} (e : Code.Event C) : Prop :=
  ∀ here inputs passed, e.did (.ext (.onInputs here inputs)) (.ok (.inl passed)) →
    (originIds passed).Subperm (originIds inputs)

/-- An agent that is started issues no request again that names an input. A history that ends in
    such a request, without a response, is one whose attempt died before the model answered. -/
def StartsUnstamped {C : Type} (e : Code.Event C) : Prop :=
  ∀ token start, e.op = .ext (.mark (.agentRun token start)) → start.stamp = []

section runs

variable {S C : Type} [PythonScalar S] {outside : Outside S Message} (time : Nat → String)
  {t : TranscriptState S} {execution : ExecutionContext}

/-- What holds of every ledger and transcript that the workers come to. -/
structure NamedOnce (outside : Outside S Message) (time : Nat → String) (t : TranscriptState S)
    (execution : ExecutionContext) (log : List (Code.Event C)) (s : MemorySteps Record) :
    Prop where
  stored : StoredOnce execution s
  recorded : RecordedOnce outside (t.after outside time log)
    fun i => (stamping execution).seen {} i log

theorem namedOnce_init (hsound : t.Sound outside) (hread : ∀ conversation,
      (representedInputs (messagesOf outside (t.log.entries conversation))).Nodup)
    (hclosed : ∀ i, t.branches i = none) :
    NamedOnce outside time t execution ([] : List (Code.Event C)) .init where
  stored := storedOnce_init
  recorded :=
    { sound := hsound
      read := hread
      clean := fun _ => trivial
      branches := fun i b hb => by
        rw [TranscriptState.after_nil, hclosed i] at hb
        cases hb
      nodup := fun _ => List.nodup_nil }

variable (hfree : CollisionFree outside) (htimes : Function.Injective outside.markerTime)
  (hdecode : ∀ m, outside.encode (outside.decode (outside.encode m)) = outside.encode m)
  (hids : KeepsIds outside)

include hfree htimes hdecode hids

/-- **One event** of a thread under the monitor. -/
theorem NamedOnce.event {log : List (Code.Event C)} {s : MemorySteps Record} {tid : Nat}
    {call : C} {x : Env} {o : Op} (h : NamedOnce outside time t execution log s)
    (hallowed : (stamping execution).allows ((stamping execution).seen {} tid log) o) :
    let e : Code.Event C := ⟨tid, call, o, (perform s x o).1, (perform s x o).2⟩
    (∀ op r, e.did (.ext (.transcript op)) r →
      r = ((t.after outside time log).perform outside time tid op).1) →
    ScreensKeep e → StartsUnstamped e →
      NamedOnce outside time t execution (log ++ [e]) (perform s x o).2 := by
  intro e hreplied hscreens hstarts
  have hclean := h.recorded.clean tid
  have hpermits : ((stamping execution).seen {} tid log).Permits execution o := hallowed hclean
  -- what only the thread's own answers show
  -- Only the transcript's operations change the log; for the others the monitor's own next state
  -- decides.
  have hstill : ∀ m' : Stamping, (∀ op, o ≠ .ext (.transcript op)) →
      (stamping execution).next ((stamping execution).seen {} tid log) o e.reply = m' →
      m'.clean → m'.branch = ((stamping execution).seen {} tid log).branch →
      RecordedOnce outside (t.after outside time (log ++ [e]))
        fun i => (stamping execution).seen {} i (log ++ [e]) := by
    intro m' hother hnext hclean' hbranch
    have hsame : t.after outside time (log ++ [e]) = t.after outside time log := by
      rw [TranscriptState.after_concat]
      unfold TranscriptState.event
      split
      · next op hop => exact absurd hop (hother op)
      · rfl
    rw [Monitor.seen_update, hsame, hnext]
    exact h.recorded.still rfl rfl hclean' hbranch
  cases o with
  | ledger op =>
    obtain ⟨hclean', hbranch⟩ := h.stored.answered hclean op x.now x.later
    exact ⟨h.stored.perform hpermits x.now x.later, hstill _ nofun rfl hclean' hbranch⟩
  | ext q =>
    have hsame : (perform s x (.ext q)).2 = s := rfl
    rw [hsame]
    refine ⟨h.stored, ?_⟩
    cases q with
    | transcript op =>
      have hr : e.reply = ((t.after outside time log).perform outside time tid op).1 :=
        hreplied op _ rfl
      have hnext := h.recorded.perform time hfree htimes hdecode hids hpermits
      dsimp only at hnext
      rw [← hr] at hnext
      rw [Monitor.seen_update, TranscriptState.after_concat]
      exact hnext
    | onInputs here inputs =>
      cases hreply : e.reply with
      | error error =>
        refine hstill _ nofun ?_ hclean rfl
        rw [hreply]
        rfl
      | ok screened =>
        cases screened with
        | inl passed =>
          refine hstill { (stamping execution).seen {} tid log with
            clean := ((stamping execution).seen {} tid log).clean ∧
              (originIds passed).Subperm (originIds inputs) } nofun ?_ ⟨hclean, ?_⟩ rfl
          · -- What the screen passes names no input twice, by the hypothesis on screens.
            rw [hreply]
            rfl
          · refine hscreens here inputs passed ?_
            show (⟨e.op, e.reply⟩ : Prog.Exchange Op.Reply) = _
            rw [hreply]
        | inr reason =>
          refine hstill _ nofun ?_ hclean rfl
          rw [hreply]
          rfl
    | mark mk =>
      cases mk with
      | agentRun token start => exact hstill _ nofun rfl ⟨hclean, hstarts token start rfl⟩ rfl
      | _ => exact hstill _ nofun rfl hclean rfl
    | _ => exact hstill _ nofun rfl hclean rfl

omit hfree htimes hdecode hids

/-- The messages of an attempt: what the model is shown, and what the run is given or returns. -/
def Op.history? : Op → Option (List Message)
  | .ext (.model messages) => some messages
  | .ext (.transcript (.replace messages)) => some messages
  | _ => none

/-- No input is named twice in the messages of an attempt. -/
def ShowsOnce (e : Code.Event C) : Prop :=
  ∀ messages, e.op.history? = some messages → (representedInputs messages).Nodup

theorem NamedOnce.shows {log : List (Code.Event C)} {s : MemorySteps Record} {tid : Nat} {o : Op}
    (h : NamedOnce outside time t execution log s)
    (hallowed : (stamping execution).allows ((stamping execution).seen {} tid log) o) (call : C)
    (r : o.Reply) (s' : MemorySteps Record) : ShowsOnce (⟨tid, call, o, r, s'⟩ : Code.Event C) := by
  have hpermits : ((stamping execution).seen {} tid log).Permits execution o :=
    hallowed (h.recorded.clean tid)
  intro messages hmessages
  cases o with
  | ledger op => cases hmessages
  | ext q =>
    cases q with
    | model shown =>
      obtain rfl : shown = messages := Option.some.inj hmessages
      exact hpermits
    | transcript op =>
      cases op with
      | replace desired =>
        obtain rfl : desired = messages := Option.some.inj hmessages
        exact hpermits
      | _ => cases hmessages
    | _ => cases hmessages

end runs

section schedules

variable {S : Type} [PythonScalar S] (owners : Owners) (execution : ExecutionContext)

/-- Every worker of the branch keeps to the monitor. -/
theorem stamping_allowed (schedule : List (Action (Worker execution.filedName) Env))
    (hrequests : ∀ worker, Action.begin worker ∈ schedule →
      worker.runtime.transcript = true ∧ worker.request.StampsOnce) (i : Nat) :
    Allowed (stamping execution) {} i (branchLog owners execution schedule) := by
  refine allowed_of_begun (fun worker hworker => ?_) _ hrequests
  refine Prog.Obeys.mono ?_ (serve_stamps hworker.1 hworker.2 {} fun _ => trivial)
  exact fun _ _ _ => trivial

variable (outside : Outside S Message) (hfree : CollisionFree outside)
  (htimes : Function.Injective outside.markerTime)
  (hdecode : ∀ m, outside.encode (outside.decode (outside.encode m)) = outside.encode m)
  (hids : KeepsIds outside) (time : Nat → String) (t : TranscriptState S)

/-! The transcript names no input twice before the run, and no branch of it is open. -/

variable (hsound : t.Sound outside) (hread : ∀ conversation,
    (representedInputs (messagesOf outside (t.log.entries conversation))).Nodup)
  (hclosed : ∀ i, t.branches i = none)

include hfree htimes hdecode hids hsound hread hclosed

/-- What the workers of a branch come to names every input once, and so does what they are shown on
    the way. -/
theorem namedOnce_after (schedule : List (Action (Worker execution.filedName) Env))
    (hrequests : ∀ worker, Action.begin worker ∈ schedule →
      worker.runtime.transcript = true ∧ worker.request.StampsOnce)
    (hreplied : t.Replied outside time (branchLog owners execution schedule))
    (hscreens : ∀ e ∈ branchLog owners execution schedule, ScreensKeep e)
    (hstarts : ∀ e ∈ branchLog owners execution schedule, StartsUnstamped e) :
    let log := branchLog owners execution schedule
    NamedOnce outside time t execution log
      ((branchWorkers owners execution).after { hist := ⟨.init, []⟩ } schedule).hist.now ∧
      ∀ e ∈ log, ShowsOnce e := by
  -- Before anything is done nothing is named twice, and no thread has a branch.
  have hinit : NamedOnce outside time t execution
        ([] : List (Code.Event (Worker execution.filedName))) .init ∧
      ∀ e ∈ ([] : List (Code.Event (Worker execution.filedName))), ShowsOnce e :=
    ⟨namedOnce_init time hsound hread hclosed, fun _ he => absurd he List.not_mem_nil⟩
  have hinv := hist_after (S := branchWorkers owners execution)
    (J := fun log s => (∀ i, Allowed (stamping execution) {} i log) →
      t.Replied outside time log → (∀ e ∈ log, ScreensKeep e) → (∀ e ∈ log, StartsUnstamped e) →
        NamedOnce outside time t execution log s ∧ ∀ e ∈ log, ShowsOnce e)
    (fun log s tid call x o ih hallowed hreplied hscreens hstarts => ?_)
    (w := { hist := ⟨.init, []⟩ }) (fun _ _ _ _ => hinit) schedule
  · exact hinv (stamping_allowed owners execution schedule hrequests) hreplied hscreens hstarts
  · -- One event: allowed to its thread by the monitor, and answered by the transcript as it stands.
    have hbefore : ∀ i, Allowed (stamping execution) {} i log :=
      fun i => (always_concat.mp (hallowed i)).1
    have hlast := (always_concat.mp (hallowed tid)).2 rfl
    obtain ⟨hanswered, hanswer⟩ := always_concat.mp hreplied
    obtain ⟨hnamed, hshown⟩ := ih hbefore hanswered
      (fun e he => hscreens e (List.mem_append_left _ he))
      fun e he => hstarts e (List.mem_append_left _ he)
    refine ⟨hnamed.event time hfree htimes hdecode hids hlast hanswer
      (hscreens _ (List.mem_append_right _ List.mem_cons_self))
      (hstarts _ (List.mem_append_right _ List.mem_cons_self)), fun e he => ?_⟩
    rcases List.mem_append.mp he with he | he
    · exact hshown e he
    · obtain rfl := List.mem_singleton.mp he
      exact hnamed.shows time hlast call _ _

/-- **Each input is carried once**: after every schedule of workers of a branch, no input is named
    twice by what is read of the transcript, nor in the messages of an attempt. What is asked of
    the run: every runtime has a transcript, which names no input twice before the run; agents
    keep the history they are handed, and screens hand on only what they were handed; a history
    that a caller passes to `run` or `recover` names no input twice itself, and inputs that others
    queue past the runtime are queued under their own id (`Request.StampsOnce`; forks, which take
    over another branch's messages, are left out there); and no attempt starts on a history whose
    last request it issues again with the inputs that it names, for which `steer_carried_twice`
    shows the need. -/
theorem inputs_carried_once (schedule : List (Action (Worker execution.filedName) Env))
    (hrequests : ∀ worker, Action.begin worker ∈ schedule →
      worker.runtime.transcript = true ∧ worker.request.StampsOnce)
    (hreplied : t.Replied outside time (branchLog owners execution schedule))
    (hscreens : ∀ e ∈ branchLog owners execution schedule, ScreensKeep e)
    (hstarts : ∀ e ∈ branchLog owners execution schedule, StartsUnstamped e) :
    let log := branchLog owners execution schedule
    (∀ conversation, (representedInputs
      (messagesOf outside ((t.after outside time log).log.entries conversation))).Nodup) ∧
      ∀ e ∈ log, ShowsOnce e := by
  obtain ⟨hnamed, hshown⟩ := namedOnce_after owners execution outside hfree htimes hdecode hids
    time t hsound hread hclosed schedule hrequests hreplied hscreens hstarts
  exact ⟨hnamed.recorded.read, hshown⟩

end schedules

/-! Whether a run keeps to this can be computed. -/

/-- No screen is asked. -/
def unscreenedAt {C : Type} (e : Code.Event C) : Bool :=
  match e.op with
  | .ext (.onInputs ..) => false
  | _ => true

theorem screensKeep_of_unscreenedAt {C : Type} {e : Code.Event C} (h : unscreenedAt e = true) :
    ScreensKeep e := by
  intro here inputs passed hdid
  unfold unscreenedAt at h
  rw [Event.op_of_did hdid] at h
  cases h

/-- No agent is started that issues a request with inputs again. -/
def unstampedAt {C : Type} (e : Code.Event C) : Bool :=
  match e.op with
  | .ext (.mark (.agentRun _ start)) => decide (start.stamp = [])
  | _ => true

theorem startsUnstamped_of_unstampedAt {C : Type} {e : Code.Event C} (h : unstampedAt e = true) :
    StartsUnstamped e := by
  intro token start hop
  unfold unstampedAt at h
  rw [hop] at h
  exact of_decide_eq_true h

/-- What a message names lies at one place of what is written of it. -/
theorem inputId_at (m : Message) (i : Nat) :
    (stripped m.toJson).get? [.key "metadata", .key "input_ids", .index i]
      = (representedInputs [m])[i]?.map JsonTree.str := by
  unfold stripped
  rw [JsonTree.get?_without]
  · cases m with
    | request r =>
      rw [representedInputs_request]
      show ((r.inputIds.map (JsonTree.str (S := PyScalar)))[i]?.bind fun found =>
        found.get? []).map _ = _
      rw [List.getElem?_map]
      cases r.inputIds[i]? <;> rfl
    | response r => rfl
  · simp [JsonTree.Step.Kept, volatile]

/-- The transcript of plain messages reads back what requests name. -/
theorem message_keepsIds : KeepsIds messageOutside := by
  intro m m' hsame
  refine List.ext_getElem? fun i => ?_
  have hat := sameMessage_iff.mp hsame [.key "metadata", .key "input_ids", .index i]
  change ((stripped m.toJson).get? _).map _ = ((stripped m'.toJson).get? _).map _ at hat
  rw [inputId_at, inputId_at] at hat
  cases hm : (representedInputs [m])[i]? with
  | none =>
    rw [hm] at hat
    cases hm' : (representedInputs [m'])[i]? with
    | none => rfl
    | some id' =>
      rw [hm'] at hat
      cases hat
  | some id =>
    rw [hm] at hat
    cases hm' : (representedInputs [m'])[i]? with
    | none =>
      rw [hm'] at hat
      cases hat
    | some id' =>
      rw [hm'] at hat
      cases hat
      rfl

/-! A steer is queued, and a worker records the request that carries it; it dies before the model
    has answered, and another recovers the run. -/

section reissued

/-- A host of an agent that goes on where its history ends. -/
def graphOptions : Options := { agent := graphAgent plainDigest mailTool 4 }

/-- The second worker dies when its request is recorded, and the steer that it carries is not yet
    admitted. -/
def reissued : List (Action (Worker mailBranch.filedName) Env) :=
  recorded (.begin ⟨recordingRuntime, .submit ⟨"steer", .userPrompt "more", some "i"⟩⟩ ::
    works 0 2 (outside 0 (tells "sent") .continue) ++
  .begin ⟨recordingRuntime, .dispatch graphOptions (.prompt "go" (some "p"))⟩ ::
    works 1 10 (outside 0 (tells "sent") .continue) ++ .crash 1 ::
  .begin ⟨recordingRuntime, .dispatch graphOptions .recover⟩ ::
    works 2 9 (outside 100 (tells "sent") .continue))

/-- The second worker answers, and another input comes while it does; a third finds nothing open. -/
def carried : List (Action (Worker mailBranch.filedName) Env) :=
  recorded (.begin ⟨recordingRuntime, .submit ⟨"steer", .userPrompt "more", some "i"⟩⟩ ::
    works 0 2 (outside 0 (tells "sent") .continue) ++
  .begin ⟨recordingRuntime, .dispatch graphOptions (.prompt "go" (some "p"))⟩ ::
    works 1 13 (outside 0 (tells "sent") .continue) ++
  .begin ⟨recordingRuntime, .submit ⟨"steer", .userPrompt "late", some "j"⟩⟩ ::
    works 2 2 (outside 0 (tells "sent") .continue) ++
    works 1 40 (outside 0 (tells "sent") .continue) ++
  .begin ⟨recordingRuntime, .dispatch graphOptions .recover⟩ ::
    works 3 8 (outside 100 (tells "sent") .continue))

theorem inputs_carried_once_carried :
    let log := branchLog ownerNames mailBranch carried
    representedInputs (messagesOf messageOutside
      ((({} : TranscriptState PyScalar).after messageOutside Nat.repr log).log.entries
        mailBranch.conversation)) = ["i", "j"] ∧
    (∀ conversation, (representedInputs (messagesOf messageOutside
      ((({} : TranscriptState PyScalar).after messageOutside Nat.repr log).log.entries
        conversation))).Nodup) ∧ ∀ e ∈ log, ShowsOnce e := by
  intro log
  have hnone : log.all (fun e => unscreenedAt e) = true := by decide +kernel
  have hstarts : log.all (fun e => unstampedAt e) = true := by decide +kernel
  have hgraph : (graphAgent plainDigest mailTool 4).KeepsHistory := graphAgent_keepsHistory _ _ _
  have hrequests : ∀ worker, Action.begin worker ∈ carried →
      worker.runtime.transcript = true ∧ worker.request.StampsOnce := by
    intro worker hworker
    -- The four requests of the schedule, each stamping at most once.
    have hone : worker = ⟨recordingRuntime, .submit ⟨"steer", .userPrompt "more", some "i"⟩⟩ ∨
        worker = ⟨recordingRuntime, .dispatch graphOptions (.prompt "go" (some "p"))⟩ ∨
        worker = ⟨recordingRuntime, .submit ⟨"steer", .userPrompt "late", some "j"⟩⟩ ∨
        worker = ⟨recordingRuntime, .dispatch graphOptions .recover⟩ := by
      simpa [works] using begin_overTranscript _ hworker
    rcases hone with rfl | rfl | rfl | rfl
    · exact ⟨rfl, trivial⟩
    · exact ⟨rfl, hgraph⟩
    · exact ⟨rfl, trivial⟩
    · exact ⟨rfl, hgraph⟩
  refine ⟨by decide +kernel, ?_⟩
  exact inputs_carried_once ownerNames mailBranch messageOutside message_collisionFree
    message_times (fun m => congrArg Message.toJson m.ofJson_toJson) message_keepsIds Nat.repr {}
    sound_empty (fun _ => List.nodup_nil) (fun _ => rfl) carried hrequests (replied_recorded _)
    (fun e he => screensKeep_of_unscreenedAt (List.all_eq_true.mp hnone e he))
    fun e he => startsUnstamped_of_unstampedAt (List.all_eq_true.mp hstarts e he)

end reissued

end Semora
