import Semora.Transcript.Branch
import Semora.Transcript.Runs
import Semora.Agent.Triples

/-! # The Transcript behind the Runtime

    The runtime's programs leave the transcript's replies to the environment.
    Here is the transcript itself: `Branch` and `TranscriptWriter` of every
    attempt over one in-memory log, and the run records. What a log of the
    runtime's operations makes of it is a fold over the events; `Replied` says
    that the environment answers as this transcript does.

    A method of `MemoryTranscript` never suspends, so neither does a method of
    `Branch` over it. -/

namespace Semora

open Pool

/-- `StopReason`, as it is written. -/
def StopReason.text : StopReason → String
  | .completed => "completed"
  | .aborted => "aborted"
  | .tool => "tool"
  | .policy => "policy"
  | .suspended => "suspended"

/-- The transcript, and the `Branch` that each thread has opened. -/
structure TranscriptState (S : Type) where
  log : Log S := {}
  records : MemoryRecords RunValue := {}
  branches : Nat → Option (Branch Message) := fun _ => none
  /-- How often the clock was read for a run record. -/
  clock : Nat := 0

variable {S C : Type} [PythonScalar S]

/-! ## Section 1: Operations -/

namespace TranscriptState

variable (outside : Outside S Message) (time : Nat → String) (tid : Nat) (t : TranscriptState S)

/-- `Branch.open`. What it records is accepted (`opened_supported`), so it does not raise. -/
def openBranch (conversationId branchId : String) : TranscriptState S :=
  { t with
    records := (t.records.recordBranch branchId (openedFields conversationId (time t.clock))).2
    branches := Function.update t.branches tid
      (some (Branch.open_ outside t.log conversationId branchId))
    clock := t.clock + 1 }

/-- What a method of the thread's `Branch` leaves. -/
def moved (result : Option (Branch Message × Log S)) : Except Raised Unit × TranscriptState S :=
  match result with
  | none => (.error .indexError, t)
  | some (branch, log) =>
    (.ok (), { t with log := log, branches := Function.update t.branches tid (some branch) })

/-- `branch.writer.closed`. What it records is accepted too (`closed_supported`). -/
def closed (branch : Branch Message) (reason : StopReason) (toolCalls : Nat) : TranscriptState S :=
  { t with
    records := (t.records.recordBranch branch.writer.branchId
      (closedFields branch.writer.conversationId reason.text toolCalls (time t.clock))).2
    clock := t.clock + 1 }

/-- An operation of thread `tid`. Without a branch there is nothing to call a method of. -/
def perform : (op : TranscriptOp) → Except Raised op.Result × TranscriptState S
  | .openBranch conversationId branchId =>
    (.ok (messagesOf outside (t.log.entries conversationId)),
      t.openBranch outside time tid conversationId branchId)
  | .replace messages => t.moved tid
      ((t.branches tid).bind fun branch => branch.replace outside t.log messages)
  | .append messages => t.moved tid
      ((t.branches tid).bind fun branch => branch.append outside t.log messages)
  | .closed reason toolCalls =>
    (.ok (), ((t.branches tid).map fun branch => t.closed time branch reason toolCalls).getD t)
  | .readBranch branchId => (.ok ((t.records.readBranch branchId).map RunRecord.ended), t)
  | .read conversationId none => (.ok (messagesOf outside (t.log.entries conversationId)), t)
  | .read conversationId (some cursor) =>
    (match messagesAt outside (t.log.entries conversationId) (some cursor) with
      | some messages => .ok messages
      | none => .error (.other "transcript cursor does not exist"), t)

/-- What an event of the runtime makes of the transcript. -/
def event (e : Code.Event C) : TranscriptState S :=
  match e.op with
  | .ext (.transcript op) => (t.perform outside time e.tid op).2
  | _ => t

/-- The transcript after a log. -/
def after (log : List (Code.Event C)) : TranscriptState S :=
  log.foldl (fun t e => t.event outside time e) t

/-- The environment answers as the transcript does. -/
def Replied (log : List (Code.Event C)) : Prop :=
  Always (fun before e => ∀ op r, e.did (.ext (.transcript op)) r →
    r = ((t.after outside time before).perform outside time e.tid op).1) log

/-- What the outside contributes to a step that reads this transcript. -/
def reading (x : Env) : Env where
  now := x.now
  later := x.later
  reply
    | .transcript op => (t.perform outside time tid op).1
    | e => x.reply e

@[simp] theorem after_nil : t.after outside time ([] : List (Code.Event C)) = t := rfl

@[simp] theorem after_concat (log : List (Code.Event C)) (e : Code.Event C) :
    t.after outside time (log ++ [e]) = (t.after outside time log).event outside time e := by
  simp [after, List.foldl_append]

end TranscriptState

/-! ## Section 2: Plain messages -/

/-- A part of a request, as it is written. -/
def RequestPart.toJson : RequestPart → JsonTree PyScalar
  | .userPrompt content =>
    .obj [("content", .str content), ("part_kind", .str "user-prompt")]
  | .toolReturn toolName callId content =>
    .obj [("tool_name", .str toolName), ("content", .str content), ("tool_call_id", .str callId),
      ("part_kind", .str "tool-return")]
  | .other content => .obj [("content", .str content), ("part_kind", .str "system-prompt")]

/-- A part of a response. -/
def ResponsePart.toJson : ResponsePart → JsonTree PyScalar
  | .text content => .obj [("content", .str content), ("part_kind", .str "text")]
  | .toolCall call =>
    .obj [("tool_name", .str call.toolName), ("args", .str call.args),
      ("tool_call_id", .str call.toolCallId), ("part_kind", .str "tool-call")]
  | .other content => .obj [("content", .str content), ("part_kind", .str "thinking")]

/-- A message. -/
def Message.toJson : Message → JsonTree PyScalar
  | .request r =>
    .obj [("parts", .arr (r.parts.map RequestPart.toJson)),
      ("metadata", .obj [("input_ids", .arr (r.inputIds.map .str))]), ("kind", .str "request")]
  | .response r =>
    .obj [("parts", .arr (r.parts.map ResponsePart.toJson)), ("kind", .str "response")]

/-- The text at a path, if there is one. -/
def textAt (j : JsonTree PyScalar) (path : List JsonTree.Step) : String :=
  match j.get? path with
  | some (.str text) => text
  | _ => ""

/-- The items at a path. -/
def itemsAt (j : JsonTree PyScalar) (path : List JsonTree.Step) :
    List (JsonTree PyScalar) :=
  match j.get? path with
  | some (.arr items) => items
  | _ => []

def RequestPart.ofJson (j : JsonTree PyScalar) : RequestPart :=
  let content := textAt j [.key "content"]
  if textAt j [.key "part_kind"] = "user-prompt" then .userPrompt content
  else if textAt j [.key "part_kind"] = "tool-return" then
    .toolReturn (textAt j [.key "tool_name"]) (textAt j [.key "tool_call_id"])
      content
  else .other content

def ResponsePart.ofJson (j : JsonTree PyScalar) : ResponsePart :=
  let content := textAt j [.key "content"]
  if textAt j [.key "part_kind"] = "text" then .text content
  else if textAt j [.key "part_kind"] = "tool-call" then
    .toolCall ⟨textAt j [.key "tool_name"], textAt j [.key "args"],
      textAt j [.key "tool_call_id"]⟩
  else .other content

def Message.ofJson (j : JsonTree PyScalar) : Message :=
  if textAt j [.key "kind"] = "request" then
    .request
      { parts := (itemsAt j [.key "parts"]).map RequestPart.ofJson
        inputIds := (itemsAt j [.key "metadata", .key "input_ids"]).map fun item =>
          textAt item [] }
  else .response { parts := (itemsAt j [.key "parts"]).map ResponsePart.ofJson }

theorem RequestPart.ofJson_toJson (part : RequestPart) : ofJson part.toJson = part := by
  cases part <;> rfl

theorem ResponsePart.ofJson_toJson (part : ResponsePart) : ofJson part.toJson = part := by
  cases part <;> rfl

/-- What is written is read back. -/
theorem Message.ofJson_toJson (m : Message) : ofJson m.toJson = m := by
  -- Part by part, then the two kinds of message.
  have hrequests : ∀ parts : List RequestPart,
      (parts.map RequestPart.toJson).map RequestPart.ofJson = parts := by
    intro parts
    rw [List.map_map]
    exact List.map_id'' (fun part => part.ofJson_toJson) parts
  have hresponses : ∀ parts : List ResponsePart,
      (parts.map ResponsePart.toJson).map ResponsePart.ofJson = parts := by
    intro parts
    rw [List.map_map]
    exact List.map_id'' (fun part => part.ofJson_toJson) parts
  have hids : ∀ ids : List String, ((ids.map JsonTree.str : List (JsonTree PyScalar)).map
      fun item => textAt item []) = ids := by
    intro ids
    rw [List.map_map]
    exact List.map_id'' (fun _ => rfl) ids
  cases m with
  | request r =>
    show Message.request ⟨(r.parts.map RequestPart.toJson).map RequestPart.ofJson,
      (r.inputIds.map JsonTree.str).map fun item => textAt item []⟩ = _
    rw [hrequests, hids]
  | response r =>
    show Message.response ⟨(r.parts.map ResponsePart.toJson).map ResponsePart.ofJson⟩ = _
    rw [hresponses]

/-- A dictionary of values that are well formed. -/
theorem jsonWf_record {fields : List (String × JsonTree PyScalar)}
    (hnodup : (fields.map Prod.fst).Nodup) (hfields : ∀ v ∈ fields.map Prod.snd, v.Wf) :
    (JsonTree.obj fields).Wf :=
  .obj hnodup fun field hmem => hfields field.2 (List.mem_map_of_mem hmem)

theorem RequestPart.wf_toJson (part : RequestPart) : part.toJson.Wf := by
  cases part <;>
    exact jsonWf_record (by simp) fun v hv => by
      simp only [List.map_cons, List.map_nil, List.mem_cons, List.not_mem_nil, or_false] at hv
      rcases hv with rfl | rfl | rfl | rfl <;> exact .str _

theorem ResponsePart.wf_toJson (part : ResponsePart) : part.toJson.Wf := by
  cases part <;>
    exact jsonWf_record (by simp) fun v hv => by
      simp only [List.map_cons, List.map_nil, List.mem_cons, List.not_mem_nil, or_false] at hv
      rcases hv with rfl | rfl | rfl | rfl <;> exact .str _

theorem Message.wf_toJson (m : Message) : m.toJson.Wf := by
  -- The records' keys are fixed and distinct, so it is enough that each value is well formed.
  cases m with
  | request r =>
    refine jsonWf_record (by simp) fun v hv => ?_
    simp only [List.map_cons, List.map_nil, List.mem_cons, List.not_mem_nil, or_false] at hv
    rcases hv with rfl | rfl | rfl
    · refine .arr fun item hitem => ?_
      obtain ⟨part, _, rfl⟩ := List.mem_map.mp hitem
      exact part.wf_toJson
    · refine jsonWf_record (by simp) fun v hv => ?_
      rw [List.map_singleton, List.mem_singleton] at hv
      subst hv
      refine .arr fun item hitem => ?_
      obtain ⟨id, _, rfl⟩ := List.mem_map.mp hitem
      exact .str _
    · exact .str _
  | response r =>
    refine jsonWf_record (by simp) fun v hv => ?_
    simp only [List.map_cons, List.map_nil, List.mem_cons, List.not_mem_nil, or_false] at hv
    rcases hv with rfl | rfl
    · refine .arr fun item hitem => ?_
      obtain ⟨part, _, rfl⟩ := List.mem_map.mp hitem
      exact part.wf_toJson
    · exact .str _

/-- The runtime's messages, written as Pydantic AI writes them. The digest is its text behind a
    letter, and the clock counts. -/
def messageOutside : Outside PyScalar Message where
  encode := Message.toJson
  decode := Message.ofJson
  sha256 text := "x" ++ text
  messageTime n := n.repr
  markerTime n := n.repr
  wf := Message.wf_toJson
  kind m := by
    cases m with
    | request r => exact Or.inl rfl
    | response r => exact Or.inr rfl

/-! ## Section 3: Schedules over the transcript -/

section schedules

variable {ρ : C → Type} (body : Nat → (call : C) → Prog Op Op.Reply (ρ call))
  (outside : Outside S Message) (time : Nat → String)

/-- The action, with the transcript's answer in place of the outside's. -/
def TranscriptState.answering (t : TranscriptState S) : Action C Env → Action C Env
  | .run tid x => .run tid (t.reading outside time tid x)
  | a => a

/-- What an action makes of a world and its transcript. -/
def actOver (t : TranscriptState S) (w : World (MemorySteps Record) Op.Reply ρ)
    (a : Action C Env) : World (MemorySteps Record) Op.Reply ρ × TranscriptState S :=
  let w' := (Code.system body).act w (t.answering outside time a)
  (w', t.after outside time (w'.hist.log.drop w.hist.log.length))

/-- The schedule, with a transcript that answers. -/
def overTranscript (t : TranscriptState S) (w : World (MemorySteps Record) Op.Reply ρ) :
    List (Action C Env) → List (Action C Env)
  | [] => []
  | a :: schedule =>
    let next := actOver body outside time t w a
    t.answering outside time a :: overTranscript next.2 next.1 schedule

variable {outside time} {t t' : TranscriptState S} {w : World (MemorySteps Record) Op.Reply ρ}

/-- The transcript begins no calls. -/
theorem begin_overTranscript {call : C} {schedule : List (Action C Env)}
    (h : Action.begin call ∈ overTranscript body outside time t w schedule) :
    Action.begin call ∈ schedule := by
  induction schedule generalizing t w with
  | nil => exact h
  | cons a schedule ih =>
    rcases List.mem_cons.mp h with heq | h
    · cases a with
      | begin other =>
        rw [heq]
        exact List.mem_cons_self
      | run tid x => cases heq
      | crash tid => cases heq
    · exact List.mem_cons_of_mem _ (ih h)

/-- An action keeps the transcript in step with the log. -/
theorem replied_act (ht' : t' = t.after outside time w.hist.log)
    (hreplied : t.Replied outside time w.hist.log) (a : Action C Env) :
    let next := actOver body outside time t' w a
    next.2 = t.after outside time next.1.hist.log ∧ t.Replied outside time next.1.hist.log := by
  intro next
  have hsame : ∀ w' : World (MemorySteps Record) Op.Reply ρ, w'.hist.log = w.hist.log →
      next = (w', t'.after outside time (w'.hist.log.drop w.hist.log.length)) →
        next.2 = t.after outside time next.1.hist.log ∧
          t.Replied outside time next.1.hist.log := by
    intro w' hlog hnext
    rw [hnext]
    dsimp only
    rw [hlog, List.drop_length]
    exact ⟨ht', hreplied⟩
  cases a with
  | begin call => exact hsame next.1 rfl rfl
  | crash tid => exact hsame next.1 rfl rfl
  | run tid x =>
    cases hth : w.threads tid with
    | none =>
      refine hsame w rfl ?_
      have hact : (Code.system body).act w (t'.answering outside time (.run tid x)) = w := by
        simp only [TranscriptState.answering, System.act, hth]
      show ((Code.system body).act w _, _) = _
      rw [hact]
    | some th =>
      obtain ⟨call, rest⟩ := th
      cases rest with
      | pure r =>
        refine hsame w rfl ?_
        have hact : (Code.system body).act w (t'.answering outside time (.run tid x)) = w := by
          simp only [TranscriptState.answering, System.act, hth]
        show ((Code.system body).act w _, _) = _
        rw [hact]
      | perform o more =>
        -- One operation: the transcript answers it as it stands, and takes it in.
        let answered := perform w.hist.now (t'.reading outside time tid x) o
        have hlog : next.1.hist.log
            = w.hist.log ++ [⟨tid, call, o, answered.1, answered.2⟩] := by
          show ((Code.system body).act w (.run tid (t'.reading outside time tid x))).hist.log = _
          simp only [System.act, hth]
          rfl
        have hmore : next.2
            = t'.after outside time (next.1.hist.log.drop w.hist.log.length) := rfl
        rw [hmore, hlog, List.drop_left]
        refine ⟨?_, always_concat.mpr ⟨hreplied, fun op r hdid => ?_⟩⟩
        · rw [TranscriptState.after_concat, ← ht']
          rfl
        · obtain rfl : o = .ext (.transcript op) := Event.op_of_did hdid
          rw [← ht']
          cases hdid
          rfl

/-- **What the schedule does is answered by the transcript.** -/
theorem replied_overTranscript (ht' : t' = t.after outside time w.hist.log)
    (hreplied : t.Replied outside time w.hist.log) (schedule : List (Action C Env)) :
    t.Replied outside time ((Code.system body).after w
      (overTranscript body outside time t' w schedule)).hist.log := by
  induction schedule generalizing w t' with
  | nil => exact hreplied
  | cons a schedule ih =>
    obtain ⟨hnext, hanswered⟩ := replied_act body ht' hreplied a
    exact ih hnext hanswered

end schedules

end Semora
