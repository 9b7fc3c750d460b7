import Semora.Agent.BoundaryOps

/-! # An Agent That Calls Tools

    The graph of an agent with one tool, as the boundary sees it: model
    requests, rounds of tool calls, calls that wait for a person, and the run
    that is handed a person's decisions. It is an instance of `Agent`; what is
    proved of every agent holds of it, and it reports what it is handed. -/

namespace Semora

/-- What the calls of a round came to, in the model's order. -/
structure ToolRound where
  /-- The results that are there. -/
  returns : List RequestPart := []
  /-- The calls that wait, with their requests. -/
  waiting : List (ToolCall × SuspendRequest) := []

/-- The result of a call, as the model sees it. -/
def ToolCall.returned (call : ToolCall) (content : Json) : RequestPart :=
  .toolReturn call.toolName call.toolCallId content

/-- One more call of the round. What is no result, and does not wait, is raised. -/
def ToolRound.add (round : ToolRound) (call : ToolCall) :
    Except Raised Json → Except Raised ToolRound
  | .ok value => .ok { round with returns := round.returns ++ [call.returned value] }
  | .error (.skipToolExecution result) =>
      .ok { round with returns := round.returns ++ [call.returned result] }
  | .error (.toolFailed error) =>
      .ok { round with returns := round.returns ++ [call.returned error] }
  | .error (.approvalRequired (some request)) =>
      .ok { round with waiting := round.waiting ++ [(call, request)] }
  | .error error => .error error

/-- `DeferredToolRequests` of the calls that wait. -/
def ToolRound.requests (round : ToolRound) : DeferredToolRequests where
  approvals := round.waiting.map Prod.fst
  metadata := round.waiting.foldl (fun metadata p => metadata.set p.1.toolCallId p.2) Dict.empty

namespace ToolAgent

/-- What ends a run. -/
abbrev Run := AgentProg (Except Raised RunResult)

section graph

variable (tool : ToolDefinition)

/-- Call the tool, one call after the other. -/
def callAll (ctx : RunContext) (approved : Bool) (next : ToolRound → Run) :
    List (ToolCall × Json) → ToolRound → Run
  | [], round => next round
  | (call, args) :: calls, round =>
    .perform (.tool ctx tool call args approved) fun r =>
      match round.add call r with
      | .error error => .pure (.error error)
      | .ok round => callAll ctx approved next calls round

/-- The messages with the results of the last round. -/
def withReturns (messages : List Message) (round : ToolRound) : List Message :=
  if round.returns = [] then messages
  else messages ++ [.request { parts := round.returns }]

/-- The calls of a response have been made: the run waits, or goes on with their results. -/
def endRound (ctx : RunContext) (response : ModelResponse) (request : ModelRequest → Run)
    (round : ToolRound) : Run :=
  if round.waiting ≠ [] then
    .perform (.toolsCalled ctx response (.deferred round.requests)) fun
      | .error error => .pure (.error error)
      | .ok _ =>
        .pure (.ok ⟨.deferred round.requests, withReturns ctx.messages round⟩)
  else
    .perform (.toolsCalled ctx response (.next { parts := round.returns })) fun
      | .ok (.next next) => request next
      | .ok _ => .pure (.error (.other "a round that went on has ended"))
      | .error error => .pure (.error error)

/-- A response without calls ends the run, unless the boundary has it go on. -/
def endTurn (ctx : RunContext) (response : ModelResponse) (request : ModelRequest → Run) : Run :=
  .perform (.toolsCalled ctx response (.finished response.text)) fun
    | .ok (.next next) => request next
    | .ok (.finished output) => .pure (.ok ⟨.text output, ctx.messages⟩)
    | .ok (.deferred requests) => .pure (.ok ⟨.deferred requests, ctx.messages⟩)
    | .error error => .pure (.error error)

/-- Turn after turn, as many as are allowed. -/
def turns : Nat → Nat → List Message → ModelRequest → Run
  | 0, _, _, _ => .pure (.error (.other "UsageLimitExceeded"))
  | limit + 1, step, messages, request =>
    .perform (.modelRequest ⟨step, messages⟩ request [tool]) fun
      | .error error => .pure (.error error)
      | .ok (.halted joined output) =>
        .pure (.ok ⟨.text output, if joined then messages ++ [.request request] else messages⟩)
      | .ok (.answered request response) =>
        let messages := messages ++ [.request request, .response response]
        let ctx : RunContext := ⟨step, messages⟩
        let again := turns limit (step + 1) messages
        .perform (.callTools ctx response) fun
          | .error error => .pure (.error error)
          | .ok () =>
            if response.toolCalls = [] then endTurn ctx response again
            else
              callAll tool ctx false (endRound ctx response again)
                (response.toolCalls.map fun call => (call, call.args)) {}

/-- The results of the calls a person denied. -/
def denied (approvals : List (String × Approval)) (calls : List ToolCall) : List RequestPart :=
  calls.filterMap fun call =>
    match approvals.lookup call.toolCallId with
    | some (.denied message) => some (call.returned message)
    | _ => none

/-- The calls a person approved, with the arguments they run with. -/
def approved (approvals : List (String × Approval)) (calls : List ToolCall) :
    List (ToolCall × Json) :=
  calls.filterMap fun call =>
    match approvals.lookup call.toolCallId with
    | some (.approved override) => some (call, override.getD call.args)
    | _ => none

/-- A run that is handed decisions finishes the round they are about. -/
def resumed (limit : Nat) (history : List Message) (approvals : List (String × Approval)) : Run :=
  match latestResponse history with
  | none => .pure (.error (.other "UserError: no round to resume"))
  | some (response, _) =>
    let ctx : RunContext := ⟨0, history⟩
    let calls := unansweredToolCalls history
    .perform (.prepareTools [tool]) fun
      | .error error => .pure (.error error)
      | .ok _ => .perform (.callTools ctx response) fun
        | .error error => .pure (.error error)
        | .ok () =>
          callAll tool ctx true (endRound ctx response (turns tool (limit + 1) 1 history))
            (approved approvals calls) { returns := denied approvals calls }

/-- A run without decisions asks the model. -/
def fresh (limit : Nat) (history : List Message) (prompt : Option Json) : Run :=
  turns tool limit 1 history { parts := prompt.toList.map .userPrompt }

/-- The node of a response that ends a history: its calls are made, or the turn ends. -/
def responded (limit : Nat) (history : List Message) (response : ModelResponse) : Run :=
  let ctx : RunContext := ⟨0, history⟩
  let again := turns tool limit 1 history
  .perform (.prepareTools [tool]) fun
    | .error error => .pure (.error error)
    | .ok _ => .perform (.callTools ctx response) fun
      | .error error => .pure (.error error)
      | .ok () =>
        if response.toolCalls = [] then endTurn ctx response again
        else
          callAll tool ctx false (endRound ctx response again)
            (response.toolCalls.map fun call => (call, call.args)) {}

/-- A run without decisions that goes on where its history ends, when it is asked nothing: a
    request is issued again, and a response's calls are made. -/
def continued (limit : Nat) (history : List Message) : Option Json → Run
  | some prompt => fresh tool limit history (some prompt)
  | none =>
    match history.getLast? with
    | some (.request request) => turns tool limit 1 history.dropLast request
    | some (.response response) => responded tool limit history response
    | none => fresh tool limit history none

end graph

end ToolAgent

/-- The agent with this tool, and a limit on its model requests. -/
def toolAgent (digest : List Message → List ToolDefinition → String) (tool : ToolDefinition)
    (limit : Nat) : Agent where
  digest := digest
  run start :=
    match start.approvals with
    | none => ToolAgent.fresh tool limit (start.history.getD []) start.prompt
    | some approvals => ToolAgent.resumed tool limit (start.history.getD []) approvals

/-- The agent that goes on where its history ends. -/
def graphAgent (digest : List Message → List ToolDefinition → String) (tool : ToolDefinition)
    (limit : Nat) : Agent where
  digest := digest
  run start :=
    match start.approvals with
    | none => ToolAgent.continued tool limit (start.history.getD []) start.prompt
    | some approvals => ToolAgent.resumed tool limit (start.history.getD []) approvals

/-! ## It reports what it is handed -/

namespace ToolAgent

variable {tool : ToolDefinition}

theorem reports_callAll {ctx : RunContext} {approved : Bool} {next : ToolRound → Run}
    (hnext : ∀ round, ReportsResults (next round)) (calls : List (ToolCall × Json))
    (round : ToolRound) : ReportsResults (callAll tool ctx approved next calls round) := by
  induction calls generalizing round with
  | nil => exact hnext round
  | cons p calls ih =>
    obtain ⟨call, args⟩ := p
    refine ReportsResults.step rfl fun r => ?_
    cases hadd : round.add call r with
    | error error => exact ReportsResults.raised error
    | ok round => exact ih round

theorem reports_turns (limit step : Nat) (messages : List Message) (request : ModelRequest) :
    ReportsResults (turns tool (limit + 1) step messages request) :=
  ReportsResults.request fun _ _ => ⟨_, rfl⟩

theorem reports_endRound {ctx : RunContext} {response : ModelResponse}
    {request : ModelRequest → Run} (hrequest : ∀ next, ReportsResults (request next))
    (round : ToolRound) : ReportsResults (endRound ctx response request round) := by
  unfold endRound
  by_cases hwaiting : round.waiting ≠ []
  · rw [if_pos hwaiting]
    refine ReportsResults.step rfl fun r => ?_
    cases r with
    | error error => exact ReportsResults.raised error
    | ok result => exact ReportsResults.deferred _ _
  · rw [if_neg hwaiting]
    refine ReportsResults.step rfl fun r => ?_
    cases r with
    | error error => exact ReportsResults.raised error
    | ok result =>
      cases result with
      | next next => exact hrequest next
      | finished output => exact ReportsResults.raised _
      | deferred requests => exact ReportsResults.raised _

end ToolAgent

/-- Whatever it is handed, it raises, or defers again, or hands the results to the model. -/
theorem toolAgent_reports (digest : List Message → List ToolDefinition → String)
    (tool : ToolDefinition) (limit : Nat) : (toolAgent digest tool limit).Reports := by
  intro start hsome
  obtain ⟨approvals, happrovals⟩ := Option.isSome_iff_exists.mp hsome
  show ReportsResults (match start.approvals with
    | none => _
    | some approvals => ToolAgent.resumed tool limit (start.history.getD []) approvals)
  rw [happrovals]
  unfold ToolAgent.resumed
  cases latestResponse (start.history.getD []) with
  | none => exact ReportsResults.raised _
  | some found =>
    refine ReportsResults.step rfl fun prepared => ?_
    cases prepared with
    | error error => exact ReportsResults.raised error
    | ok tools =>
      refine ReportsResults.step rfl fun r => ?_
      cases r with
      | error error => exact ReportsResults.raised error
      | ok _ =>
        exact ToolAgent.reports_callAll
          (ToolAgent.reports_endRound fun next => ToolAgent.reports_turns limit 1 _ next) _ _

/-! ## Its outside -/

/-- A message in a line of text, for a digest. -/
def Message.line : Message → String
  | .request r => "?" ++ String.join (r.parts.map fun
    | .userPrompt content => content
    | .toolReturn _ callId content => callId ++ "=" ++ content
    | .other content => content)
  | .response r => "!" ++ String.join (r.parts.map fun
    | .text content => content
    | .toolCall call => call.toolCallId
    | .other content => content)

/-- A digest that names what the messages say. -/
def plainDigest (messages : List Message) (_ : List ToolDefinition) : String :=
  String.join (messages.map Message.line)

/-- A response that calls the tool, once for each id. -/
def asksFor (tool : ToolDefinition) (callIds : List String) : ModelResponse where
  parts := callIds.map fun callId => .toolCall ⟨tool.name, "", callId⟩

/-- A response that ends the turn. -/
def tells (content : String) : ModelResponse where
  parts := [.text content]

/-- A transcript that holds nothing. -/
def emptyTranscript : (op : TranscriptOp) → op.Result
  | .openBranch .. => ([] : List Message)
  | .replace _ => ()
  | .append _ => ()
  | .closed .. => ()
  | .readBranch _ => (none : Option Bool)
  | .read .. => ([] : List Message)

/-- The outside at one time: how the model answers, and how `on_resume` decides. Every other
    control lets everything pass. -/
def outside (now : ℚ) (response : ModelResponse) (decision : ToolDecision) : Env where
  now := now
  later := now
  reply
    | .handler _ _ => .ok "done"
    | .model _ => .ok response
    | .onInputs _ inputs => .ok (.inl inputs)
    | .beforeModel _ => .ok (.proceed [])
    | .preToolUse _ _ => .ok .continue
    | .postToolUse _ _ result =>
      .ok (match result with
        | .ok value => value
        | .failed error => error)
    | .beforeFinish _ reason => .ok (.halt reason)
    | .onResume .. => .ok decision
    | .onSuspend .. => .ok ()
    | .transcript op => .ok (emptyTranscript op)
    | .uuid4 => "uuid"
    | .cancelled => false
    | .mark _ => ()

/-- Owners with names of their own. -/
def ownerNames : Owners where
  name i := String.ofList (List.replicate (i + 1) 'w')
  distinct i j h := by
    have hlength := congrArg (fun s : String => s.toList.length) h
    simpa using hlength
  nonempty i h := by
    have hlength := congrArg (fun s : String => s.toList.length) h
    simp at hlength

end Semora
