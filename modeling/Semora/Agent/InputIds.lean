import Semora.Agent.ToolAgent

/-! # The Inputs a History Names

    A request names the queued inputs that it carries (`input_ids`), and what
    a history names is what `represented_inputs` finds in it. An agent's graph
    keeps its history: a run goes on where the history ends, and its messages
    grow by what is answered. -/

namespace Semora

/-! ## Section 1: The ids of a history -/

section ids

variable (messages more : List Message)

@[simp] theorem representedInputs_append :
    representedInputs (messages ++ more) = representedInputs messages ++ representedInputs more :=
  List.flatMap_append

@[simp] theorem representedInputs_request (request : ModelRequest) :
    representedInputs [.request request] = request.inputIds := List.append_nil _

@[simp] theorem representedInputs_response (response : ModelResponse) :
    representedInputs [.response response] = [] := rfl

end ids

/-- The request that a run issues again: it is asked nothing, and its history ends in it. -/
def RunStart.reissued (start : RunStart) : Option ModelRequest :=
  match start.prompt, start.approvals, (start.history.getD []).getLast? with
  | none, none, some (.request request) => some request
  | _, _, _ => none

/-- The ids that the first request of a run names before the boundary has seen it. -/
def RunStart.stamp (start : RunStart) : List String :=
  (start.reissued.map ModelRequest.inputIds).getD []

/-- The history that a run goes on with. -/
def RunStart.kept (start : RunStart) : List Message :=
  match start.reissued with
  | some _ => (start.history.getD []).dropLast
  | none => start.history.getD []

/-- What is issued again stands at the end of the history. -/
theorem RunStart.kept_ids (start : RunStart) :
    representedInputs (start.history.getD []) = representedInputs start.kept ++ start.stamp := by
  unfold kept stamp
  cases hreissued : start.reissued with
  | none => simp
  | some request =>
    have hlast : (start.history.getD []).getLast? = some (.request request) := by
      unfold reissued at hreissued
      split at hreissued
      · next hlast =>
        rw [hlast]
        exact congrArg (Option.map Message.request) hreissued
      · cases hreissued
    have hwhole := List.dropLast_append_getLast? _ hlast
    calc representedInputs (start.history.getD [])
        = representedInputs ((start.history.getD []).dropLast ++ [.request request]) := by
          rw [hwhole]
      _ = representedInputs (start.history.getD []).dropLast ++ request.inputIds := by simp

/-! ## Section 2: The history of an agent -/

/-- The ids that the messages of a run name after an operation. -/
def NodeOp.idsAfter (ids stamp : List String) : (o : NodeOp) → Except Raised o.Result →
    List String
  | .modelRequest .., .ok (.answered request _) => ids ++ request.inputIds
  | .modelRequest .., .ok (.halted true _) => ids ++ stamp
  | _, _ => ids

/-- The ids that the next request names before the boundary has seen it. -/
def NodeOp.stampAfter (stamp : List String) : NodeOp → List String
  | .modelRequest .. => []
  | .toolsCalled .. => []
  | _ => stamp

/-- The operation is given the messages of the run so far, and a request that names what it may. -/
def NodeOp.Shows (ids stamp : List String) : NodeOp → Prop
  | .modelRequest ctx request _ =>
    representedInputs ctx.messages = ids ∧ request.inputIds = stamp
  | .toolsCalled ctx _ result =>
    representedInputs ctx.messages = ids ∧
      ∀ request, result = .next request → request.inputIds = []
  | _ => True

/-- A request that the boundary asks for names nothing yet. -/
def NodeOp.Unstamped : (o : NodeOp) → Except Raised o.Result → Prop
  | .toolsCalled .., .ok (.next request) => request.inputIds = []
  | _, _ => True

/-- The program keeps its messages: each request that was answered, as it was made. -/
def KeepsHistory : List String → List String → AgentProg (Except Raised RunResult) → Prop
  | ids, _, .pure r => ∀ result, r = .ok result → representedInputs result.messages = ids
  | ids, stamp, .perform o next =>
    o.Shows ids stamp ∧ ∀ r, o.Unstamped r →
      KeepsHistory (o.idsAfter ids stamp r) (o.stampAfter stamp) (next r)

/-- The agent's graph: a history ends where the run goes on, and grows by what is answered. -/
def Agent.KeepsHistory (agent : Agent) : Prop :=
  ∀ start, Semora.KeepsHistory (representedInputs start.kept) start.stamp (agent.run start)

namespace ToolAgent

variable {tool : ToolDefinition} {ids : List String}

theorem keepsHistory_raised (ids stamp : List String) (error : Raised) :
    KeepsHistory ids stamp (.pure (.error error)) := nofun

theorem keepsHistory_callAll {ctx : RunContext} {approved : Bool} {next : ToolRound → Run}
    {stamp : List String} (hnext : ∀ round, KeepsHistory ids stamp (next round))
    (calls : List (ToolCall × Json)) (round : ToolRound) :
    KeepsHistory ids stamp (callAll tool ctx approved next calls round) := by
  induction calls generalizing round with
  | nil => exact hnext round
  | cons p calls ih =>
    obtain ⟨call, args⟩ := p
    refine ⟨trivial, fun r _ => ?_⟩
    dsimp only
    cases hadd : round.add call r with
    | error error => exact keepsHistory_raised _ _ error
    | ok round => exact ih round

theorem keepsHistory_endRound {ctx : RunContext} {response : ModelResponse}
    {request : ModelRequest → Run} {stamp : List String}
    (hctx : representedInputs ctx.messages = ids)
    (hrequest : ∀ next, next.inputIds = [] → KeepsHistory ids [] (request next))
    (round : ToolRound) : KeepsHistory ids stamp (endRound ctx response request round) := by
  unfold endRound
  -- Calls wait: the round is deferred. None does: the next request names nothing yet.
  by_cases hwaiting : round.waiting ≠ []
  · rw [if_pos hwaiting]
    refine ⟨⟨hctx, nofun⟩, fun r _ => ?_⟩
    cases r with
    | error error => exact keepsHistory_raised _ _ error
    | ok result =>
      -- the results that are there join the history
      intro final hfinal
      obtain rfl := Except.ok.inj hfinal
      show representedInputs (withReturns ctx.messages round) = ids
      unfold withReturns
      split
      · exact hctx
      · simpa using hctx
  · rw [if_neg hwaiting]
    refine ⟨⟨hctx, ?_⟩, fun r hr => ?_⟩
    · intro next hnext
      rw [← NodeResult.next.inj hnext]
    · cases r with
      | error error => exact keepsHistory_raised _ _ error
      | ok result =>
        cases result with
        | next next => exact hrequest next hr
        | finished output => exact keepsHistory_raised _ _ _
        | deferred requests => exact keepsHistory_raised _ _ _

theorem keepsHistory_endTurn {ctx : RunContext} {response : ModelResponse}
    {request : ModelRequest → Run} {stamp : List String}
    (hctx : representedInputs ctx.messages = ids)
    (hrequest : ∀ next, next.inputIds = [] → KeepsHistory ids [] (request next)) :
    KeepsHistory ids stamp (endTurn ctx response request) := by
  refine ⟨⟨hctx, nofun⟩, fun r hr => ?_⟩
  cases r with
  | error error => exact keepsHistory_raised _ _ error
  | ok result =>
    cases result with
    | next next => exact hrequest next hr
    | finished output =>
      intro final hfinal
      obtain rfl := Except.ok.inj hfinal
      exact hctx
    | deferred requests =>
      intro final hfinal
      obtain rfl := Except.ok.inj hfinal
      exact hctx

theorem keepsHistory_turns (limit step : Nat) (messages : List Message) (request : ModelRequest) :
    KeepsHistory (representedInputs messages) request.inputIds
      (turns tool limit step messages request) := by
  -- Induction on the turns left: each shows the messages so far, and adds the request that it
  -- joined.
  induction limit generalizing step messages request with
  | zero => exact keepsHistory_raised _ _ _
  | succ limit ih =>
    refine ⟨⟨rfl, rfl⟩, fun r _ => ?_⟩
    cases r with
    | error error => exact keepsHistory_raised _ _ error
    | ok result =>
      cases result with
      | halted joined output =>
        intro final hfinal
        obtain rfl := Except.ok.inj hfinal
        cases joined with
        | true => simp [NodeOp.idsAfter]
        | false => rfl
      | answered request' response =>
        have hmessages : representedInputs
            (messages ++ [.request request', .response response])
            = representedInputs messages ++ request'.inputIds := by
          rw [representedInputs_append]
          simp [representedInputs]
        have hagain : ∀ next : ModelRequest, next.inputIds = [] →
            KeepsHistory (representedInputs messages ++ request'.inputIds) []
              (turns tool limit (step + 1)
                (messages ++ [.request request', .response response]) next) := by
          intro next hnext
          rw [← hmessages, ← hnext]
          exact ih _ _ next
        refine ⟨trivial, fun r _ => ?_⟩
        cases r with
        | error error => exact keepsHistory_raised _ _ error
        | ok u =>
          show KeepsHistory _ [] (if response.toolCalls = [] then _ else _)
          by_cases hnone : response.toolCalls = []
          · rw [if_pos hnone]
            exact keepsHistory_endTurn hmessages hagain
          · rw [if_neg hnone]
            exact keepsHistory_callAll (keepsHistory_endRound hmessages hagain) _ _

theorem keepsHistory_resumed (limit : Nat) (history : List Message)
    (approvals : List (String × Approval)) :
    KeepsHistory (representedInputs history) [] (resumed tool limit history approvals) := by
  have hagain : ∀ next : ModelRequest, next.inputIds = [] →
      KeepsHistory (representedInputs history) [] (turns tool (limit + 1) 1 history next) := by
    intro next hnext
    rw [← hnext]
    exact keepsHistory_turns _ _ _ next
  have hctx : representedInputs (RunContext.mk 0 history).messages = representedInputs history :=
    rfl
  unfold resumed
  cases latestResponse history with
  | none => exact keepsHistory_raised _ _ _
  | some found =>
    refine ⟨trivial, fun r _ => ?_⟩
    cases r with
    | error error => exact keepsHistory_raised _ _ error
    | ok tools =>
      refine ⟨trivial, fun r _ => ?_⟩
      cases r with
      | error error => exact keepsHistory_raised _ _ error
      | ok u => exact keepsHistory_callAll (keepsHistory_endRound hctx hagain) _ _

theorem keepsHistory_responded (limit : Nat) (history : List Message) (response : ModelResponse) :
    KeepsHistory (representedInputs history) [] (responded tool limit history response) := by
  have hagain : ∀ next : ModelRequest, next.inputIds = [] →
      KeepsHistory (representedInputs history) [] (turns tool limit 1 history next) := by
    intro next hnext
    rw [← hnext]
    exact keepsHistory_turns _ _ _ next
  have hctx : representedInputs (RunContext.mk 0 history).messages = representedInputs history :=
    rfl
  refine ⟨trivial, fun r _ => ?_⟩
  cases r with
  | error error => exact keepsHistory_raised _ _ error
  | ok tools =>
    refine ⟨trivial, fun r _ => ?_⟩
    cases r with
    | error error => exact keepsHistory_raised _ _ error
    | ok u =>
      show KeepsHistory _ [] (if response.toolCalls = [] then _ else _)
      by_cases hnone : response.toolCalls = []
      · rw [if_pos hnone]
        exact keepsHistory_endTurn hctx hagain
      · rw [if_neg hnone]
        exact keepsHistory_callAll (keepsHistory_endRound hctx hagain) _ _

end ToolAgent

/-- It goes on where its history ends. -/
theorem graphAgent_keepsHistory (digest : List Message → List ToolDefinition → String)
    (tool : ToolDefinition) (limit : Nat) : (graphAgent digest tool limit).KeepsHistory := by
  intro start
  obtain ⟨prompt, history, approvals⟩ := start
  unfold graphAgent
  dsimp only
  -- Resumed with approvals, begun with a prompt, or taken up where the history ends.
  cases approvals with
  | some approvals =>
    have hnone : (RunStart.mk prompt history (some approvals)).reissued = none := by
      cases prompt <;> rfl
    unfold RunStart.kept RunStart.stamp
    rw [hnone]
    exact ToolAgent.keepsHistory_resumed _ _ _
  | none =>
    cases prompt with
    | some prompt =>
      exact ToolAgent.keepsHistory_turns limit 1 (history.getD []) { parts := [.userPrompt prompt] }
    | none =>
      unfold RunStart.kept RunStart.stamp RunStart.reissued ToolAgent.continued
      dsimp only
      cases (history.getD []).getLast? with
      | none => exact ToolAgent.keepsHistory_turns limit 1 (history.getD []) { parts := [] }
      | some last =>
        cases last with
        | request request =>
          exact ToolAgent.keepsHistory_turns limit 1 (history.getD []).dropLast request
        | response response => exact ToolAgent.keepsHistory_responded _ _ response

end Semora
