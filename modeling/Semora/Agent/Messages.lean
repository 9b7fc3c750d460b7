import Semora.Store.Scope

/-! # Messages, Controls and Records

    The values the runtime handles: the parts of Pydantic AI's messages it
    looks into, the decisions of the control points, and what it stores in the
    ledger. What the runtime never looks into (arguments, results, prompt
    contents) is JSON text. -/

namespace Semora

/-- A JSON value, as text. -/
abbrev Json := String

/-! ## Section 1: Messages -/

/-- `ToolCallPart`. -/
structure ToolCall where
  toolName : String
  args : Json
  toolCallId : String
  deriving DecidableEq, Repr

/-- `ModelRequestPart`. -/
inductive RequestPart where
  | userPrompt (content : Json)
  | toolReturn (toolName toolCallId : String) (content : Json)
  /-- System prompts, retry prompts and other parts the runtime passes on. -/
  | other (content : Json)
  deriving DecidableEq, Repr

def RequestPart.isUserPrompt : RequestPart → Bool
  | .userPrompt _ => true
  | _ => false

/-- `ModelRequest`, with the queued inputs its metadata names. -/
structure ModelRequest where
  parts : List RequestPart
  inputIds : List String := []
  deriving DecidableEq, Repr

/-- `ModelResponsePart`. -/
inductive ResponsePart where
  | text (content : String)
  | toolCall (call : ToolCall)
  | other (content : Json)
  deriving DecidableEq, Repr

/-- `ModelResponse`. -/
structure ModelResponse where
  parts : List ResponsePart
  deriving DecidableEq, Repr

/-- `ModelMessage`, without the fields that vary across replays. -/
inductive Message where
  | request (r : ModelRequest)
  | response (r : ModelResponse)
  deriving DecidableEq, Repr

/-- The tool calls of a response, in the model's order. -/
def ModelResponse.toolCalls (r : ModelResponse) : List ToolCall :=
  r.parts.filterMap fun
    | .toolCall call => some call
    | _ => none

/-- The text of a response. -/
def ModelResponse.text (r : ModelResponse) : String :=
  String.join (r.parts.filterMap fun
    | .text content => some content
    | _ => none)

/-- The ids of the calls a message returns results for. -/
def Message.returnedIds : Message → List String
  | .request r => r.parts.filterMap fun
    | .toolReturn _ callId _ => some callId
    | _ => none
  | .response _ => []

/-- `last_text`: the latest assistant text. -/
def lastText (messages : List Message) : String :=
  (messages.reverse.findSome? fun
    | .response r => some r.text
    | .request _ => none).getD ""

/-- `represented_inputs`: queued inputs already in history. -/
def representedInputs (messages : List Message) : List String :=
  messages.flatMap fun
    | .request r => r.inputIds
    | .response _ => []

/-- The latest response of a history, and the messages after it. -/
def latestResponse : List Message → Option (ModelResponse × List Message)
  | [] => none
  | message :: rest =>
    match latestResponse rest with
    | some found => some found
    | none =>
      match message with
      | .response r => some (r, rest)
      | .request _ => none

/-- `unanswered_tool_calls`: calls in the latest response without a following tool return. -/
def unansweredToolCalls (history : List Message) : List ToolCall :=
  match latestResponse history with
  | none => []
  | some (response, later) =>
    response.toolCalls.filter fun call => call.toolCallId ∉ later.flatMap Message.returnedIds

/-- `_round_results`: results of the calls that completed in the latest round. -/
def roundResults (messages : List Message) : List (String × Json) :=
  match latestResponse messages with
  | none => []
  | some (_, later) => later.flatMap fun
    | .request r => r.parts.filterMap fun
      | .toolReturn _ callId content => some (callId, content)
      | _ => none
    | .response _ => []

/-- `PendingInput`. -/
structure PendingInput where
  kind : String
  part : RequestPart
  originId : Option String := none
  deriving DecidableEq, Repr

/-! ## Section 2: Suspension -/

/-- The external request of a suspended call. -/
structure SuspendRequest where
  pendingId : Option String
  body : Json := ""
  deriving DecidableEq, Repr

/-- `request.get("pending_id")` is truthy. -/
def SuspendRequest.routable (request : SuspendRequest) : Bool :=
  request.pendingId.any (· ≠ "")

/-- A person's answer, with the keys the runtime reads. -/
structure Answer where
  /-- `answer.get("type")`. -/
  type : Option String := none
  /-- `answer.get("message")`. -/
  message : Option String := none
  /-- `answer.get("args")`, when it is an object. -/
  args : Option Json := none
  body : Json := ""
  deriving DecidableEq, Repr

/-- The answer refuses the call. -/
def Answer.refuses (answer : Answer) : Bool := answer.type = some "error"

/-- `ToolApproved | ToolDenied`. -/
inductive Approval where
  | approved (overrideArgs : Option Json)
  | denied (message : String)
  deriving DecidableEq, Repr

/-- The approval `_finalize` makes of an answer. -/
def Answer.approval (answer : Answer) : Approval :=
  if answer.refuses then .denied ((answer.message.filter (· ≠ "")).getD "denied")
  else .approved answer.args

/-- `DeferredToolRequests`. -/
structure DeferredToolRequests where
  calls : List ToolCall := []
  approvals : List ToolCall
  metadata : Dict String SuspendRequest
  deriving DecidableEq

/-- `Resumed`: the answer, request and old rules of a call returning from suspension. -/
structure Resumed where
  answer : Answer
  request : SuspendRequest
  rulesVersion : String
  deriving DecidableEq, Repr

/-- The continuation of a parked round. -/
structure Continuation where
  deferred : DeferredToolRequests
  messages : List Message
  completed : List (String × Json)
  rulesVersion : String
  turn : Nat
  subject : String
  deriving DecidableEq

/-- The `state` of a live suspension. -/
inductive SuspensionState where
  | waiting
  | resuming
  deriving DecidableEq, Repr

/-- The value under `ACTIVE_SUSPENSION` while a round is parked. -/
structure Suspension where
  state : SuspensionState
  conversationId : String
  callId : String
  continuation : Continuation
  callIds : List String
  answers : Dict String Answer
  deriving DecidableEq

/-! ## Section 3: Records -/

/-- A committed tool effect: `{"ok": True, "value": …}` or `{"ok": False, "error": …}`. -/
inductive ToolRecord where
  | ok (value : Json)
  | failed (error : String)
  deriving DecidableEq

/-- One call of a pending round. -/
structure CallEntry where
  id : String
  name : String
  args : Json
  refused : Bool := false
  deriving DecidableEq, Repr

/-- What the runtime stores in the ledger. -/
inductive Record where
  /-- Under `tool:…`. -/
  | tool (record : ToolRecord)
  /-- Under `after:…`: the model-visible projection. -/
  | after (record : ToolRecord)
  /-- Under `agent:model:…`. -/
  | model (response : ModelResponse)
  /-- Under `PENDING_ROUND`. -/
  | pendingRound (calls : List CallEntry) (turn : Nat)
  /-- Under `ACTIVE_SUSPENSION`, live. -/
  | suspension (suspension : Suspension)
  /-- Under `ACTIVE_SUSPENSION`, once finished. -/
  | completed (callId : String) (callIds : List String)
  /-- Under `suspend:…`. -/
  | suspendIndex (activeCallId : String)
  /-- A queued input. -/
  | input (item : PendingInput)
  deriving DecidableEq

/-- `step_key`. -/
def stepKey (callId : String) : String := "tool:" ++ callId

/-- `after_key`. -/
def afterKey (callId : String) : String := "after:" ++ callId

/-- `suspend_key`. -/
def suspendKey (callId : String) : String := "suspend:" ++ callId

/-- `ACTIVE_SUSPENSION`. -/
def activeSuspension : String := "agent:active-suspension"

/-- `PENDING_ROUND`. -/
def pendingRoundKey : String := "agent:pending-round"

/-! ## Section 4: Controls -/

/-- `StopReason`. -/
inductive StopReason where
  | completed
  | aborted
  | tool
  | policy
  | suspended
  deriving DecidableEq, Repr

/-- `ToolDecision`. -/
inductive ToolDecision where
  | continue
  | deny (result : Json)
  | suspend (request : SuspendRequest)
  deriving DecidableEq, Repr

/-- `TurnDecision`. -/
inductive TurnDecision where
  | proceed (steers : List RequestPart)
  | halt (reason : StopReason)
  deriving DecidableEq, Repr

/-- `ToolDefinition`, as far as policy reads it. -/
structure ToolDefinition where
  name : String
  /-- `kind == "unapproved"`: declared with `requires_approval=True`. -/
  unapproved : Bool := false
  sequential : Bool := false
  /-- Metadata flag `CONCURRENCY_SAFE`. -/
  concurrencySafe : Bool := false
  deriving DecidableEq, Repr

/-- `Ctx`: the run context shared with every control point. -/
structure Ctx where
  turn : Nat
  messages : List Message
  callsMade : List CallEntry := []
  text : String := ""
  subject : String
  /-- The definition behind the call, at the points about one. -/
  tool : Option ToolDefinition := none
  deriving DecidableEq, Repr

/-- `ResumeInput`. -/
structure ResumeInput where
  answer : Answer
  request : SuspendRequest
  suspendedRulesVersion : String
  currentRulesVersion : String
  deriving DecidableEq, Repr

/-! ## Section 5: Exceptions -/

/-- What an attempt can raise. -/
inductive Raised where
  /-- `Fenced`, `EffectConflict` or a `ValueError` of the ledger. -/
  | store (error : StoreError)
  | indeterminate (branchId key : String) (version : Nat)
  | contended (branchId : String)
  | agentSuspended (pending : List (String × String))
  | approvalRequired (metadata : Option SuspendRequest)
  | callDeferred
  | modelRetry (message : String)
  | skipToolExecution (result : Json)
  | toolFailed (error : String)
  | lookupError (pendingId : String)
  | keyError
  | indexError
  | valueError (message : String)
  | runtimeError (message : String)
  | invalidTransition (state : String)
  /-- `asyncio.CancelledError`, which is no `Exception`. -/
  | cancelled
  /-- Any other exception, with its `str`. -/
  | other (text : String)
  deriving DecidableEq, Repr

/-- `_NOTHING_HAPPENED`: signals a tool raises before any side effect. -/
def Raised.nothingHappened : Raised → Bool
  | .approvalRequired _ => true
  | .callDeferred => true
  | .modelRetry _ => true
  | _ => false

/-- `_RUNTIME_SIGNALS`, and what is no `Exception`: never turned into a tool result. -/
def Raised.passesThrough : Raised → Bool
  | .agentSuspended _ => true
  | .indeterminate .. => true
  | .store (.fenced ..) => true
  | .contended _ => true
  | .cancelled => true
  | _ => false

/-- `str(error)`. -/
def Raised.text : Raised → String
  | .store (.effectConflict branchId key reason) =>
      "effect " ++ pyRepr key ++ " of branch " ++ pyRepr branchId ++ " cannot complete: " ++ reason
  | .store (.valueError what) => what.message
  | .skipToolExecution result => result
  | .toolFailed error => error
  | .modelRetry message => message
  | .valueError message => message
  | .runtimeError message => message
  | .lookupError pendingId => "no active suspension for pending id " ++ pyRepr pendingId
  | .indexError => "list index out of range"
  | .other text => text
  | _ => ""

end Semora
