import Semora.Framework.Pool
import Semora.Agent.Messages

/-! # What the Runtime Asks of the Outside

    The runtime's code as programs over atomic operations: the methods of the
    ledger, and everything that lies outside it. A method of `MemorySteps`
    never suspends, so one operation is one method with the code up to the
    next; the outside is answered by the environment, freely.

    The transcript is a store of its own. Here its replies are the
    environment's as well: nothing proved over these programs depends on what
    it answers. -/

namespace Semora

open Pool

/-! ## Section 1: Operations -/

/-- The methods of the transcript and its `Branch`. -/
inductive TranscriptOp where
  /-- `Branch.open`: the messages of the active branch. -/
  | openBranch (conversationId branchId : String)
  | replace (messages : List Message)
  | append (messages : List Message)
  | closed (reason : StopReason) (toolCalls : Nat)
  /-- `read_branch`: whether there is a record, and whether it has an `ended_at`. -/
  | readBranch (branchId : String)
  /-- `messages_of` the conversation, or `messages_at` a cursor of it. -/
  | read (conversationId : String) (cursor : Option String)

/-- What a transcript method returns. -/
def TranscriptOp.Result : TranscriptOp → Type
  | .openBranch .. => List Message
  | .replace _ => Unit
  | .append _ => Unit
  | .closed .. => Unit
  | .readBranch _ => Option Bool
  | .read .. => List Message

/-- What a run of the agent is started with: `message_history` and `deferred_tool_results`. -/
structure RunStart where
  prompt : Option Json := none
  history : Option (List Message) := none
  approvals : Option (List (String × Approval)) := none
  deriving DecidableEq, Repr

/-- The methods of the runtime that work under the branch's lease. -/
inductive Method where
  | run
  | resume
  | recover
  | fork
  | resolveEffect
  deriving DecidableEq, Repr

/-- Points the code passes that properties speak about. They do nothing. -/
inductive Mark where
  | toolCalled (callId : String)
  | toolReturned (callId : String) (result : Except Raised (Option Record))
  /-- Pydantic AI is handed what the hooks around a tool call come to. -/
  | handed (callId : String) (result : Except Raised Json)
  /-- `prepare_tools` was handed these definitions. -/
  | toolsPrepared (defs : List ToolDefinition)
  /-- `begin_tool_round`. -/
  | roundBegan
  /-- `before_tool_execute` is entered. -/
  | toolEntered (call : ToolCall) (approved : Bool)
  /-- `decide_tool` has decided. -/
  | decided (callId : String) (decision : ToolDecision)
  /-- `_finalize` is entered. -/
  | finalizing (active : Suspension) (answers : Dict String Answer)
  /-- The lease is about to be acquired. -/
  | leasing (method : Method)
  /-- `agent.run` is called, under this token. -/
  | agentRun (token : Int) (start : RunStart)
  /-- `_attempt` returns, with this stop reason. -/
  | ended (reason : StopReason)

/-- What is asked of the world outside the ledger. -/
inductive External where
  /-- A tool's own function. -/
  | handler (call : ToolCall) (args : Json)
  /-- The model provider. -/
  | model (messages : List Message)
  | onInputs (ctx : Ctx) (inputs : List PendingInput)
  | beforeModel (ctx : Ctx)
  | preToolUse (ctx : Ctx) (call : ToolCall)
  /-- Handed the committed value, or the error as an object; answered by the value as the
      hook left it. -/
  | postToolUse (ctx : Ctx) (call : ToolCall) (result : ToolRecord)
  | beforeFinish (ctx : Ctx) (reason : StopReason)
  | onResume (ctx : Ctx) (call : ToolCall) (resume : ResumeInput)
  | onSuspend (ctx : Ctx) (call : ToolCall) (request : SuspendRequest)
      (snapshot : List Message) (completed : List (String × Json))
  | transcript (op : TranscriptOp)
  /-- `uuid4()`. -/
  | uuid4
  /-- Whether the caller is cancelled here. -/
  | cancelled
  | mark (m : Mark)

/-- What the outside answers. -/
def External.Reply : External → Type
  | .handler .. => Except Raised Json
  | .model _ => Except Raised ModelResponse
  | .onInputs .. => Except Raised (List PendingInput ⊕ StopReason)
  | .beforeModel _ => Except Raised TurnDecision
  | .preToolUse .. => Except Raised ToolDecision
  | .postToolUse .. => Except Raised Json
  | .beforeFinish .. => Except Raised TurnDecision
  | .onResume .. => Except Raised ToolDecision
  | .onSuspend .. => Except Raised Unit
  | .transcript op => Except Raised op.Result
  | .uuid4 => String
  | .cancelled => Bool
  | .mark _ => Unit

/-- An operation of the runtime. -/
inductive Op where
  | ledger (op : LedgerOp Record)
  | ext (e : External)

/-- The answer to an operation. -/
def Op.Reply : Op → Type
  | .ledger op => Except StoreError op.Reply
  | .ext e => e.Reply

/-- What the environment contributes to a step: the clock, and the outside's replies. -/
structure Env where
  now : ℚ := 0
  later : ℚ := 0
  reply : (e : External) → e.Reply

/-- An operation against the ledger. -/
def perform (s : MemorySteps Record) (x : Env) : (o : Op) → o.Reply × MemorySteps Record
  | .ledger op => op.perform x.now x.later s
  | .ext e => (x.reply e, s)

/-! ## Section 2: Code -/

/-- Code of the runtime: it returns or raises. -/
abbrev Code (α : Type) := ExceptT Raised (Prog Op Op.Reply) α

namespace Code

/-- Call a ledger method. -/
def ledger (op : LedgerOp Record) : Code op.Reply :=
  ExceptT.mk (.perform (.ledger op) fun r => .pure (r.mapError Raised.store))

/-- Ask the outside for something it may refuse with an exception. -/
def ask (e : External) {α : Type} (h : e.Reply = Except Raised α := by rfl) : Code α :=
  ExceptT.mk (.perform (.ext e) fun r => .pure (cast h r))

/-- Pass a mark. -/
def mark (m : Mark) : Code Unit :=
  ExceptT.mk (.perform (.ext (.mark m)) fun _ => .pure (.ok ()))

/-- `uuid4()`. -/
def uuid4 : Code String :=
  ExceptT.mk (.perform (.ext .uuid4) fun r => .pure (.ok r))

/-- Code that has only computed. -/
def ofExcept {α : Type} (r : Except Raised α) : Code α := ExceptT.mk (.pure r)

/-- What code does, as a value: `try: … except BaseException as e: …`. -/
def attempt {α : Type} (body : Code α) : Code (Except Raised α) :=
  ExceptT.mk (body.run >>= fun r => .pure (.ok r))

/-- `try: … finally: …`. -/
def finally_ {α : Type} (body : Code α) (last : Code Unit) : Code α :=
  ExceptT.mk (body.run >>= fun r => last.run >>= fun
    | .error e => .pure (.error e)
    | .ok () => .pure r)

/-- `try: … except …`, where `f` raises again what it does not catch. -/
def catch_ {α : Type} (body : Code α) (f : Raised → Code α) : Code α :=
  ExceptT.mk (body.run >>= fun
    | .error e => (f e).run
    | .ok a => .pure (.ok a))

end Code

/-- The owners workers acquire leases as: `uuid4().hex` of each. -/
structure Owners where
  name : Nat → String
  distinct : Function.Injective name
  nonempty : ∀ i, name i ≠ ""

/-- A ledger as one execution sees it. -/
abbrev Store := View

namespace Store

variable (store : Store)

def read (branchId key : String) : Code (Step Record) :=
  Code.ledger (.read (store.name branchId) key)

def start (branchId key : String) (token : Int) : Code Bool :=
  Code.ledger (.start (store.name branchId) key token)

def finishEffect (branchId key : String) (value : Option Record) (token : Int) : Code Unit :=
  Code.ledger (.finishEffect (store.name branchId) key value token)

def resolveEffect (branchId key : String) (resolution : EffectResolution Record)
    (workersStopped : Bool) (token : Int) : Code (Step Record) :=
  Code.ledger (.resolveEffect (store.name branchId) key resolution workersStopped token)

def writeControl (branchId key : String) (value : Option Record) (token : Int) : Code Unit :=
  Code.ledger (.writeControl (store.name branchId) key value token)

def forget (branchId key : String) (token : Int) : Code Unit :=
  Code.ledger (.forget (store.name branchId) key token)

def acquire (branchId owner : String) (ttlSeconds : ℚ) : Code Int :=
  Code.ledger (.acquire (store.name branchId) owner ttlSeconds)

def release (branchId owner : String) : Code Unit :=
  Code.ledger (.release (store.name branchId) owner)

def enqueueInput (branchId inputId : String) (value : Record) : Code Bool :=
  Code.ledger (.enqueueInput (store.name branchId) inputId value)

def listInputs (branchId : String) : Code (List (InputRecord Record)) :=
  Code.ledger (.listInputs (store.name branchId))

def claimInput (branchId inputId : String) (token : Int) : Code Unit :=
  Code.ledger (.claimInput (store.name branchId) inputId token)

def admitInputs (branchId : String) (inputIds : List String) (token : Int) : Code Unit :=
  Code.ledger (.admitInputs (store.name branchId) inputIds token)

def discardInputs (branchId : String) (inputIds : List String) (token : Int) : Code Unit :=
  Code.ledger (.discardInputs (store.name branchId) inputIds token)

def commitTransition (branchId : String) (transition : ExecutionTransition Record)
    (token : Int) : Code (List String) :=
  Code.ledger (.commitTransition (store.name branchId) transition token)

end Store

end Semora
