import Semora.Framework.Dict
import Semora.Framework.Composition
import Semora.Framework.Links
import Semora.Framework.Lists
import Semora.Framework.Json
import Semora.Framework.JsonText
import Semora.Framework.FixedWidth
import Semora.Framework.Machine
import Semora.Framework.Prog
import Semora.Framework.ReadCommitted
import Semora.Framework.Footprints
import Semora.Framework.OneAtATime
import Semora.Framework.TwoPhase
import Semora.Framework.Pool
import Semora.Framework.Sequence
import Semora.Framework.Monitor
import Semora.Framework.Accounts
import Semora.Store.Step
import Semora.Store.MemorySteps
import Semora.Store.Operations
import Semora.Store.Lease
import Semora.Store.Frame
import Semora.Store.Scope
import Semora.Store.Holding
import Semora.Store.Effects
import Semora.Store.Queue
import Semora.Store.QueueHistory
import Semora.Store.Transition
import Semora.Store.Versions
import Semora.Store.RetryAuthority
import Semora.Store.PostgresSteps
import Semora.Store.PostgresFence
import Semora.Store.PostgresRows
import Semora.Store.PostgresLeases
import Semora.Store.PostgresStarts
import Semora.Store.PostgresSerial
import Semora.Store.StoresRelated
import Semora.Store.StoresAgree
import Semora.Store.Refusals
import Semora.Transcript.Stores
import Semora.Transcript.Entries
import Semora.Transcript.Walks
import Semora.Transcript.Written
import Semora.Transcript.Branch
import Semora.Transcript.Writers
import Semora.Transcript.Identity
import Semora.Transcript.Runs
import Semora.Transcript.Records
import Semora.Agent.Messages
import Semora.Agent.Operations
import Semora.Agent.Triples
import Semora.Agent.Transcripts
import Semora.Agent.Journal
import Semora.Agent.JournalOnce
import Semora.Agent.Attempt
import Semora.Agent.Alone
import Semora.Agent.Serial
import Semora.Agent.Watch
import Semora.Agent.Policy
import Semora.Agent.Controls
import Semora.Agent.Boundary
import Semora.Agent.BoundaryOps
import Semora.Agent.Authorization
import Semora.Agent.Runtime
import Semora.Agent.RuntimeOps
import Semora.Agent.Dispatch
import Semora.Agent.Branch
import Semora.Agent.Suspension
import Semora.Agent.BranchAttempt
import Semora.Agent.BranchFinalize
import Semora.Agent.BranchRuns
import Semora.Agent.ToolAgent
import Semora.Agent.Answers
import Semora.Agent.Finalizations
import Semora.Agent.OneInput
import Semora.Agent.ParkedRounds
import Semora.Agent.Projection
import Semora.Agent.ResultEdits
import Semora.Agent.ForkCopy
import Semora.Agent.ForkAttempt
import Semora.Agent.ForkKnowledge
import Semora.Agent.ForkCrash
import Semora.Agent.Verdict
import Semora.Agent.SharedTranscript
import Semora.Agent.Recovery
import Semora.Agent.Tending
import Semora.Agent.UnresolvedEffects
import Semora.Agent.CarriedOnce
import Semora.Framework.CompleteRuns
import Semora.Framework.Erasure
import Semora.Agent.Router
import Semora.Agent.FirstTime
import Semora.Agent.Ids
import Semora.Agent.LedgerHistory
import Semora.Agent.Methods
import Semora.Agent.Invocations
import Semora.Agent.Leases
