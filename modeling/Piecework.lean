import Piecework.Broker.Run
import Piecework.Http.Api
import Piecework.Infix.Fault
import Piecework.Infix.Grammar
import Piecework.Main
import Piecework.Program.Value
import Piecework.Program.Window
import Piecework.Queue.Run
import Piecework.Timeline.Run
import Piecework.Timeline.Work
import Piecework.Worker.Run
import Piecework.Proofs.Program
import Piecework.Proofs.Cut
import Piecework.Proofs.Pass
import Piecework.Proofs.Reduction
import Piecework.Proofs.Recording
import Piecework.Proofs.Windows
import Piecework.Proofs.Rewriting
import Piecework.Proofs.PassOutcome
import Piecework.Proofs.PassValue
import Piecework.Proofs.Queue
import Piecework.Proofs.QueueRun
import Piecework.Proofs.Table
import Piecework.Proofs.Share
import Piecework.Proofs.SharePass
import Piecework.Proofs.TimeOut
import Piecework.Proofs.Submit
import Piecework.Proofs.Report
import Piecework.Proofs.Change
import Piecework.Proofs.Infix.Lexemes
import Piecework.Proofs.Infix.Phrases
import Piecework.Proofs.Infix.Output
import Piecework.Proofs.Infix.Inventory
import Piecework.Proofs.Infix.Faults
import Piecework.Proofs.Consistency
import Piecework.Proofs.Reachable
import Piecework.Proofs.Offers
import Piecework.Proofs.Accounting
import Piecework.Proofs.Denotation
import Piecework.Proofs.Outcome
import Piecework.Proofs.Acceptance
import Piecework.Proofs.LiveClaims
import Piecework.Proofs.Watchdogs
import Piecework.Proofs.Counters
import Piecework.Proofs.Balance
import Piecework.Proofs.Firing
import Piecework.Proofs.Workload
import Piecework.Proofs.Drain
import Piecework.Proofs.QueueHistory
import Piecework.Proofs.Ledger
import Piecework.Proofs.Retirement
import Piecework.Proofs.Decimal
import Piecework.Proofs.Infix.Sentences
import Piecework.Proofs.Admission
import Piecework.Proofs.Conservation
import Piecework.Proofs.Persistence
import Piecework.Proofs.Retention
import Piecework.Proofs.Isolation
import Piecework.Proofs.Answers
import Piecework.Proofs.Infix.Subtrees
import Piecework.Proofs.Failure
import Piecework.Proofs.VirtualTime
import Piecework.Proofs.Deadlines
import Piecework.Proofs.Crew
import Piecework.Proofs.TaskCosts
import Piecework.Proofs.Fates
import Piecework.Proofs.Schedule
import Piecework.Proofs.InHand
import Piecework.Proofs.Promptness
import Piecework.Proofs.Spelling
import Piecework.Proofs.Json.Scalars
import Piecework.Proofs.Json.Documents
import Piecework.Proofs.Wire
import Piecework.Proofs.Http.Requests
import Piecework.Program.Language
import Piecework.Proofs.Runs
import Piecework.Proofs.Language
import Piecework.Proofs.Infix.Operands
import Piecework.Proofs.Removal
import Piecework.Proofs.Shutdown
import Piecework.Proofs.Depth
import Piecework.Proofs.Infix.Stack
import Piecework.Proofs.PromptRun
