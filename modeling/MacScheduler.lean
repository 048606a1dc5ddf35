import MacScheduler.Buffer.Bearer
import MacScheduler.Buffer.Channels
import MacScheduler.Cell.Params
import MacScheduler.Clock.Tti
import MacScheduler.Config.Basic
import MacScheduler.Config.Check
import MacScheduler.Config.Codec
import MacScheduler.Config.Load
import MacScheduler.Control.Dci
import MacScheduler.Control.Region
import MacScheduler.Control.SearchSpace
import MacScheduler.Count
import MacScheduler.Document.Decimal
import MacScheduler.Document.EnvText
import MacScheduler.Document.Json
import MacScheduler.Document.Toml
import MacScheduler.Document.Value
import MacScheduler.Error
import MacScheduler.Grid.Bits
import MacScheduler.Grid.Prb
import MacScheduler.Grid.Rbg
import MacScheduler.Harq.Block
import MacScheduler.Harq.Process
import MacScheduler.Harq.Table
import MacScheduler.Link.Adaptation
import MacScheduler.Link.Direction
import MacScheduler.LogFormat
import MacScheduler.Policy.Basic
import MacScheduler.Policy.Candidate
import MacScheduler.Proofs.Buffer.Bearers
import MacScheduler.Proofs.Buffer.Elements
import MacScheduler.Proofs.Buffer.Failures
import MacScheduler.Proofs.Buffer.Fill
import MacScheduler.Proofs.Buffer.Progress
import MacScheduler.Proofs.Clock.Order
import MacScheduler.Proofs.Clock.Tti
import MacScheduler.Proofs.Config.Check
import MacScheduler.Proofs.Config.Layers
import MacScheduler.Proofs.Config.Leaves
import MacScheduler.Proofs.Config.RoundTrip
import MacScheduler.Proofs.Control.Candidates
import MacScheduler.Proofs.Control.Region
import MacScheduler.Proofs.Control.SearchSpace
import MacScheduler.Proofs.Control.Use
import MacScheduler.Proofs.Document.Merge
import MacScheduler.Proofs.Document.Tidy
import MacScheduler.Proofs.Grid.Coverage
import MacScheduler.Proofs.Grid.Prb
import MacScheduler.Proofs.Grid.Rbg
import MacScheduler.Proofs.Grid.Search
import MacScheduler.Proofs.Harq.Answer
import MacScheduler.Proofs.Harq.Chain
import MacScheduler.Proofs.Harq.Elapsed
import MacScheduler.Proofs.Harq.History
import MacScheduler.Proofs.Harq.Ledger
import MacScheduler.Proofs.Harq.Process
import MacScheduler.Proofs.Harq.Repeat
import MacScheduler.Proofs.Harq.Run
import MacScheduler.Proofs.Harq.Schemes
import MacScheduler.Proofs.Harq.Steady
import MacScheduler.Proofs.Harq.Table
import MacScheduler.Proofs.Harq.Timeline
import MacScheduler.Proofs.Harq.Timing
import MacScheduler.Proofs.Harq.Transmissions
import MacScheduler.Proofs.Harq.Wane
import MacScheduler.Proofs.Policy.Rotation
import MacScheduler.Proofs.Pucch.Index
import MacScheduler.Proofs.Pucch.Pool
import MacScheduler.Proofs.Scheduler.Attached
import MacScheduler.Proofs.Scheduler.Attribution
import MacScheduler.Proofs.Scheduler.Backlog
import MacScheduler.Proofs.Scheduler.Bandwidth
import MacScheduler.Proofs.Scheduler.Delivery
import MacScheduler.Proofs.Scheduler.Edits
import MacScheduler.Proofs.Scheduler.Executions
import MacScheduler.Proofs.Scheduler.Fulfil
import MacScheduler.Proofs.Scheduler.Index
import MacScheduler.Proofs.Scheduler.Keep
import MacScheduler.Proofs.Scheduler.Leases
import MacScheduler.Proofs.Scheduler.Pass
import MacScheduler.Proofs.Scheduler.Plan
import MacScheduler.Proofs.Scheduler.Reachable
import MacScheduler.Proofs.Scheduler.Refusal
import MacScheduler.Proofs.Scheduler.Retransmissions
import MacScheduler.Proofs.Scheduler.Rounds
import MacScheduler.Proofs.Scheduler.Sweeps
import MacScheduler.Proofs.Scheduler.Timeline
import MacScheduler.Proofs.Scheduler.Traffic
import MacScheduler.Proofs.Subframe.Commit
import MacScheduler.Proofs.Subframe.Conserve
import MacScheduler.Proofs.Subframe.Exclusive
import MacScheduler.Proofs.Subframe.Hold
import MacScheduler.Proofs.Subframe.Keep
import MacScheduler.Proofs.Subframe.LeftOut
import MacScheduler.Proofs.Subframe.Outcome
import MacScheduler.Proofs.Subframe.Place
import MacScheduler.Proofs.Subframe.Precedence
import MacScheduler.Proofs.Subframe.Relocation
import MacScheduler.Proofs.Subframe.Settle
import MacScheduler.Proofs.Terminal.Activation
import MacScheduler.Proofs.Terminal.Adaptation
import MacScheduler.Proofs.Terminal.Announced
import MacScheduler.Proofs.Terminal.Boundary
import MacScheduler.Proofs.Terminal.Change
import MacScheduler.Proofs.Terminal.Command
import MacScheduler.Proofs.Terminal.Commit
import MacScheduler.Proofs.Terminal.Configure
import MacScheduler.Proofs.Terminal.Counted
import MacScheduler.Proofs.Terminal.Elements
import MacScheduler.Proofs.Terminal.Failures
import MacScheduler.Proofs.Terminal.Formed
import MacScheduler.Proofs.Terminal.Freshness
import MacScheduler.Proofs.Terminal.Leases
import MacScheduler.Proofs.Terminal.Limits
import MacScheduler.Proofs.Terminal.Mirror
import MacScheduler.Proofs.Terminal.Obedience
import MacScheduler.Proofs.Terminal.Periods
import MacScheduler.Proofs.Terminal.Ready
import MacScheduler.Proofs.Terminal.Refusal
import MacScheduler.Proofs.Terminal.RefusedGrant
import MacScheduler.Proofs.Terminal.Request
import MacScheduler.Proofs.Terminal.Roster
import MacScheduler.Proofs.Terminal.Run
import MacScheduler.Proofs.Terminal.Send
import MacScheduler.Proofs.Terminal.Service
import MacScheduler.Proofs.Terminal.Sides
import MacScheduler.Proofs.Terminal.Sizing
import MacScheduler.Proofs.Terminal.Snapshot
import MacScheduler.Proofs.Terminal.Standing
import MacScheduler.Pucch.Pool
import MacScheduler.Scheduler
import MacScheduler.Subframe.Pass
import MacScheduler.Subframe.Plan
import MacScheduler.Terminal.Action
import MacScheduler.Terminal.Basic
import MacScheduler.Terminal.Commit
import MacScheduler.Terminal.Config
import MacScheduler.Terminal.Grant
import MacScheduler.Terminal.Link
import MacScheduler.Terminal.Metrics
import MacScheduler.Terminal.Report
import MacScheduler.Terminal.Roster
import MacScheduler.Terminal.Snapshot
