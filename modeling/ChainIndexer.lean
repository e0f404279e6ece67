import ChainIndexer.Binary64
import ChainIndexer.Binary64.Shortest
import ChainIndexer.Checkpoint
import ChainIndexer.Checkpoint.Record
import ChainIndexer.Config
import ChainIndexer.Config.Load
import ChainIndexer.Config.Render
import ChainIndexer.Config.Section
import ChainIndexer.Config.Validate
import ChainIndexer.Constraint
import ChainIndexer.Data
import ChainIndexer.Data.Json
import ChainIndexer.Data.Toml
import ChainIndexer.Data.Toml.Scalar
import ChainIndexer.Data.Toml.Text
import ChainIndexer.Data.Toml.Tree
import ChainIndexer.Duration
import ChainIndexer.Error.Class
import ChainIndexer.Error.Job
import ChainIndexer.Error.Planning
import ChainIndexer.Error.Storage
import ChainIndexer.Fanout
import ChainIndexer.Identifier
import ChainIndexer.Int64Range
import ChainIndexer.Job.Health
import ChainIndexer.Job.Incremental
import ChainIndexer.Job.Migration
import ChainIndexer.Job.NextWindow
import ChainIndexer.Job.Outcome
import ChainIndexer.Job.PartitionUpkeep
import ChainIndexer.Job.Program
import ChainIndexer.Job.Reconciliation
import ChainIndexer.Job.Rehearsal
import ChainIndexer.Job.Roster
import ChainIndexer.Job.Summary
import ChainIndexer.Job.Template
import ChainIndexer.Job.World
import ChainIndexer.Main
import ChainIndexer.Memory.Database
import ChainIndexer.Memory.Dump
import ChainIndexer.Memory.Engine
import ChainIndexer.Memory.Table
import ChainIndexer.OrderedMap
import ChainIndexer.Partition
import ChainIndexer.Partition.Bound
import ChainIndexer.Postgres.Connect
import ChainIndexer.Postgres.ConnectionText
import ChainIndexer.Postgres.Record
import ChainIndexer.Postgres.Row
import ChainIndexer.Postgres.Server
import ChainIndexer.Postgres.Session
import ChainIndexer.Postgres.Store
import ChainIndexer.Proofs.Interleaving.Shared
import ChainIndexer.Proofs.Interleaving.Site
import ChainIndexer.Proofs.OrderedMap
import ChainIndexer.Proofs.Program
import ChainIndexer.Proofs.Transaction
import ChainIndexer.Rate
import ChainIndexer.Rate.Cache
import ChainIndexer.Records
import ChainIndexer.Schedule.Metrics
import ChainIndexer.Schedule.Registry
import ChainIndexer.Schedule.Rehearsal
import ChainIndexer.Schedule.Scheduler
import ChainIndexer.Schedule.Ticker
import ChainIndexer.Statement
import ChainIndexer.Store.Access
import ChainIndexer.Text.Blank
import ChainIndexer.Text.Integer
import ChainIndexer.Timestamp
import ChainIndexer.Window
import ChainIndexer.Proofs.Interleaving.Rely
import ChainIndexer.Proofs.Interleaving.UnitOfWork
import ChainIndexer.Proofs.Interleaving.Assertion
import ChainIndexer.Proofs.Job.NextWindow
import ChainIndexer.Proofs.Memory.Frame
import ChainIndexer.Proofs.Interleaving.Record
import ChainIndexer.Proofs.Interleaving.Transcript
import ChainIndexer.Proofs.Job.ExactlyOnce
import ChainIndexer.Proofs.Job.DependencySafety
import ChainIndexer.Proofs.Memory.Exchange
import ChainIndexer.Proofs.Job.PartitionUpkeep
import ChainIndexer.Proofs.Migration.Record
import ChainIndexer.Proofs.Migration.LiveCopy
import ChainIndexer.Proofs.Migration.Units
import ChainIndexer.Proofs.Migration.Tick
import ChainIndexer.Proofs.Migration.Cutover
import ChainIndexer.Proofs.Interleaving.Alone
import ChainIndexer.Proofs.Partition
import ChainIndexer.Proofs.Memory.Splice
import ChainIndexer.Proofs.Memory.Swap
import ChainIndexer.Proofs.Migration.Midway
import ChainIndexer.Proofs.Migration.Undisturbed
import ChainIndexer.Proofs.Migration.Attempts
import ChainIndexer.Proofs.Migration.NextId
import ChainIndexer.Proofs.Migration.Handover
import ChainIndexer.Proofs.Job.PartitionGrowth
import ChainIndexer.Proofs.Job.PartitionCourse
import ChainIndexer.Proofs.Memory.Retained
import ChainIndexer.Proofs.Migration.Setup
import ChainIndexer.Proofs.Migration.Resumption
import ChainIndexer.Proofs.Migration.Completion
import ChainIndexer.Proofs.Config
import ChainIndexer.Proofs.Roster
import ChainIndexer.Proofs.Interleaving.Saves
import ChainIndexer.Proofs.Constraint
import ChainIndexer.Proofs.Job.Reconciliation
import ChainIndexer.Proofs.Memory.Parted
import ChainIndexer.Proofs.Job.ConstraintCourse
import ChainIndexer.Proofs.Interleaving.Pact
import ChainIndexer.Proofs.Job.Unobtrusive
import ChainIndexer.Proofs.Rate
import ChainIndexer.Proofs.Job.PlanningErrors
import ChainIndexer.Proofs.Schedule.Desk
import ChainIndexer.Proofs.Schedule.Removal
import ChainIndexer.Proofs.Schedule.Retry
import ChainIndexer.Proofs.Schedule.SingleFlight
import ChainIndexer.Proofs.Schedule.Stalled
import ChainIndexer.Proofs.Schedule.Isolation
import ChainIndexer.Proofs.Memory.Routing
import ChainIndexer.Proofs.Postgres.Course
import ChainIndexer.Proofs.Postgres.Dialogue
import ChainIndexer.Proofs.Postgres.Pool
import ChainIndexer.Proofs.Job.PartitionCover
import ChainIndexer.Proofs.Migration.Standstill
import ChainIndexer.Proofs.Job.Turn
import ChainIndexer.Proofs.Job.CatchUp
import ChainIndexer.Proofs.Schedule.Timed
import ChainIndexer.Proofs.Schedule.Pace
import ChainIndexer.Proofs.Fanout.Crew
import ChainIndexer.Proofs.Fanout.Prompt
import ChainIndexer.Proofs.Fanout.Stream
import ChainIndexer.Proofs.Fanout.Team
import ChainIndexer.Proofs.Interleaving.Tending
import ChainIndexer.Proofs.Interleaving.Ledger
import ChainIndexer.Proofs.Interleaving.Upkeep
import ChainIndexer.Proofs.Interleaving.Accomplished
import ChainIndexer.Proofs.Memory.CheckNames
import ChainIndexer.Proofs.Job.Errand
import ChainIndexer.Proofs.Job.Convergence
import ChainIndexer.Proofs.Job.TablePass
import ChainIndexer.Proofs.Job.ConstraintRound
import ChainIndexer.Proofs.Window.Largest
import ChainIndexer.Proofs.Partition.Tiling
import ChainIndexer.Proofs.Partition.NextDue
import ChainIndexer.Proofs.Schedule.Halt
import ChainIndexer.Proofs.Schedule.Shutdown
import ChainIndexer.Proofs.Text
import ChainIndexer.Proofs.Text.Utf8
import ChainIndexer.Proofs.Identifier
import ChainIndexer.Proofs.Identifier.Naming
import ChainIndexer.Proofs.Statement.Token
import ChainIndexer.Proofs.Statement.Piece
import ChainIndexer.Proofs.Partition.Bound
import ChainIndexer.Proofs.Postgres.Catalog
import ChainIndexer.Proofs.Postgres.Lookup
import ChainIndexer.Proofs.Memory.Refusal
import ChainIndexer.Proofs.Memory.Alteration
import ChainIndexer.Proofs.Memory.Enforcement
import ChainIndexer.Proofs.Rate.Cache
import ChainIndexer.Proofs.Job.LatestHealth
import ChainIndexer.Proofs.Identifier.Generated
import ChainIndexer.Proofs.Job.GeneratedNames
import ChainIndexer.Proofs.Binary64
import ChainIndexer.Proofs.Rate.Pressure
import ChainIndexer.Proofs.Rate.Plan
import ChainIndexer.Proofs.Partition.Naming
import ChainIndexer.Proofs.Partition.Limits
import ChainIndexer.Proofs.Job.Template
