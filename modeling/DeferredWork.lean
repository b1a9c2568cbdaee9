import DeferredWork.Batch
import DeferredWork.Cluster.Basic
import DeferredWork.Cluster.Fleet
import DeferredWork.Cluster.Run
import DeferredWork.Cluster.Session
import DeferredWork.Engine.Acquisition
import DeferredWork.Engine.Backpressure
import DeferredWork.Engine.Basic
import DeferredWork.Engine.Execution
import DeferredWork.Engine.GuardedPool
import DeferredWork.Engine.Idle
import DeferredWork.Engine.Metrics
import DeferredWork.Engine.Pacing
import DeferredWork.Engine.Pool
import DeferredWork.Engine.Routine
import DeferredWork.Engine.Tokens
import DeferredWork.Handler
import DeferredWork.Identifier
import DeferredWork.Interaction
import DeferredWork.Job.Basic
import DeferredWork.Job.Draft
import DeferredWork.Job.Incident
import DeferredWork.Job.Order
import DeferredWork.Job.Record
import DeferredWork.Json.Basic
import DeferredWork.Json.Number
import DeferredWork.Json.Pretty
import DeferredWork.Json.Reader
import DeferredWork.Json.Record
import DeferredWork.Json.Traverse
import DeferredWork.LogFormat
import DeferredWork.Main
import DeferredWork.Operator
import DeferredWork.Rehearsal.Script
import DeferredWork.Rehearsal.Stage
import DeferredWork.Retry.Failure
import DeferredWork.Retry.Policy
import DeferredWork.Settings.Basic
import DeferredWork.Settings.Node
import DeferredWork.Settings.Record
import DeferredWork.Settings.Variables
import DeferredWork.Store.Basic
import DeferredWork.Store.Overlay
import DeferredWork.Store.Query
import DeferredWork.Store.Report
import DeferredWork.Store.Table
import DeferredWork.Store.View
import DeferredWork.Store.Write
import DeferredWork.Text.Blank
import DeferredWork.Text.Digits
import DeferredWork.Text.Quoted
import DeferredWork.Time.Calendar
import DeferredWork.Time.Duration
import DeferredWork.Time.Instant
import DeferredWork.Time.Timestamp
import DeferredWork.Transaction.Body
import DeferredWork.Transaction.Commit
import DeferredWork.Transaction.Error
import DeferredWork.Proofs.Store.Serial
import DeferredWork.Proofs.Store.Batch
import DeferredWork.Proofs.Store.Revision
import DeferredWork.Proofs.Store.Staleness
import DeferredWork.Proofs.Store.Polling
import DeferredWork.Proofs.Store.IncidentHistory
import DeferredWork.Proofs.Store.Independence
import DeferredWork.Proofs.Operator.Amending
import DeferredWork.Proofs.Pool.Accounting
import DeferredWork.Proofs.Batch.Chain
import DeferredWork.Proofs.Routine.Runs
import DeferredWork.Proofs.Transaction.Service
import DeferredWork.Proofs.Transaction.LostUpdate
import DeferredWork.Proofs.Transaction.Conduct
import DeferredWork.Proofs.Transaction.Contention
import DeferredWork.Proofs.Cluster.Traffic
import DeferredWork.Proofs.Cluster.Exclusivity
import DeferredWork.Proofs.Fleet.Dispatching
import DeferredWork.Proofs.Fleet.Endings
import DeferredWork.Proofs.Fleet.Leases
import DeferredWork.Proofs.Fleet.Overlap
import DeferredWork.Proofs.Shift.Incidents
import DeferredWork.Proofs.Fleet.Retries
import DeferredWork.Proofs.Fleet.Recurrence
import DeferredWork.Proofs.Fleet.Suspension
import DeferredWork.Proofs.Shift.Tokens
import DeferredWork.Proofs.Fleet.Liveness
import DeferredWork.Proofs.Job.Record
import DeferredWork.Proofs.Store.Ranking
import DeferredWork.Proofs.Engine.Accounting
import DeferredWork.Proofs.Shift.Admission
import DeferredWork.Proofs.Handler.Precedence
import DeferredWork.Proofs.Pressure.Recovery
import DeferredWork.Proofs.Engine.Idle
import DeferredWork.Proofs.Retry.Cap
import DeferredWork.Proofs.Settings.Variables
import DeferredWork.Proofs.Settings.Locking
