import JobWorker.Base.Table
import JobWorker.Base.Grouping
import JobWorker.Base.Aggregation
import JobWorker.Base.Backoff
import JobWorker.Base.Reachability
import JobWorker.Base.Fuel
import JobWorker.Base.Runs
import JobWorker.Base.RestartBudget
import JobWorker.Base.IsoFormat
import JobWorker.Base.TextsFromEnd
import JobWorker.Base.Slices
import JobWorker.Base.Reentry
import JobWorker.Base.CallTree
import JobWorker.Models.Job
import JobWorker.Models.Store
import JobWorker.Models.Cascade
import JobWorker.Models.QueueJob
import JobWorker.Models.Cancel
import JobWorker.Models.GarbageCollection
import JobWorker.Models.JobSerialization
import JobWorker.Models.PayloadRoundTrip
import JobWorker.Models.PythonText
import JobWorker.Models.IdentityExact
import JobWorker.Cli.Worker
import JobWorker.Cli.MainLoop
import JobWorker.Cli.RegistryLoad
import JobWorker.Cli.Runner
import JobWorker.Cli.FleetHealth
import JobWorker.Cascades.Failure
import JobWorker.Cascades.WorkerDied
import JobWorker.Cascades.Success
import JobWorker.Cascades.ManualCompletion
import JobWorker.Cascades.Cancellation
import JobWorker.Cascades.Rows
import JobWorker.Cascades.Stamps
import JobWorker.System
import JobWorker.RowEffects
import JobWorker.History
import JobWorker.Transactions
import JobWorker.Process
import JobWorker.Runs.UpgradeGate
import JobWorker.Runs.PoolAccounting
import JobWorker.Runs.StallWatchdog
import JobWorker.Runs.DatabaseErrors
import JobWorker.Runs.DegradedSignal
import JobWorker.Runs.StreakRecovery
import JobWorker.Runs.RegistryChecks
import JobWorker.Runs.Quarantine
import JobWorker.Runs.PrematureRelease
import JobWorker.Runs.LostClaims
import JobWorker.Runs.CompleteDrain
import JobWorker.Split
import JobWorker.DelayEffects
import JobWorker.DelayLog
import JobWorker.Runs.GroupBarriers
import JobWorker.Runs.OutcomeStatements
import JobWorker.Runs.ConcurrentEnqueue
import JobWorker.Runs.MutualExclusion
import JobWorker.Runs.AttemptFencing
import JobWorker.Runs.ChannelLimits
import JobWorker.Runs.BoundedAttempts
import JobWorker.Runs.FailureRecording
import JobWorker.Runs.IdentityKeys
import JobWorker.Runs.WorkerRuns
import JobWorker.Runs.CommittedAttempts
import JobWorker.Runs.StaleBackstop
import JobWorker.Runs.TerminalStamps
import JobWorker.Runs.Releases
import JobWorker.Graphs.Forest
import JobWorker.Graphs.Compilation
import JobWorker.Graphs.Order
import JobWorker.Graphs.EmptySchedulers
import JobWorker.Graphs.HandlerChains
import JobWorker.Graphs.Sharing
import JobWorker.Graphs.Walks
import JobWorker.Graphs.SharedCallbacks
import JobWorker.Graphs.WithoutDelay
import JobWorker.Graphs.Submissions
import JobWorker.Graphs.SplitJobs
import JobWorker.DelayTree
import JobWorker.Graphs.DelayCalls
import JobWorker.Graphs.Recursion
import JobWorker.Runs.TimeoutPacing
import JobWorker.Runs.BackoffCurve
import JobWorker.Runs.TimedOutAttempts
import JobWorker.Runs.AdvisoryLock
import JobWorker.Cli.ThreadTarget
import JobWorker.Runs.Watchdog
import JobWorker.Cli.UpgradeGate
import JobWorker.Runs.GateBookkeeping
import JobWorker.Monitor.QueueJobMetric
import JobWorker.Monitor.Snapshots
import JobWorker.Monitor.Totals
import JobWorker.Monitor.Rollups
import JobWorker.Cli.Discovery
import JobWorker.Runs.FailedProbes
import JobWorker.Runs.Stranding
import JobWorker.Base.AtomicReplace
import JobWorker.Cli.Heartbeat
import JobWorker.Base.Spacing
import JobWorker.Monitor.AlertRules
import JobWorker.Base.WakeUps
import JobWorker.Runs.WakeUps
import JobWorker.Runs.GatedThread
import JobWorker.Base.Turns
import JobWorker.Base.Selection
import JobWorker.Runs.Overtaking
import JobWorker.Base.Tokens
import JobWorker.Runs.Completions
import JobWorker.Runs.StallDiagnosis
import JobWorker.Base.UniqueColumn
import JobWorker.Runs.Lookups
import JobWorker.Runs.Retention
import JobWorker.Cascades.Blame
import JobWorker.Runs.FailureRoots
import JobWorker.Models.Calls
import JobWorker.Runs.DelayedCalls
