import JobWorker.Base.Aggregation
import JobWorker.Base.Grouping
import JobWorker.Base.Runs
import JobWorker.Models.GarbageCollection
import Mathlib.Data.Rat.Floor

/-!
# Metric snapshots

`queue.job.metric` with its 5-minute snapshots and its rollups,
`job_worker_monitor/models/queue_job_metric.py:9–238`. Averages and durations are exact, in
seconds.
-/

namespace JobWorker

open Relational

/-- `period`; `models/queue_job_metric.py:24–33`. -/
inductive MetricPeriod
  | fiveMinutes
  | hour
  | day
  deriving DecidableEq, Repr

/-- The values of a metric row; `models/queue_job_metric.py:34–39`. -/
structure MetricValues where
  jobsCompleted : Nat := 0
  jobsFailed : Nat := 0
  averageDuration : ℚ := 0
  p95Duration : ℚ := 0
  queueDepth : Nat := 0
  activeWorkers : Nat := 0
  deriving DecidableEq

/-- One row of `queue_job_metric`. -/
structure QueueJobMetric extends MetricValues where
  snapshotAt : Time
  channel : String
  period : MetricPeriod
  deriving DecidableEq

/-! ### Snapshots -/

/-- `COALESCE(channel, 'root')`. -/
def Job.channelLabel (channel : Option String) : String := channel.getD "root"

/-- The row is of the last five minutes; `models/queue_job_metric.py:47–48,70`. -/
def Job.completedInWindow (r : Job) (now : Time) : Bool :=
  r.completedAt.any fun completedAt ↦ decide (now - 300 * second ≤ completedAt ∧ completedAt ≤ now)

/-- `state IN ('pending', 'waiting', 'started')`; `models/queue_job_metric.py:96`. -/
def Job.isLive (r : Job) : Bool := r.state == .pending || r.state == .waiting || r.state == .started

/-- The row counts for the queue depth; `models/queue_job_metric.py:90`. -/
def Job.isQueued (r : Job) : Bool := r.state == .pending || r.state == .waiting

/-- A row of the first query; `models/queue_job_metric.py:56–68`. -/
structure CompletedStats where
  completed : Nat
  failed : Nat
  averageDuration : ℚ
  p95Duration : ℚ
  deriving DecidableEq

/-- A row of the second query; `models/queue_job_metric.py:88–94`. -/
structure LiveStats where
  queueDepth : Nat
  activeWorkers : Nat
  deriving DecidableEq

/-- `AVG`, with 0 for no values. -/
def average (values : List ℚ) : ℚ := values.sum / values.length

/-- `PERCENTILE_CONT(p)`, interpolated between two values, with 0 for no values. -/
def percentileCont (p : ℚ) (values : List ℚ) : ℚ :=
  let sorted := values.mergeSort fun a b ↦ decide (a ≤ b)
  let row := p * ((values.length : ℚ) - 1)
  let lower := sorted.getD row.floor.toNat 0
  let upper := sorted.getD row.ceil.toNat 0
  lower + (row - row.floor) * (upper - lower)

/-- The durations that the first query averages, in seconds;
`models/queue_job_metric.py:61,65–66`. -/
def doneDurations (rows : List Job) : List ℚ :=
  rows.filterMap fun r ↦
    if r.state = .done then
      (r.duration.filter fun duration ↦ decide (0 < duration)).map fun duration ↦
        (duration : ℚ) / (second : ℚ)
    else none

/-- The aggregates of the first query over one group. -/
def completedAggregates (rows : List Job) : CompletedStats where
  completed := rows.countP (·.state == .done)
  failed := rows.countP (·.state == .failed)
  averageDuration := average (doneDurations rows)
  p95Duration := percentileCont (95 / 100) (doneDurations rows)

/-- The aggregates of the second query over one group, with `NOW()` of the transaction. -/
def liveAggregates (transactionNow : Time) (rows : List Job) : LiveStats where
  queueDepth := rows.countP Job.isQueued
  activeWorkers := ((rows.filter fun r ↦ r.state == .started && r.heartbeat.any fun heartbeat ↦
    decide (transactionNow - 60 * second < heartbeat)).filterMap Job.workerId).dedup.length

/-- The rows of the first query, with the groups in `order`;
`models/queue_job_metric.py:54–83`. -/
def completedStats (now : Time) (jobs : List Job) (order : List (Option String)) :
    List (String × CompletedStats) :=
  let rows := jobs.filter (·.completedInWindow now)
  order.map fun channel ↦
    (Job.channelLabel channel, completedAggregates (group Job.channel rows channel))

/-- The rows of the second query, with the groups in `order`;
`models/queue_job_metric.py:85–103`. -/
def liveStats (transactionNow : Time) (jobs : List Job) (order : List (Option String)) :
    List (String × LiveStats) :=
  let rows := jobs.filter Job.isLive
  order.map fun channel ↦
    (Job.channelLabel channel, liveAggregates transactionNow (group Job.channel rows channel))

/-- The row for one channel; `models/queue_job_metric.py:109–123`. -/
def snapshotRow (now : Time) (channel : String) (cs : Option CompletedStats)
    (ls : Option LiveStats) : QueueJobMetric where
  snapshotAt := now
  channel := channel
  period := .fiveMinutes
  jobsCompleted := cs.elim 0 CompletedStats.completed
  jobsFailed := cs.elim 0 CompletedStats.failed
  averageDuration := cs.elim 0 CompletedStats.averageDuration
  p95Duration := cs.elim 0 CompletedStats.p95Duration
  queueDepth := ls.elim 0 LiveStats.queueDepth
  activeWorkers := ls.elim 0 LiveStats.activeWorkers

/-- The rows that `_collect_5min_snapshot` creates, from the groups of both queries in their
orders; `models/queue_job_metric.py:41–129`. -/
def collect5minSnapshot (now transactionNow : Time) (jobs : List Job)
    (completedOrder liveOrder : List (Option String)) : List QueueJobMetric :=
  let completed := completedStats now jobs completedOrder
  let live := liveStats transactionNow jobs liveOrder
  let allChannels := (dictKeys completed ++ dictKeys live).dedup
  allChannels.map fun channel ↦
    snapshotRow now channel (dictGet completed channel) (dictGet live channel)

/-! ### Rollups -/

/-- `timedelta(hours=1)`. -/
def hour : Time := 3600 * second

/-- `now.replace(minute=0, second=0, microsecond=0)`. -/
def startOfHour (now : Time) : Time := now - now % hour

/-- `now.replace(hour=0, minute=0, second=0, microsecond=0)`. -/
def startOfDay (now : Time) : Time := now - now % day

namespace QueueJobMetric

/-- The aggregates of both rollups over one group, with `int` of the average queue depth;
`models/queue_job_metric.py:145–155,200–209`. -/
def rollupValues (rows : List QueueJobMetric) : MetricValues where
  jobsCompleted := (rows.map fun m ↦ m.jobsCompleted).sum
  jobsFailed := (rows.map fun m ↦ m.jobsFailed).sum
  averageDuration :=
    if 0 < (rows.map fun m ↦ m.jobsCompleted).sum then
      (rows.map fun m ↦ m.averageDuration * (m.jobsCompleted : ℚ)).sum /
        ((rows.map fun m ↦ m.jobsCompleted).sum : Nat)
    else 0
  p95Duration := greatest (fun m ↦ m.p95Duration) rows
  queueDepth := (rows.map fun m ↦ m.queueDepth).sum / rows.length
  activeWorkers := greatest (fun m ↦ m.activeWorkers) rows

/-- The rows of one period in a half-open window; `models/queue_job_metric.py:156–158,210–212`. -/
def selectWindow (period : MetricPeriod) (windowStart windowEnd : Time)
    (metrics : List QueueJobMetric) : List QueueJobMetric :=
  metrics.filter fun m ↦
    decide (m.period = period ∧ windowStart ≤ m.snapshotAt ∧ m.snapshotAt < windowEnd)

/-- The row for one group; `models/queue_job_metric.py:165–178,219–232`. -/
def rollupRow (target : MetricPeriod) (label : Time) (rows : List QueueJobMetric)
    (channel : String) : QueueJobMetric :=
  { rollupValues (group QueueJobMetric.channel rows channel) with
    snapshotAt := label
    channel := channel
    period := target }

/-- The rows that a rollup creates, labelled with the end of the window;
`models/queue_job_metric.py:142–180,197–234`. -/
def rollup (source target : MetricPeriod) (windowStart label : Time)
    (metrics : List QueueJobMetric) : List QueueJobMetric :=
  let rows := selectWindow source windowStart label metrics
  (rows.map QueueJobMetric.channel).dedup.map (rollupRow target label rows)

/-- `search([("period", "=", period), ("snapshot_at", "<", cutoff)]).unlink()`. -/
def unlinkBefore (period : MetricPeriod) (cutoff : Time) (metrics : List QueueJobMetric) :
    List QueueJobMetric :=
  metrics.filter fun m ↦ !decide (m.period = period ∧ m.snapshotAt < cutoff)

/-- `_rollup_hourly` over the table; `models/queue_job_metric.py:131–184`. -/
def rollupHourly (now : Time) (metrics : List QueueJobMetric) : List QueueJobMetric :=
  let hourStart := startOfHour (datetimeNow now)
  let created := rollup .fiveMinutes .hour (hourStart - hour) hourStart metrics
  unlinkBefore .fiveMinutes (datetimeNow now - 7 * day) (created ++ metrics)

/-- `_rollup_daily` over the table; `models/queue_job_metric.py:186–238`. -/
def rollupDaily (now : Time) (metrics : List QueueJobMetric) : List QueueJobMetric :=
  let dayStart := startOfDay (datetimeNow now)
  let created := rollup .hour .day (dayStart - day) dayStart metrics
  unlinkBefore .hour (datetimeNow now - 90 * day) (created ++ metrics)

end QueueJobMetric

/-- The table `queue_job_metric` at some reading of the clock. -/
structure MetricStore where
  now : Time
  metrics : List QueueJobMetric := []

/-- What happens to the table: time passes, 5-minute rows come in, or a rollup runs. -/
inductive MetricAction
  | elapse (d : Nat)
  | collect (rows : List (String × MetricValues))
  | rollupHourly
  | rollupDaily
  deriving DecidableEq

/-- The 5-minute rows of one collection. -/
def fiveMinuteRows (now : Time) (rows : List (String × MetricValues)) : List QueueJobMetric :=
  rows.map fun r ↦
    { r.2 with snapshotAt := datetimeNow now, channel := r.1, period := .fiveMinutes }

/-- A snapshot is one collection. -/
theorem collect5minSnapshot_eq (now transactionNow : Time) (jobs : List Job)
    (completedOrder liveOrder : List (Option String)) :
    ∃ rows, collect5minSnapshot (datetimeNow now) transactionNow jobs completedOrder liveOrder =
      fiveMinuteRows now rows := by
  let completed := completedStats (datetimeNow now) jobs completedOrder
  let live := liveStats transactionNow jobs liveOrder
  use (dictKeys completed ++ dictKeys live).dedup.map fun channel ↦
    (channel, (snapshotRow (datetimeNow now) channel (dictGet completed channel)
      (dictGet live channel)).toMetricValues)
  simp only [collect5minSnapshot, fiveMinuteRows, List.map_map]
  rfl

/-- One action on the table. -/
def MetricStore.next (s : MetricStore) : MetricAction → MetricStore
  | .elapse d => { s with now := s.now + d }
  | .collect rows => { s with metrics := fiveMinuteRows s.now rows ++ s.metrics }
  | .rollupHourly => { s with metrics := QueueJobMetric.rollupHourly s.now s.metrics }
  | .rollupDaily => { s with metrics := QueueJobMetric.rollupDaily s.now s.metrics }

/-- Runs of the scheduled actions from an empty table. -/
abbrev MetricRun : List (MetricStore × MetricAction) → MetricStore → Prop :=
  Transition.Run (fun s ↦ ∃ now : Time, s = { now }) fun s a s' ↦ s.next a = s'

end JobWorker
