import JobWorker.Cli.MainLoop
import JobWorker.Cli.Runner

/-!
# The degraded signal

What `QueueWorker` and `UpgradeGate` say of their health, and the signal that the supervisor
makes of it, `job_worker/cli/worker.py:411–423`, `job_worker/cli/upgrade_gate.py:227–237`,
`job_worker/cli/runner.py:676–731`.
-/

namespace JobWorker

/-- `seconds_in_database_error_recovery`, read at `t`; `cli/worker.py:411–423`. -/
def QueueWorker.secondsInDatabaseErrorRecovery (s : QueueWorker) (t : Time) : Int :=
  match s.databaseErrorStreakStartedAt with
  | none => 0
  | some started => max 0 (t - started)

/-- What the signal reads of an upgrade gate. -/
structure UpgradeGate where
  unhealthyAfterSeconds : Int
  closedSince : Option Time

/-- `is_overdue`, read at `t`; `cli/upgrade_gate.py:227–237`. -/
def UpgradeGate.isOverdue (g : UpgradeGate) (t : Time) : Bool :=
  match g.closedSince with
  | none => false
  | some since => g.unhealthyAfterSeconds != 0 &&
      decide (g.unhealthyAfterSeconds * second ≤ max 0 (t - since))

/-- What the signal reads of the supervisor. -/
structure FleetHealth extends RunnerConfig where
  databaseUnhealthyAfterSeconds : Int := 300
  quarantinedDatabases : List String := []
  upgradeGates : List UpgradeGate := []
  failureTimestamps : List (List Time) := []
  registryLoadRetrySince : List Time := []
  workerInstances : List QueueWorker := []

namespace FleetHealth

variable (f : FleetHealth) (t : Time)

/-- A database has failed often in the window; `cli/runner.py:707–714`. -/
def failsOften : Bool :=
  f.failureTimestamps.any fun timestamps ↦
    decide (f.maximumConsecutiveFailures ≤ (f.remaining t timestamps).length)

/-- A database has been in its retries for too long; `cli/runner.py:715–730`. -/
def retriesLong : Bool :=
  f.databaseUnhealthyAfterSeconds != 0 &&
    (f.registryLoadRetrySince.any (fun started ↦
        decide (f.databaseUnhealthyAfterSeconds * second ≤ t - started)) ||
      f.workerInstances.any fun worker ↦
        decide (f.databaseUnhealthyAfterSeconds * second ≤
          worker.secondsInDatabaseErrorRecovery t))

/-- `_fleet_is_degraded`, read at `t`; `cli/runner.py:676–731`. -/
def fleetIsDegraded : Bool :=
  !f.quarantinedDatabases.isEmpty || f.upgradeGates.any (·.isOverdue t) || f.failsOften t ||
    f.retriesLong t

/-- The supervisor watches one more worker. -/
def watching (worker : QueueWorker) : FleetHealth :=
  { f with workerInstances := worker :: f.workerInstances }

variable {f t} {s u : QueueWorker}

/-- A worker that has recovered for the threshold degrades the fleet. -/
theorem fleetIsDegraded_of_le (hf : f.databaseUnhealthyAfterSeconds ≠ 0)
    (hle : f.databaseUnhealthyAfterSeconds * second ≤ s.secondsInDatabaseErrorRecovery t) :
    (f.watching s).fleetIsDegraded t = true := by
  simp [fleetIsDegraded, retriesLong, watching, hf, hle]

/-- Of a worker the signal reads the time in recovery only. -/
theorem fleetIsDegraded_congr
    (h : s.secondsInDatabaseErrorRecovery t = u.secondsInDatabaseErrorRecovery t) :
    (f.watching s).fleetIsDegraded t = (f.watching u).fleetIsDegraded t := by
  simp only [fleetIsDegraded, failsOften, retriesLong, watching, List.any_cons, h]
  rfl

end FleetHealth

end JobWorker
