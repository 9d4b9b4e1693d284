import JobWorker.Base.SessionLocks
import JobWorker.Cli.Runner

/-!
# Runner processes that share databases

Any number of runner processes, each with its worker threads and its advisory lock connections
(`job_worker/cli/runner.py:140–164,326–417`). The rounds of the supervisor loops come in any order
and between those of other processes. `_stop_worker_thread` is two steps: while it joins the
thread, the supervisor does nothing else, and the join may time out.
-/

namespace JobWorker

open Transition

/-- The rest of `_stop_worker_thread`, behind the join; `cli/runner.py:401–417`. -/
def QueueJobRunner.finishStop (s : QueueJobRunner) (db : String) : QueueJobRunner :=
  { s with
    failureTimestamps := Function.update s.failureTimestamps db []
    quarantinedDatabases := s.quarantinedDatabases.filter (· != db) }

/-- `_stop_worker_thread` forgets the thread and, behind the join, the rest. -/
theorem QueueJobRunner.stopWorkerThread_eq (s : QueueJobRunner) (db : String) :
    s.stopWorkerThread db = (s.forgetThread db).finishStop db := rfl

/-- A runner process, and the thread that its supervisor is joining. -/
structure RunnerProcess where
  runner : QueueJobRunner
  joining : Option WorkerThread := none

/-- The processes and the advisory locks. A connection of `_advisory_lock_connections` is a
session of its process; each database has its own lock. -/
structure RunnerFleet where
  processes : Nat → RunnerProcess
  locks : SessionLocks Nat String := {}

/-- The steps of a process that are no pass of its supervisor. -/
def RunnerAction.isPass : RunnerAction → Bool
  | .discoverDatabases _ _ | .checkThreadHealth _ | .cleanup => true
  | .tick _ | .stop | .crash _ _ | .ends _ => false

/-- What happens in process `i`: the rounds of its supervisor for one database, the two parts of
`_stop_worker_thread`, a step of a thread or of the clock, and the end of the process, which a new
one replaces. -/
inductive FleetAction
  | discover (i : Nat) (db : String) (hasModule : Option Bool) (connects : Bool)
    (delays : List Nat)
  | stopWorkerThread (i : Nat) (db : String)
  | joined (i : Nat)
  | checkThread (i : Nat) (db : String) (delays : List Nat)
  | expireQuarantine (i : Nat) (db : String) (delays : List Nat)
  | process (i : Nat) (a : RunnerAction)
  | exit (i : Nat)

namespace RunnerFleet

variable (cfg : RunnerConfig) (f : RunnerFleet)

/-- Process `i` has changed. -/
def set (i : Nat) (p : RunnerProcess) : RunnerFleet :=
  { f with processes := Function.update f.processes i p }

/-- The discovery of one database whose lock the process has got, or has not;
`cli/runner.py:332–349`. -/
def discoverWith (i : Nat) (db : String) (hasModule : Option Bool) (lock : Bool)
    (delays : List Nat) : RunnerFleet :=
  let d : Discovery := ⟨[db], fun _ ↦ hasModule, fun _ ↦ some lock⟩
  f.set i ⟨{ (f.processes i).runner with delays : QueueJobRunner }.discover cfg d db, none⟩

/-- A round of discovery: a database without a thread has its lock tried first;
`cli/runner.py:140–164,332–349`. -/
def discover (i : Nat) (db : String) (hasModule : Option Bool) (connects : Bool)
    (delays : List Nat) : RunnerFleet :=
  let p := f.processes i
  if hasModule = some true ∧ p.runner.workerThread db = none ∧ cfg.useAdvisoryLock ∧ connects then
    match f.locks.tryLock i db with
    | some locks => { f with locks : RunnerFleet }.discoverWith cfg i db hasModule true delays
    | none => f.discoverWith cfg i db hasModule false delays
  else f.discoverWith cfg i db hasModule false delays

/-- One step, if it can happen. -/
def next : FleetAction → Option RunnerFleet
  | .discover i db hasModule connects delays =>
    if (f.processes i).joining = none then some (f.discover cfg i db hasModule connects delays)
    else none
  | .stopWorkerThread i db =>
    let p := f.processes i
    if p.joining = none then
      (p.runner.workerThread db).map fun thread ↦
        f.set i ⟨p.runner.forgetThread db, some thread⟩
    else none
  | .joined i =>
    let p := f.processes i
    p.joining.map fun thread ↦
      { f.set i ⟨p.runner.finishStop thread.database, none⟩ with
        locks := f.locks.close i thread.database }
  | .checkThread i db delays =>
    let p := f.processes i
    if p.joining = none then
      some (f.set i ⟨{ p.runner with delays : QueueJobRunner }.checkThread cfg db, none⟩)
    else none
  | .expireQuarantine i db delays =>
    let p := f.processes i
    if p.joining = none then
      some (f.set i ⟨{ p.runner with delays : QueueJobRunner }.expireQuarantine cfg db, none⟩)
    else none
  | .process i a =>
    let p := f.processes i
    if a.isPass then none else (p.runner.next cfg a).map fun s ↦ f.set i { p with runner := s }
  | .exit i =>
    some { f.set i ⟨{ now := (f.processes i).runner.now }, none⟩ with locks := f.locks.closeAll i }

/-- No process has started a thread. -/
def Starts : Prop := ∃ now : Nat → Time, f = { processes := fun i ↦ ⟨{ now := now i }, none⟩ }

/-- Runs of the fleet. -/
abbrev Run : List (RunnerFleet × FleetAction) → RunnerFleet → Prop :=
  Transition.Run Starts fun f a f' ↦ f.next cfg a = some f'

/-- Process `i` has started the thread, and it has not ended. -/
def Live (i : Nat) (thread : WorkerThread) : Prop :=
  thread ∈ (f.processes i).runner.started ∧ (f.processes i).runner.phase thread ≠ .dead

end RunnerFleet
end JobWorker
