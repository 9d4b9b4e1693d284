import JobWorker.Cli.RegistryLoad
import JobWorker.Cli.RunnerFleet

/-!
# The thread target

`_worker_thread_target` between the rounds of the supervisor,
`job_worker/cli/runner.py:359–481,738–849`. A thread makes its entries under the name of its
database and removes them at its end; the supervisor removes a worker instance as well.
-/

namespace JobWorker

/-- Where a thread is in `_worker_thread_target`. The loop of `_load_registry` knows its failed
attempts and whether a round is under way; the time of the first failure is history. -/
inductive ThreadPoint
  | starting
  | loading (attempt : Nat) (retrySince : Option Time) (tries : Bool)
  | creating
  | running
  | raising
  | droppingInstance
  | droppingRetry
  | droppingGate
  | dead
  deriving DecidableEq

/-- The first failure of a thread that is retrying its registry load. -/
def ThreadPoint.retrySince : ThreadPoint → Option Time
  | .loading _ retrySince _ => retrySince
  | .starting | .creating | .running | .raising | .droppingInstance | .droppingRetry
  | .droppingGate | .dead => none

/-- What a thread does next; `cli/runner.py:751–779,808–840`. -/
inductive ThreadEvent
  | registersGate
  | tries
  | load (round : LoadRound)
  | publishes
  | returns
  | raises
  | crashes (delays : List Nat)
  | dropsInstance
  | dropsRetry
  | ends
  deriving DecidableEq

/-- A runner process with the points of its threads and the entries under the names of their
databases. A worker and a gate are known by the thread that has made them. -/
structure WatchedRunner extends RunnerProcess where
  point : WorkerThread → ThreadPoint := fun _ ↦ .starting
  stopRequested : WorkerThread → Bool := fun _ ↦ false
  workerInstances : String → Option WorkerThread := fun _ ↦ none
  registryLoadRetrySince : String → Option Time := fun _ ↦ none
  upgradeGates : String → Option WorkerThread := fun _ ↦ none

/-- The rounds of the supervisor for one database, the two parts of `_stop_worker_thread`, the
clock and the stop event, and the steps of the threads. -/
inductive WatchAction
  | discover (db : String) (d : Discovery) (delays : List Nat)
  | stopWorkerThread (db : String)
  | joined
  | checkThread (db : String) (delays : List Nat)
  | expireQuarantine (db : String) (delays : List Nat)
  | tick (elapsed : Nat)
  | stop
  | thread (t : WorkerThread) (e : ThreadEvent)

namespace WatchedRunner

open Function

variable (cfg : RunnerConfig) (load : RegistryLoadConfig) (s : WatchedRunner) (t : WorkerThread)

/-- The thread goes on. -/
def goto (p : ThreadPoint) : WatchedRunner := { s with point := update s.point t p }

/-- The stop event of the process or of the thread is set. -/
def stopped : Bool := s.runner.stopEvent || s.stopRequested t

/-- The entries behind a round of `_load_registry`; `cli/runner.py:822,838`. -/
def noteRound : LoadRound → WatchedRunner
  | .databaseError =>
    { s with
      registryLoadRetrySince := update s.registryLoadRetrySince t.database
        (s.registryLoadRetrySince t.database <|> some s.runner.now) }
  | .loaded =>
    { s with registryLoadRetrySince := update s.registryLoadRetrySince t.database none }
  | .stopped | .raised => s

/-- A round of `_load_registry` behind so many failed attempts; `cli/runner.py:808–840`. -/
def loadRegistry (attempt : Nat) (retrySince : Option Time) (round : LoadRound) : WatchedRunner :=
  let s' := s.noteRound t round
  match loadRound load attempt round with
  | .retrying attempt => s'.goto t (.loading attempt (retrySince <|> some s.runner.now) false)
  | .returned true => s'.goto t .creating
  | .returned false => s'.goto t .droppingInstance
  | .raised => s'.goto t .raising

/-- A step of a thread, if it is there; `cli/runner.py:738–779`. -/
def workerThreadTarget : ThreadEvent → Option WatchedRunner
  | .registersGate =>
    if s.point t = .starting then
      some { s.goto t (.loading 0 none false) with
        upgradeGates := update s.upgradeGates t.database (some t) }
    else none
  | .tries =>
    match s.point t with
    | .loading attempt retrySince false =>
      if s.stopped t then none else some (s.goto t (.loading attempt retrySince true))
    | _ => none
  | .load round =>
    match s.point t with
    | .loading attempt retrySince tries =>
      -- A round that is under way may outlast the stop event.
      if (if round = .stopped then s.stopped t else tries) then
        some (s.loadRegistry load t attempt retrySince round)
      else none
    | _ => none
  | .publishes =>
    if s.point t = .creating then
      some { s.goto t .running with
        workerInstances := update s.workerInstances t.database (some t) }
    else none
  | .returns =>
    if s.point t = .running ∧ s.stopped t then some (s.goto t .droppingInstance) else none
  | .raises =>
    if s.point t = .creating ∨ s.point t = .running then some (s.goto t .raising) else none
  | .crashes delays =>
    if s.point t = .raising then
      (s.runner.next cfg (.crash t delays)).map fun runner ↦
        { s.goto t .droppingInstance with runner }
    else none
  | .dropsInstance =>
    if s.point t = .droppingInstance then
      some { s.goto t .droppingRetry with
        workerInstances := update s.workerInstances t.database none }
    else none
  | .dropsRetry =>
    if s.point t = .droppingRetry then
      some { s.goto t .droppingGate with
        registryLoadRetrySince := update s.registryLoadRetrySince t.database none }
    else none
  | .ends =>
    if s.point t = .droppingGate then
      (s.runner.next cfg (.ends t)).map fun runner ↦
        { s.goto t .dead with
          runner
          upgradeGates :=
            if s.upgradeGates t.database = some t then update s.upgradeGates t.database none
            else s.upgradeGates }
    else none

/-- One step, if it can happen; `cli/runner.py:326–454`. -/
def next : WatchAction → Option WatchedRunner
  | .discover db d delays =>
    if s.joining = none then
      some { s with runner := { s.runner with delays : QueueJobRunner }.discover cfg d db }
    else none
  | .stopWorkerThread db =>
    if s.joining = none then
      (s.runner.workerThread db).map fun thread ↦
        { s with
          runner := s.runner.forgetThread db
          joining := some thread
          stopRequested := update s.stopRequested thread true }
    else none
  | .joined =>
    s.joining.map fun thread ↦
      { s with
        runner := s.runner.finishStop thread.database
        joining := none
        workerInstances := update s.workerInstances thread.database none }
  | .checkThread db delays =>
    let runner := { s.runner with delays : QueueJobRunner }.checkThread cfg db
    if s.joining = none then
      some { s with
        runner
        workerInstances :=
          if runner.workerThread db = s.runner.workerThread db then s.workerInstances
          else update s.workerInstances db none }
    else none
  | .expireQuarantine db delays =>
    if s.joining = none then
      some { s with
        runner := { s.runner with delays : QueueJobRunner }.expireQuarantine cfg db }
    else none
  | .tick elapsed => (s.runner.next cfg (.tick elapsed)).map fun runner ↦ { s with runner }
  | .stop => (s.runner.next cfg .stop).map fun runner ↦ { s with runner }
  | .thread t e =>
    if t ∈ s.runner.started then s.workerThreadTarget cfg load t e else none

/-- `_check_worker_progress` finds the worker of a database stalled; `cli/runner.py:456–481`. -/
def findsStalled (workerStallTimeoutSeconds : Int) (lastProgress : WorkerThread → Time)
    (db : String) : Bool :=
  decide (0 < workerStallTimeoutSeconds) && !s.runner.stopEvent &&
    match s.workerInstances db, s.runner.workerThread db with
    | some worker, some thread =>
      s.runner.phase thread != .dead &&
        decide (workerStallTimeoutSeconds * second < s.runner.now - lastProgress worker)
    | _, _ => false

end WatchedRunner

/-- Runs of a runner with its threads. -/
abbrev WatchedRun (cfg : RunnerConfig) (load : RegistryLoadConfig) :
    List (WatchedRunner × WatchAction) → WatchedRunner → Prop :=
  Transition.Run (fun s ↦ ∃ now : Time, s = { runner := { now } }) fun s a s' ↦
    s.next cfg load a = some s'

end JobWorker
