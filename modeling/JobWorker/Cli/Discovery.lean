import JobWorker.Cli.Runner

/-!
# Discovery with its probes and locks

`_database_has_module` with the two queries that it runs, and `discover_databases` with the
advisory lock connections, `job_worker/cli/runner.py:99–164,326–417`. The supervisor in it is
`QueueJobRunner`.
-/

namespace JobWorker

/-- What `_database_has_module` meets in a database: whether the connection opens and closes, and
whether each query finds a row, where `none` is an error; `cli/runner.py:107–137`. -/
structure ModuleProbe where
  connects : Bool := true
  modulesTable : Option Bool := some true
  installedRow : Option Bool := some true
  closes : Bool := true
  deriving DecidableEq, Repr

/-- `_database_has_module`, with `none` where closing the connection raises;
`cli/runner.py:99–137`. -/
def databaseHasModule (p : ModuleProbe) : Option Bool :=
  if ¬ p.connects then some false
  else if ¬ p.closes then none
  else
    match p.modulesTable with
    | none | some false => some false
    | some true => some (p.installedRow.getD false)

/-- What the database says about the module, if nothing goes wrong. -/
def ModuleProbe.answer (p : ModuleProbe) : Option Bool :=
  if p.connects ∧ p.closes then
    p.modulesTable.bind fun table ↦ if table then p.installedRow else some false
  else none

/-- What a pass of `discover_databases` meets: the database names, and for each its probe and
whether its advisory lock is free, where `none` is an error. -/
structure DiscoveryPass where
  databaseNames : List String
  probe : String → ModuleProbe
  advisoryLock : String → Option Bool := fun _ ↦ some true

/-- What the supervisor learns from it. -/
def DiscoveryPass.toDiscovery (p : DiscoveryPass) : Discovery :=
  ⟨p.databaseNames, fun db ↦ databaseHasModule (p.probe db), p.advisoryLock⟩

/-- The supervisor with `_advisory_lock_connections`. -/
structure LockingRunner where
  runner : QueueJobRunner
  advisoryLockConnections : String → Option Nat := fun _ ↦ none
  nextConnection : Nat := 0

namespace LockingRunner

variable (cfg : RunnerConfig) (p : DiscoveryPass) (s : LockingRunner)

/-- `self._advisory_lock_connections[db_name] = lock_connection`. -/
def connectLock (db : String) : LockingRunner :=
  { s with
    advisoryLockConnections := Function.update s.advisoryLockConnections db (some s.nextConnection)
    nextConnection := s.nextConnection + 1 }

/-- One round of the first loop of `discover_databases`; `cli/runner.py:332–349`. -/
def discover (db : String) : LockingRunner :=
  let d := p.toDiscovery
  if d.hasModule db ≠ some true then s
  else if (s.runner.workerThread db).isSome then s
  else if cfg.useAdvisoryLock then
    if d.advisoryLock db ≠ some true then s
    else { s.connectLock db with runner := s.runner.elapse.startWorkerThread db }
  else { s with runner := s.runner.elapse.startWorkerThread db }

/-- `_stop_worker_thread` with the lock connection that it closes; `cli/runner.py:388–417`. -/
def stopWorkerThread (db : String) : LockingRunner :=
  { s with
    runner := s.runner.stopWorkerThread db
    advisoryLockConnections := Function.update s.advisoryLockConnections db none }

/-- One round of the second loop of `discover_databases`; `cli/runner.py:352–357`. -/
def hotRemove (db : String) : LockingRunner :=
  if p.toDiscovery.confirms db then s else s.stopWorkerThread db

/-- `discover_databases`; `cli/runner.py:326–357`. -/
def discoverDatabases : LockingRunner :=
  let s := { s with runner := s.runner.expireQuarantines cfg }
  let s := (sortedNames p.databaseNames).foldl (discover cfg p) s
  (s.runner.workerThreads.map WorkerThread.database).foldl (hotRemove p) s

section Runner

variable {cfg p s} {db : String}

theorem runner_discover :
    (s.discover cfg p db).runner = s.runner.discover cfg p.toDiscovery db := by
  unfold discover QueueJobRunner.discover
  by_cases hmod : p.toDiscovery.hasModule db = some true
  · by_cases hthread : (s.runner.workerThread db).isSome = true
    · simp [hmod, hthread]
    · by_cases hlock : cfg.useAdvisoryLock = true
      · by_cases hfree : p.toDiscovery.advisoryLock db = some true
        · simp [hmod, hthread, hlock, hfree]
        · simp [hmod, hthread, hlock, hfree]
      · simp [hmod, hthread, hlock]
  · simp [hmod]

theorem runner_hotRemove :
    (s.hotRemove p db).runner = s.runner.hotRemove p.toDiscovery db := by
  unfold hotRemove QueueJobRunner.hotRemove
  split <;> rfl

theorem runner_foldl_discover (names : List String) :
    (names.foldl (discover cfg p) s).runner =
      names.foldl (fun u db ↦ u.discover cfg p.toDiscovery db) s.runner :=
  (List.foldl_hom runner fun _ _ ↦ runner_discover.symm).symm

theorem runner_foldl_hotRemove (names : List String) :
    (names.foldl (hotRemove p) s).runner =
      names.foldl (fun u db ↦ u.hotRemove p.toDiscovery db) s.runner :=
  (List.foldl_hom runner fun _ _ ↦ runner_hotRemove.symm).symm

/-- The locks aside, a pass is one of the supervisor. -/
theorem runner_discoverDatabases :
    (s.discoverDatabases cfg p).runner = s.runner.discoverDatabases cfg p.toDiscovery := by
  rw [discoverDatabases, runner_foldl_hotRemove, runner_foldl_discover]
  rfl

end Runner

end LockingRunner

end JobWorker
