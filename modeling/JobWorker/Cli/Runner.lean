import JobWorker.Base.Runs
import JobWorker.Models.Job
import Mathlib.Data.List.Sort
import Mathlib.Data.Finset.Basic
import Mathlib.Logic.Function.Basic

/-!
# The supervisor

`QueueJobRunner` with the worker threads that it starts, counts and restarts,
`job_worker/cli/runner.py:167–454,593–650,738–779`. Every reading of the monotonic clock may
come later than the one before it. Three columns are history only: the threads started,
the restarts of each database, and the failure timestamps with the threads they count.
-/

namespace JobWorker

/-- A `threading.Thread` of `_start_worker_thread`. -/
structure WorkerThread where
  id : Nat
  database : String
  deriving DecidableEq, Repr

/-- A worker thread serves, has claimed its own crash and is about to end, or has ended. -/
inductive ThreadPhase
  | serving
  | crashed
  | dead
  deriving DecidableEq, Repr

/-- Settings of the supervisor; `cli/runner.py:177–190`. -/
structure RunnerConfig where
  maximumConsecutiveFailures : Int := 5
  failureWindowSeconds : Int := 300
  useAdvisoryLock : Bool := true

/-- The timestamps that are not older than the cutoff; `cli/runner.py:603–604`. -/
def RunnerConfig.remaining (cfg : RunnerConfig) (now : Time) (timestamps : List Time) :
    List Time :=
  timestamps.filter fun ts ↦ decide (now - cfg.failureWindowSeconds * second ≤ ts)

/-- The supervisor. A database without failure timestamps has no entry in
`_failure_timestamps`. -/
structure QueueJobRunner where
  now : Time
  delays : List Nat := []
  stopEvent : Bool := false
  cleanedUp : Bool := false
  workerThreads : List WorkerThread := []
  deathsCounted : List WorkerThread := []
  failureTimestamps : String → List Time := fun _ ↦ []
  quarantinedDatabases : List String := []
  phase : WorkerThread → ThreadPhase := fun _ ↦ .serving
  nextThread : Nat := 0
  started : List WorkerThread := []
  restarts : List (String × Time) := []
  stamps : List (WorkerThread × Time) := []

/-- What a discovery pass reads: the database names, and for each whether it has the module
and whether its advisory lock is free. A reading that raises is `none`. -/
structure Discovery where
  databaseNames : List String
  hasModule : String → Option Bool
  advisoryLock : String → Option Bool

/-- The module is installed in a database of the pass. -/
def Discovery.confirms (d : Discovery) (db : String) : Bool :=
  d.databaseNames.contains db && d.hasModule db == some true

/-- `sorted(…)`. -/
def sortedNames (names : List String) : List String := names.insertionSort (· ≤ ·)

namespace QueueJobRunner

variable (cfg : RunnerConfig) (s : QueueJobRunner)

/-- The clock of the next `time.monotonic()`. -/
def elapse : QueueJobRunner :=
  { s with now := s.now + s.delays.headD 0, delays := s.delays.tail }

/-- `self._worker_threads.get(db_name)`. -/
def workerThread (db : String) : Option WorkerThread :=
  s.workerThreads.find? fun t ↦ t.database == db

/-- `_recent_failure_count`; `cli/runner.py:593–610`. -/
def recentFailureCount (db : String) : Nat × QueueJobRunner :=
  if s.failureTimestamps db = [] then (0, s)
  else
    let s := s.elapse
    let remaining := cfg.remaining s.now (s.failureTimestamps db)
    (remaining.length,
      { s with failureTimestamps := Function.update s.failureTimestamps db remaining })

/-- `_record_failure` for the death of `thread`; `cli/runner.py:640–650`. -/
def recordFailure (thread : WorkerThread) : QueueJobRunner :=
  let db := thread.database
  let s := s.elapse
  let s : QueueJobRunner :=
    { s with
      failureTimestamps :=
        Function.update s.failureTimestamps db (s.failureTimestamps db ++ [s.now])
      stamps := (thread, s.now) :: s.stamps }
  let (count, s) := s.recentFailureCount cfg db
  if cfg.maximumConsecutiveFailures ≤ count then
    { s with quarantinedDatabases := s.quarantinedDatabases.insert db }
  else s

/-- One round of `_expire_quarantines`; `cli/runner.py:631–638`. -/
def expireQuarantine (db : String) : QueueJobRunner :=
  let (count, s) := s.recentFailureCount cfg db
  if cfg.maximumConsecutiveFailures ≤ count then s
  else { s with quarantinedDatabases := s.quarantinedDatabases.filter (· != db) }

/-- `_expire_quarantines`; `cli/runner.py:612–638`. -/
def expireQuarantines : QueueJobRunner :=
  (sortedNames s.quarantinedDatabases).foldl (expireQuarantine cfg) s

/-- `_start_worker_thread`; `cli/runner.py:359–373`. -/
def startWorkerThread (db : String) : QueueJobRunner :=
  let thread : WorkerThread := ⟨s.nextThread, db⟩
  { s with
    workerThreads := s.workerThreads.filter (·.database != db) ++ [thread]
    nextThread := s.nextThread + 1
    started := thread :: s.started }

/-- `_forget_thread`; `cli/runner.py:376–386`. -/
def forgetThread (db : String) : QueueJobRunner :=
  match s.workerThread db with
  | none => s
  | some thread =>
    { s with
      workerThreads := s.workerThreads.filter (·.database != db)
      deathsCounted := s.deathsCounted.filter (· != thread) }

/-- `_stop_worker_thread`; `cli/runner.py:388–417`. -/
def stopWorkerThread (db : String) : QueueJobRunner :=
  let s := s.forgetThread db
  { s with
    failureTimestamps := Function.update s.failureTimestamps db []
    quarantinedDatabases := s.quarantinedDatabases.filter (· != db) }

/-- A death is counted, and the failure recorded; `cli/runner.py:447–448,769–770`. -/
def addDeath (thread : WorkerThread) : QueueJobRunner :=
  let s : QueueJobRunner := { s with deathsCounted := s.deathsCounted.insert thread }
  s.recordFailure cfg thread

/-- A dead thread that is not counted yet is counted; `cli/runner.py:444–448`. -/
def countDeath (thread : WorkerThread) : QueueJobRunner :=
  if thread ∈ s.deathsCounted then s else s.addDeath cfg thread

/-- The thread entry is dropped and a new thread started; `cli/runner.py:451–454`. -/
def restart (db : String) : QueueJobRunner :=
  let s := (s.forgetThread db).elapse
  { s with restarts := (db, s.now) :: s.restarts : QueueJobRunner }.startWorkerThread db

/-- One round of `_check_thread_health`; `cli/runner.py:433–454`. -/
def checkThread (db : String) : QueueJobRunner :=
  if s.stopEvent then s
  else
    match s.workerThread db with
    | none => s
    | some thread =>
      if s.phase thread ≠ .dead then s
      else if db ∈ s.quarantinedDatabases then s
      else
        let s := s.countDeath cfg thread
        if db ∈ s.quarantinedDatabases then s else s.restart db

/-- `_check_thread_health`; `cli/runner.py:419–454`. -/
def checkThreadHealth : QueueJobRunner :=
  (s.workerThreads.map WorkerThread.database).foldl (checkThread cfg) s

/-- One round of the first loop of `discover_databases`; `cli/runner.py:332–349`. -/
def discover (d : Discovery) (db : String) : QueueJobRunner :=
  if d.hasModule db ≠ some true then s
  else if (s.workerThread db).isSome then s
  else if cfg.useAdvisoryLock ∧ d.advisoryLock db ≠ some true then s
  else s.elapse.startWorkerThread db

/-- One round of the second loop: a database that was not confirmed is removed;
`cli/runner.py:352–357`. -/
def hotRemove (d : Discovery) (db : String) : QueueJobRunner :=
  if d.confirms db then s else s.stopWorkerThread db

/-- `discover_databases`; `cli/runner.py:326–357`. -/
def discoverDatabases (d : Discovery) : QueueJobRunner :=
  let s := s.expireQuarantines cfg
  let s := (sortedNames d.databaseNames).foldl (fun s db ↦ s.discover cfg d db) s
  (s.workerThreads.map WorkerThread.database).foldl (fun s db ↦ s.hotRemove d db) s

/-- `_cleanup`; `cli/runner.py:733–736`. -/
def cleanup : QueueJobRunner :=
  (s.workerThreads.map WorkerThread.database).foldl stopWorkerThread s

section Effects

variable {s} {db : String} {thread : WorkerThread}

/-- The clock does not run back. -/
theorem now_le_elapse : s.now ≤ s.elapse.now := Int.le_add_of_nonneg_right (Int.natCast_nonneg _)

/-- Counting the failures prunes them, at some later time. -/
theorem recentFailureCount_eq (db : String) : ∃ (now : Time) (delays : List Nat), s.now ≤ now ∧
    s.recentFailureCount cfg db = ((cfg.remaining now (s.failureTimestamps db)).length,
      { s with
        now, delays
        failureTimestamps := Function.update s.failureTimestamps db
          (cfg.remaining now (s.failureTimestamps db)) }) := by
  unfold recentFailureCount
  split
  · next hnil =>
    refine ⟨s.now, s.delays, le_rfl, ?_⟩
    have hkept : cfg.remaining s.now (s.failureTimestamps db) = s.failureTimestamps db := by
      rw [hnil]
      rfl
    rw [hkept, Function.update_eq_self, hnil]
    rfl
  · exact ⟨s.elapse.now, s.elapse.delays, now_le_elapse, rfl⟩

/-- A failure is listed, the list pruned, and the database quarantined when it is long. -/
theorem recordFailure_eq (thread : WorkerThread) :
    ∃ (t now : Time) (delays : List Nat), s.now ≤ t ∧ t ≤ now ∧
      ∃ listed, listed = cfg.remaining now (s.failureTimestamps thread.database ++ [t]) ∧
        s.recordFailure cfg thread =
          { s with
            now, delays
            failureTimestamps := Function.update s.failureTimestamps thread.database listed
            stamps := (thread, t) :: s.stamps
            quarantinedDatabases :=
              if cfg.maximumConsecutiveFailures ≤ listed.length then
                s.quarantinedDatabases.insert thread.database
              else s.quarantinedDatabases } := by
  let s₁ : QueueJobRunner :=
    { s.elapse with
      failureTimestamps := Function.update s.failureTimestamps thread.database
        (s.failureTimestamps thread.database ++ [s.elapse.now])
      stamps := (thread, s.elapse.now) :: s.stamps }
  obtain ⟨now, delays, hle, heq⟩ :=
    recentFailureCount_eq cfg (s := s₁) thread.database
  refine ⟨s.elapse.now, now, delays, now_le_elapse, hle, _, rfl, ?_⟩
  have hlist : s₁.failureTimestamps thread.database =
      s.failureTimestamps thread.database ++ [s.elapse.now] := Function.update_self _ _ _
  show (let (count, s) := s₁.recentFailureCount cfg thread.database
    if cfg.maximumConsecutiveFailures ≤ count then
      { s with quarantinedDatabases := s.quarantinedDatabases.insert thread.database }
    else s) = _
  rw [heq, hlist]
  dsimp only
  rw [Function.update_idem]
  split <;> rfl

/-- A death is stamped, and the rest of the supervisor left alone. -/
theorem addDeath_eq (thread : WorkerThread) :
    ∃ (t now : Time) (delays : List Nat), s.now ≤ t ∧ t ≤ now ∧ s.addDeath cfg thread =
      { s with
        now, delays
        deathsCounted := s.deathsCounted.insert thread
        failureTimestamps := Function.update s.failureTimestamps thread.database
          (cfg.remaining now (s.failureTimestamps thread.database ++ [t]))
        stamps := (thread, t) :: s.stamps
        quarantinedDatabases :=
          if cfg.maximumConsecutiveFailures ≤
              (cfg.remaining now (s.failureTimestamps thread.database ++ [t])).length then
            s.quarantinedDatabases.insert thread.database
          else s.quarantinedDatabases } := by
  obtain ⟨t, now, delays, hle, hle', listed, rfl, heq⟩ := recordFailure_eq cfg
    (s := { s with deathsCounted := s.deathsCounted.insert thread }) thread
  exact ⟨t, now, delays, hle, hle', heq⟩

/-- A death leaves threads, restarts and stop events alone. -/
theorem addDeath_frame (thread : WorkerThread) :
    (s.addDeath cfg thread).workerThreads = s.workerThreads ∧
      (s.addDeath cfg thread).phase = s.phase ∧
      (s.addDeath cfg thread).deathsCounted = s.deathsCounted.insert thread ∧
      (s.addDeath cfg thread).stopEvent = s.stopEvent ∧
      (s.addDeath cfg thread).restarts = s.restarts ∧
      (s.addDeath cfg thread).cleanedUp = s.cleanedUp := by
  obtain ⟨t, now, delays, _, _, heq⟩ := addDeath_eq cfg (s := s) thread
  rw [heq]
  exact ⟨rfl, rfl, rfl, rfl, rfl, rfl⟩

/-- Behind the count, the thread of a database is the same and counted. -/
theorem countDeath_frame (thread : WorkerThread) :
    (s.countDeath cfg thread).workerThreads = s.workerThreads ∧
      (s.countDeath cfg thread).phase = s.phase ∧
      thread ∈ (s.countDeath cfg thread).deathsCounted ∧
      (∀ t ∈ s.deathsCounted, t ∈ (s.countDeath cfg thread).deathsCounted) ∧
      (s.countDeath cfg thread).stopEvent = s.stopEvent := by
  unfold countDeath
  split
  · next h => exact ⟨rfl, rfl, h, fun _ ↦ id, rfl⟩
  · obtain ⟨hw, hp, hc, hs, _, _⟩ := addDeath_frame cfg (s := s) thread
    refine ⟨hw, hp, ?_, fun t ht ↦ ?_, hs⟩
    · rw [hc]
      exact List.mem_insert_self
    · rw [hc]
      exact List.mem_insert_of_mem ht

/-- A quarantine is lifted when few failures remain. -/
theorem expireQuarantine_eq (db : String) :
    ∃ (now : Time) (delays : List Nat), s.now ≤ now ∧
      ∃ listed, listed = cfg.remaining now (s.failureTimestamps db) ∧
        s.expireQuarantine cfg db =
          { s with
            now, delays
            failureTimestamps := Function.update s.failureTimestamps db listed
            quarantinedDatabases :=
              if cfg.maximumConsecutiveFailures ≤ listed.length then s.quarantinedDatabases
              else s.quarantinedDatabases.filter (· != db) } := by
  obtain ⟨now, delays, hle, heq⟩ := recentFailureCount_eq cfg (s := s) db
  refine ⟨now, delays, hle, _, rfl, ?_⟩
  unfold expireQuarantine
  rw [heq]
  dsimp only
  split <;> rfl

/-- A restart drops the thread with its count and registers a new one. -/
theorem restart_eq (h : s.workerThread db = some thread) :
    ∃ (now : Time) (delays : List Nat), s.now ≤ now ∧ s.restart db =
      { s with
        now, delays
        workerThreads := s.workerThreads.filter (·.database != db) ++ [⟨s.nextThread, db⟩]
        deathsCounted := s.deathsCounted.filter (· != thread)
        nextThread := s.nextThread + 1
        started := ⟨s.nextThread, db⟩ :: s.started
        restarts := (db, now) :: s.restarts } := by
  refine ⟨s.elapse.now, s.elapse.delays, now_le_elapse, ?_⟩
  simp [restart, forgetThread, h, startWorkerThread, elapse, List.filter_filter]

end Effects

end QueueJobRunner

/-- What happens to the supervisor and its threads. A step that reads the clock carries the
delays before its readings. -/
inductive RunnerAction
  | tick (elapsed : Nat)
  | stop
  | crash (thread : WorkerThread) (delays : List Nat)
  | ends (thread : WorkerThread)
  | discoverDatabases (d : Discovery) (delays : List Nat)
  | checkThreadHealth (delays : List Nat)
  | cleanup

namespace QueueJobRunner

variable (cfg : RunnerConfig) (s : QueueJobRunner)

/-- The except branch of `_worker_thread_target`; `cli/runner.py:765–770`. -/
def crash (thread : WorkerThread) : QueueJobRunner :=
  { s with phase := Function.update s.phase thread .crashed : QueueJobRunner }.addDeath cfg thread

/-- One step, if it can happen: a thread crashes or returns once, and ends behind a crash;
the loop of `run` starts no pass when it is to stop; `cli/runner.py:289–316`. -/
def next : RunnerAction → Option QueueJobRunner
  | .tick elapsed => some { s with now := s.now + elapsed }
  | .stop => some { s with stopEvent := true }
  | .crash thread delays =>
    if thread ∈ s.started ∧ s.phase thread = .serving then
      some ({ s with delays : QueueJobRunner }.crash cfg thread)
    else none
  | .ends thread =>
    if thread ∈ s.started ∧ s.phase thread ≠ .dead then
      some { s with phase := Function.update s.phase thread .dead }
    else none
  | .discoverDatabases d delays =>
    if s.stopEvent ∨ s.cleanedUp then none
    else some ({ s with delays : QueueJobRunner }.discoverDatabases cfg d)
  | .checkThreadHealth delays =>
    if s.cleanedUp then none
    else some ({ s with delays : QueueJobRunner }.checkThreadHealth cfg)
  | .cleanup =>
    if s.stopEvent ∧ ¬ s.cleanedUp then some { s.cleanup with cleanedUp := true } else none

end QueueJobRunner

/-- Runs of the supervisor. -/
abbrev RunnerRun (cfg : RunnerConfig) :
    List (QueueJobRunner × RunnerAction) → QueueJobRunner → Prop :=
  Transition.Run (fun s ↦ ∃ now : Time, s = { now }) fun s a s' ↦ s.next cfg a = some s'

end JobWorker
