import JobWorker.Cascades.Cancellation
import JobWorker.Cascades.ManualCompletion
import JobWorker.Cascades.WorkerDied

/-!
# The running system

Any number of workers and any callers of the public methods share one job table. Each
event is one committed transaction, so a run is an interleaving of transactions. An
attempt is the thread of a worker that executes a job which the worker has acquired; it
ends when it records an outcome, releases its claim after a timeout, or ends without a
statement, and the worker then discards the job from its active ones. Two columns
are history only: the jobs that have completed, and the attempts whose row was at some
point not started under their worker's id.
-/

namespace JobWorker

open Fuel

/-- One execution of an acquired job. -/
structure Attempt where
  id : Nat
  cfg : WorkerConfig
  job : JobId

/-- The database, the clock, the running attempts, the active jobs of every worker, and
the history. -/
structure World where
  store : Store
  now : Time
  attempts : List Attempt := []
  active : List (WorkerUuid × JobId) := []
  nextAttempt : Nat := 0
  completed : List JobId := []
  lost : List Nat := []

/-- The transactions of the system. -/
inductive Event
  | tick (elapsed : Nat)
  | enqueue (env : OrmEnv) (args : EnqueueArgs)
  | acquireJobLock (cfg : WorkerConfig) (limits : QueueLimits) (locked : JobId → Bool)
  | heartbeatJob (a : Attempt)
  | updateHeartbeats (worker : WorkerUuid)
  | handleTimeout (a : Attempt) (timeout : Int)
  | clearWorkerOwnership (a : Attempt)
  | die (a : Attempt)
  | finalizeJob (a : Attempt) (serialized : Option String)
  | handleException (a : Attempt) (exc : JobException) (traceback : String)
  | runNow (job : JobId) (run : Execution)
  | buttonSetToDone (self : List JobId)
  | buttonSetToFailed (self : List JobId)
  | buttonRequeue (self : List JobId)
  | buttonCancelled (self : List JobId)

namespace World

/-- `active_job_ids` of a worker; `cli/worker.py:170`. -/
def activeJobIds (w : World) (worker : WorkerUuid) : List JobId :=
  (w.active.filter fun a ↦ a.1 == worker).map Prod.snd

/-- The records of a recordset exist. -/
def Exist (w : World) (self : List JobId) : Prop := ∀ j ∈ self, ∃ r, w.store.get? j = some r

/-- The transaction of an event commits with this table. -/
inductive Commits (w : World) : Event → Store → Prop
  | tick {elapsed : Nat} : Commits w (.tick elapsed) w.store
  | enqueue {env : OrmEnv} {args : EnqueueArgs} {s' : Store} {j : JobId} :
      JobWorker.enqueue env w.now w.store args = .ok (s', j) →
      Commits w (.enqueue env args) s'
  | acquireJobLock {cfg : WorkerConfig} {limits : QueueLimits} {locked : JobId → Bool} :
      Commits w (.acquireJobLock cfg limits locked)
        (JobWorker.acquireJobLock cfg limits locked w.now w.store).1
  | heartbeatJob {a : Attempt} : a ∈ w.attempts →
      Commits w (.heartbeatJob a)
        (JobWorker.heartbeatJob a.cfg.workerUuid w.now w.store a.job)
  | updateHeartbeats {worker : WorkerUuid} :
      Commits w (.updateHeartbeats worker)
        (JobWorker.updateHeartbeats worker w.now w.store (w.activeJobIds worker))
  | handleTimeout {a : Attempt} {timeout : Int} : a ∈ w.attempts →
      timeoutRaises a.cfg w.store a.job = false →
      Commits w (.handleTimeout a timeout)
        (JobWorker.handleTimeout a.cfg timeout w.now w.store a.job)
  | clearWorkerOwnership {a : Attempt} : a ∈ w.attempts →
      Commits w (.clearWorkerOwnership a)
        (JobWorker.clearWorkerOwnership a.cfg.workerUuid w.store a.job)
  | die {a : Attempt} : a ∈ w.attempts → Commits w (.die a) w.store
  | finalizeJob {a : Attempt} {serialized : Option String} {s' : Store} : a ∈ w.attempts →
      JobWorker.finalizeJob w.now serialized w.store a.job = .ok s' →
      Commits w (.finalizeJob a serialized) s'
  | handleException {a : Attempt} {exc : JobException} {traceback : String} {s' : Store} :
      a ∈ w.attempts →
      JobWorker.handleException a.cfg w.now exc traceback w.store a.job = .ok s' →
      Commits w (.handleException a exc traceback) s'
  | runNow {job : JobId} {run : Execution} {s' : Store} {raised : Bool} :
      w.Exist [job] → runJob run w.store job = .ok (s', raised) →
      Commits w (.runNow job run) s'
  | buttonSetToDone {self : List JobId} {s' : Store} : w.Exist self →
      JobWorker.buttonSetToDone w.now w.store self = .ok s' →
      Commits w (.buttonSetToDone self) s'
  | buttonSetToFailed {self : List JobId} {s' : Store} : w.Exist self →
      JobWorker.buttonSetToFailed w.now w.store self = .ok s' →
      Commits w (.buttonSetToFailed self) s'
  | buttonRequeue {self : List JobId} {s' : Store} : w.Exist self →
      JobWorker.buttonRequeue w.now w.store self = .ok s' →
      Commits w (.buttonRequeue self) s'
  | buttonCancelled {self : List JobId} {s' : Store} : w.Exist self →
      Computes (fun fuel ↦ JobWorker.buttonCancelled w.now fuel w.store self) (.ok s') →
      Commits w (.buttonCancelled self) s'

/-- The attempts behind an event: an acquired job starts one, an outcome ends one. -/
def attemptsAfter (w : World) : Event → List Attempt
  | .acquireJobLock cfg limits locked =>
    match (JobWorker.acquireJobLock cfg limits locked w.now w.store).2 with
    | some job => ⟨w.nextAttempt, cfg, job⟩ :: w.attempts
    | none => w.attempts
  | .clearWorkerOwnership a | .die a | .finalizeJob a _ | .handleException a _ _ =>
    w.attempts.filter fun b ↦ b.id != a.id
  | _ => w.attempts

/-- The active jobs behind an event: `process_jobs` adds the acquired job,
`_execute_and_cleanup` discards it; `cli/worker.py:544–546,594–595`. -/
def activeAfter (w : World) : Event → List (WorkerUuid × JobId)
  | .acquireJobLock cfg limits locked =>
    match (JobWorker.acquireJobLock cfg limits locked w.now w.store).2 with
    | some job => w.active.insert (cfg.workerUuid, job)
    | none => w.active
  | .clearWorkerOwnership a | .die a | .finalizeJob a _ | .handleException a _ _ =>
    w.active.filter fun p ↦ p != (a.cfg.workerUuid, a.job)
  | _ => w.active

/-- The jobs that an event completes. -/
def completes : Event → List JobId
  | .finalizeJob a _ => [a.job]
  | .runNow job run =>
    match run.outcome with
    | .returns _ => [job]
    | .raises _ _ => []
  | .buttonSetToDone self => self
  | _ => []

/-- The row of an attempt is started under its worker's id. -/
def Holds (s : Store) (a : Attempt) : Prop :=
  ∃ r, s.get? a.job = some r ∧ r.ownedBy a.cfg.workerUuid = true

instance (s : Store) (a : Attempt) : Decidable (Holds s a) := by
  unfold Holds
  cases h : s.get? a.job with
  | none => exact isFalse (by simp)
  | some r => exact decidable_of_iff (r.ownedBy a.cfg.workerUuid = true) (by simp)

/-- The world behind a committed event. -/
def after (w : World) (e : Event) (s' : Store) : World where
  store := s'
  now := match e with
    | .tick elapsed => w.now + elapsed
    | _ => w.now
  attempts := w.attemptsAfter e
  active := w.activeAfter e
  nextAttempt := w.nextAttempt + 1
  completed := completes e ++ w.completed
  lost := ((w.attemptsAfter e).filter fun a ↦ !decide (Holds s' a)).map Attempt.id ++ w.lost

/-- The empty database at some time. -/
def init (now : Time) : World := { store := .empty, now := now }

/-- One event of the system. -/
def Step (w : World) (e : Event) (w' : World) : Prop :=
  ∃ s', w.Commits e s' ∧ w' = w.after e s'

/-- Worlds reached from the empty database by events that meet `guard`. -/
inductive Reachable (guard : World → Event → Prop) : World → Prop
  | init (now : Time) : Reachable guard (init now)
  | step {w w' : World} {e : Event} :
      Reachable guard w → guard w e → w.Step e w' → Reachable guard w'

/-- An invariant that every guarded event keeps holds in every reachable world. -/
theorem Reachable.invariant {guard : World → Event → Prop} {P : World → Prop}
    (hinit : ∀ now, P (World.init now))
    (hstep : ∀ w e s', P w → guard w e → w.Commits e s' → P (w.after e s')) {w : World}
    (h : Reachable guard w) : P w := by
  induction h with
  | init now => exact hinit now
  | @step w w' e _ hg hs ih =>
    obtain ⟨s', hc, rfl⟩ := hs
    exact hstep w e s' ih hg hc

end World
end JobWorker
