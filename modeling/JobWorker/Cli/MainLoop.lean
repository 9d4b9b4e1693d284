import JobWorker.Base.Backoff
import JobWorker.Base.Runs
import JobWorker.Cli.Worker
import Mathlib.Data.Finset.Card
import Mathlib.Data.Rat.Defs
import Mathlib.Tactic.NormNum

/-!
# The worker's main loop

`QueueWorker.run` with the pool it submits to, `job_worker/cli/worker.py:131–595`. The main
thread is always in a blocking call, or about to read `active_job_ids` under its lock; the
code between two of these is one step. Calls return any answer the code can receive and
take any time, and pool threads and the stop event interleave with them. Two columns are
history only: the calls begun and the jobs taken since `last_progress` was written.
-/

namespace JobWorker

theorem one_le_twoThreads : 1 ≤ (2 : Nat) := by decide

theorem twentieth_le_oneSecond : 1 / 20 ≤ (1 : ℚ) := by norm_num

theorem oneSecond_le_minute : (1 : ℚ) ≤ 60 := by norm_num

/-- Settings of the main loop after their lower bounds; `cli/worker.py:131–219`. -/
structure MainLoopConfig extends WorkerConfig where
  concurrency : Nat := 2
  upgradeGate : Bool := true
  databaseErrorBackoffSeconds : ℚ := 1
  databaseErrorBackoffCapSeconds : ℚ := 60
  one_le_concurrency : 1 ≤ concurrency := by first | exact one_le_twoThreads | decide
  databaseErrorBackoffSeconds_pos : 1 / 20 ≤ databaseErrorBackoffSeconds := by
    first | exact twentieth_le_oneSecond | norm_num
  databaseErrorBackoffSeconds_le :
    databaseErrorBackoffSeconds ≤ databaseErrorBackoffCapSeconds := by
      first | exact oneSecond_le_minute | norm_num

/-- `backoff_seconds * (2 ** exponent)`, cut at the cap, in both retry loops: the power is
converted to a float first, and an `OverflowError` when it is too large;
`cli/worker.py:394–398`, `cli/runner.py:823–826`. -/
def backoffDelay (base cap : ℚ) (exponent : Nat) : Option ℚ :=
  if 2 ^ exponent < Backoff.doubleBound then some (Backoff.delay base cap exponent) else none

/-- `threading.TIMEOUT_MAX`: the wait for a longer time is an `OverflowError`. -/
def timeoutMax : ℚ := 9223372036

/-- What a call of the main loop raises: an `OperationalError` with a transient code, any
other `psycopg2.Error`, or any other exception. -/
inductive LoopError
  | transient
  | database
  | other
  deriving DecidableEq, Repr

/-- Where the main thread is. -/
inductive Pc
  | listen
  | gateAtTop
  | checkRegistry
  | slotCheck
  | gateBeforeAcquire
  | acquireJob
  | activeCheck
  | slotWait
  | updateHeartbeats
  | select
  | backOff
  | shutdown
  | ended
  deriving DecidableEq, Repr

/-- The main thread is in a call that takes time. -/
def Pc.blocking : Pc → Bool
  | slotCheck | activeCheck | ended => false
  | _ => true

/-- The loop of `run` has not been left. -/
def Pc.serving : Pc → Bool
  | shutdown | ended => false
  | _ => true

/-- A worker: its fields, the tasks of its pool, the clock, and where its main thread is. A
`last_registry_check` of minus infinity is `none`. -/
structure QueueWorker where
  pc : Pc
  now : Time
  callStart : Time
  stop : Bool := false
  activeJobIds : Finset JobId := ∅
  executing : List JobId := []
  queued : List JobId := []
  lastProgress : Time
  databaseErrorStreak : Nat := 0
  databaseErrorStreakStartedAt : Option Time := none
  upgradeGateWasOpen : Bool := true
  lastRegistryCheck : Option Time
  calls : Nat := 1
  taken : Nat := 0
  deriving DecidableEq

/-- What happens to a worker: time passes in a call, it is asked to stop, a pool thread ends
a task, or the main thread reads under the lock or returns from its call. -/
inductive LoopAction
  | tick (elapsed : Nat)
  | stop
  | finish (job : JobId)
  | read
  | listen (result : Except LoopError Unit)
  | gate (answer : Except LoopError Bool)
  | checkRegistry
  | acquireJob (result : Except LoopError (Option JobId))
  | slept
  | updateHeartbeats (result : Except LoopError Unit)
  | select (result : Except LoopError Unit)
  | waited
  | poolShutDown
  deriving DecidableEq

/-- The call has returned an answer of the gate or a job. -/
def LoopAction.answers : LoopAction → Bool
  | .gate (.ok _) | .acquireJob (.ok (some _)) => true
  | _ => false

/-- The exception of the call that leaves `_listen_and_serve`; `cli/worker.py:356–365,475–493`. -/
def LoopAction.raises : LoopAction → Option LoopError
  | .acquireJob (.error .transient) | .updateHeartbeats (.error .transient) => none
  | .listen (.error e) | .gate (.error e) | .acquireJob (.error e) | .updateHeartbeats (.error e)
  | .select (.error e) => some e
  | _ => none

/-- A `psycopg2.Error` leaves `_listen_and_serve`. -/
def LoopAction.failsDatabase (a : LoopAction) : Bool :=
  a.raises == some .transient || a.raises == some .database

/-- The exception is one of the two kinds. -/
theorem LoopAction.failsDatabase_iff {a : LoopAction} :
    a.failsDatabase = true ↔ a.raises = some .transient ∨ a.raises = some .database := by
  simp [LoopAction.failsDatabase]

/-- What raises does not answer. -/
theorem LoopAction.answers_of_raises {a : LoopAction} {e : LoopError} (h : a.raises = some e) :
    a.answers = false := by
  unfold LoopAction.answers
  split
  · cases h
  · cases h
  · rfl

/-- What fails does not answer. -/
theorem LoopAction.answers_of_failsDatabase {a : LoopAction} (h : a.failsDatabase = true) :
    a.answers = false := (failsDatabase_iff.mp h).elim answers_of_raises answers_of_raises

namespace QueueWorker

variable (cfg : MainLoopConfig) (s : QueueWorker)

/-- The main thread proceeds to `pc`. -/
def goto (pc : Pc) : QueueWorker :=
  { s with
    pc
    callStart := s.now
    calls := if pc.blocking then s.calls + 1 else s.calls }

/-- `self.last_progress = time.monotonic()`. -/
def advance : QueueWorker := { s with lastProgress := s.now, calls := 0, taken := 0 }

/-- `self._pool.shutdown(wait=True, cancel_futures=True)`; `cli/worker.py:317–318`. -/
def poolShutdown : QueueWorker := { s with queued := [] }.goto .shutdown

/-- The loop of `run`; `cli/worker.py:305–316`. -/
def run : QueueWorker := if s.stop then s.poolShutdown else s.goto .listen

/-- One more error in a row; `cli/worker.py:391–393`. -/
def countDatabaseError : QueueWorker :=
  { s with
    databaseErrorStreak := s.databaseErrorStreak + 1
    databaseErrorStreakStartedAt := s.databaseErrorStreakStartedAt <|> some s.now }

/-- The delay behind the errors in a row; `cli/worker.py:394–397`. -/
def databaseErrorDelay : Option ℚ :=
  backoffDelay cfg.databaseErrorBackoffSeconds cfg.databaseErrorBackoffCapSeconds
    (s.databaseErrorStreak - 1)

/-- `_back_off_after_database_error` up to the wait that it begins. The delay may be too large
to compute or to wait for, and that exception leaves the loop of `run`;
`cli/worker.py:383–409`. -/
def backOffAfterDatabaseError : QueueWorker :=
  let s := s.countDatabaseError
  match s.databaseErrorDelay cfg with
  | none => s.poolShutdown
  | some delay => if delay ≤ timeoutMax then s.advance.goto .backOff else s.advance.poolShutdown

/-- An exception leaves `_listen_and_serve`; `cli/worker.py:306–318`. -/
def raised : LoopError → QueueWorker
  | .transient | .database => s.backOffAfterDatabaseError cfg
  | .other => s.poolShutdown

/-- The head of the serving loop; `cli/worker.py:334–341`. -/
def cycle : QueueWorker := if s.stop then s.run else s.advance.goto .gateAtTop

/-- A full cycle completed: the error streak is cleared; `cli/worker.py:376–381`. -/
def cycleCompleted : QueueWorker :=
  { s with databaseErrorStreak := 0, databaseErrorStreakStartedAt := none : QueueWorker }.cycle

/-- `_upgrade_gate_is_open` behind the probe; `cli/worker.py:258–263`. -/
def upgradeGateIsOpen (isOpen : Bool) : QueueWorker :=
  { s with
    lastRegistryCheck :=
      if isOpen && !s.upgradeGateWasOpen then none else s.lastRegistryCheck
    upgradeGateWasOpen := isOpen }

/-- `_check_registry` does not return early; `cli/worker.py:237–239`. -/
def registryCheckDue : Bool :=
  s.lastRegistryCheck.all fun t ↦ decide (cfg.registryCheckInterval * second ≤ s.callStart - t)

/-- `_check_registry`, whose reload swallows every exception; `cli/worker.py:227–247`. -/
def checkRegistry : QueueWorker :=
  { s with
    lastRegistryCheck :=
      if s.registryCheckDue cfg then some s.callStart else s.lastRegistryCheck }

/-- The head of `process_jobs`; `cli/worker.py:464–467`. -/
def processJobs : QueueWorker :=
  if s.stop ∨ cfg.concurrency ≤ s.activeJobIds.card then s.goto .updateHeartbeats
  else s.goto .gateBeforeAcquire

/-- No job was acquired: wait for a slot while jobs are running; `cli/worker.py:495–543`. -/
def noJob : QueueWorker :=
  if s.activeJobIds = ∅ then s.goto .updateHeartbeats else s.advance.goto .slotWait

/-- An acquired job is added and submitted; the pool starts it while it has a free thread;
`cli/worker.py:544–546`. -/
def submit (job : JobId) : QueueWorker :=
  { s with
    activeJobIds := insert job s.activeJobIds
    executing :=
      if s.executing.length < cfg.concurrency then s.executing ++ [job] else s.executing
    queued := if s.executing.length < cfg.concurrency then s.queued else s.queued ++ [job]
    taken := s.taken + 1 }

/-- A task ends, and its thread takes the next one; `cli/worker.py:578–595`. -/
def finish (job : JobId) : QueueWorker :=
  { s with
    activeJobIds := s.activeJobIds.erase job
    executing := s.executing.erase job ++ s.queued.take 1
    queued := s.queued.drop 1 }

/-- The main thread is in a call that takes time; a registry check that is not due returns
at once. -/
def takesTime : Bool := s.pc.blocking && (s.pc != .checkRegistry || s.registryCheckDue cfg)

/-- One step of a worker, if it can happen. Without a gate the probe is open at once. -/
def next : LoopAction → Option QueueWorker
  | .tick elapsed => if s.takesTime cfg then some { s with now := s.now + elapsed } else none
  | .stop => some { s with stop := true }
  | .finish job => if job ∈ s.executing then some (s.finish job) else none
  | .read =>
    match s.pc with
    | .slotCheck => some (s.processJobs cfg)
    | .activeCheck => some s.noJob
    | _ => none
  | .listen result =>
    match s.pc, result with
    | .listen, .ok _ => some s.cycle
    | .listen, .error e => some (s.raised cfg e)
    | _, _ => none
  | .gate answer =>
    match s.pc, answer with
    | .gateAtTop, .ok true => some ((s.upgradeGateIsOpen true).goto .checkRegistry)
    | .gateBeforeAcquire, .ok true => some ((s.upgradeGateIsOpen true).goto .acquireJob)
    | .gateAtTop, .ok false | .gateBeforeAcquire, .ok false =>
      if cfg.upgradeGate then some ((s.upgradeGateIsOpen false).goto .updateHeartbeats)
      else none
    | .gateAtTop, .error e | .gateBeforeAcquire, .error e =>
      if cfg.upgradeGate then some (s.raised cfg e) else none
    | _, _ => none
  | .checkRegistry =>
    if s.pc = .checkRegistry then some ((s.checkRegistry cfg).goto .slotCheck) else none
  | .acquireJob result =>
    match s.pc, result with
    | .acquireJob, .ok (some job) => some ((s.submit cfg job).goto .slotCheck)
    | .acquireJob, .ok none | .acquireJob, .error .transient => some (s.goto .activeCheck)
    | .acquireJob, .error e => some (s.raised cfg e)
    | _, _ => none
  | .slept => if s.pc = .slotWait then some (s.goto .slotCheck) else none
  | .updateHeartbeats result =>
    match s.pc, result with
    | .updateHeartbeats, .ok _ => some (s.goto .select)
    | .updateHeartbeats, .error e =>
      if s.activeJobIds = ∅ then none
      else if e = .transient then some (s.goto .select)
      else some (s.raised cfg e)
    | _, _ => none
  | .select result =>
    match s.pc, result with
    | .select, .ok _ => some s.cycleCompleted
    | .select, .error e => some (s.raised cfg e)
    | _, _ => none
  | .waited => if s.pc = .backOff then some s.run else none
  | .poolShutDown =>
    if s.pc = .shutdown ∧ s.executing = [] then some (s.goto .ended) else none

/-- `QueueWorker.__init__`; `cli/worker.py:131–225`. -/
def create (now : Time) (stop : Bool) : QueueWorker :=
  { pc := .listen, now, callStart := now, stop, lastProgress := now,
    lastRegistryCheck := some now, calls := 0 }

/-- A worker whose thread enters `run`, whose stop event may be set already. -/
def Starts : Prop := ∃ (now : Time) (stop : Bool), s = (create now stop).run

/-- The error streak of a worker is `n` errors long and began at `t`. -/
def withStreak (n : Nat) (t : Option Time) : QueueWorker :=
  { s with databaseErrorStreak := n, databaseErrorStreakStartedAt := t }

/-- The ways out of the loop of `run`, with the error streak behind them. -/
inductive Leaving : LoopAction → Nat → Option Time → Prop
  | crashed {a : LoopAction} : a.raises = some .other →
      Leaving a s.databaseErrorStreak s.databaseErrorStreakStartedAt
  | overflowed {a : LoopAction} : a.failsDatabase = true →
      s.countDatabaseError.databaseErrorDelay cfg = none →
      Leaving a (s.databaseErrorStreak + 1) (s.databaseErrorStreakStartedAt <|> some s.now)
  | stopped {a : LoopAction} : a = .listen (.ok ()) ∨ a = .waited → s.stop = true →
      Leaving a s.databaseErrorStreak s.databaseErrorStreakStartedAt
  | completed : s.stop = true → Leaving (.select (.ok ())) 0 none

/-- Everything a step can do. -/
inductive Effect : LoopAction → QueueWorker → Prop
  | tick {elapsed : Nat} : s.pc.blocking = true →
      (s.pc = .checkRegistry → s.registryCheckDue cfg = true) →
      Effect (.tick elapsed) { s with now := s.now + elapsed }
  | stop : Effect .stop { s with stop := true }
  | finish {job : JobId} : job ∈ s.executing → Effect (.finish job) (s.finish job)
  | leave : s.pc = .slotCheck ∨ s.pc = .activeCheck → Effect .read (s.goto .updateHeartbeats)
  | proceed : s.pc = .slotCheck → s.activeJobIds.card < cfg.concurrency →
      Effect .read (s.goto .gateBeforeAcquire)
  | wait : s.pc = .activeCheck → s.activeJobIds ≠ ∅ → Effect .read (s.advance.goto .slotWait)
  | listened : s.pc = .listen → Effect (.listen (.ok ())) (s.advance.goto .gateAtTop)
  | completed : s.pc = .select →
      Effect (.select (.ok ())) ((s.withStreak 0 none).advance.goto .gateAtTop)
  | relisten : s.pc = .backOff → Effect .waited (s.goto .listen)
  | openAtTop : s.pc = .gateAtTop →
      Effect (.gate (.ok true)) ((s.upgradeGateIsOpen true).goto .checkRegistry)
  | openBeforeAcquire : s.pc = .gateBeforeAcquire →
      Effect (.gate (.ok true)) ((s.upgradeGateIsOpen true).goto .acquireJob)
  | closed : s.pc = .gateAtTop ∨ s.pc = .gateBeforeAcquire →
      Effect (.gate (.ok false)) ((s.upgradeGateIsOpen false).goto .updateHeartbeats)
  | checked : s.pc = .checkRegistry →
      Effect .checkRegistry ((s.checkRegistry cfg).goto .slotCheck)
  | acquired {job : JobId} : s.pc = .acquireJob →
      Effect (.acquireJob (.ok (some job))) ((s.submit cfg job).goto .slotCheck)
  | notAcquired {result : Except LoopError (Option JobId)} : s.pc = .acquireJob →
      result = .ok none ∨ result = .error .transient →
      Effect (.acquireJob result) (s.goto .activeCheck)
  | slept : s.pc = .slotWait → Effect .slept (s.goto .slotCheck)
  | beaten {result : Except LoopError Unit} : s.pc = .updateHeartbeats →
      result = .ok () ∨ result = .error .transient →
      Effect (.updateHeartbeats result) (s.goto .select)
  | backOff {a : LoopAction} {delay : ℚ} : s.pc.serving = true → a.failsDatabase = true →
      s.countDatabaseError.databaseErrorDelay cfg = some delay → delay ≤ timeoutMax →
      Effect a (s.countDatabaseError.advance.goto .backOff)
  | overslept {a : LoopAction} {delay : ℚ} : s.pc.serving = true → a.failsDatabase = true →
      s.countDatabaseError.databaseErrorDelay cfg = some delay → timeoutMax < delay →
      Effect a s.countDatabaseError.advance.poolShutdown
  | shutdown {a : LoopAction} {n : Nat} {t : Option Time} : s.pc.serving = true →
      s.Leaving cfg a n t → Effect a (s.withStreak n t).poolShutdown
  | ended : s.pc = .shutdown → s.executing = [] → Effect .poolShutDown (s.goto .ended)

section Effect

variable {cfg s} {a : LoopAction} {s' : QueueWorker}

/-- No answer leads out of the loop. -/
theorem Leaving.answers {n : Nat} {t : Option Time} (h : s.Leaving cfg a n t) :
    a.answers = false := by
  cases h with
  | crashed ha => exact LoopAction.answers_of_raises ha
  | overflowed ha _ => exact LoopAction.answers_of_failsDatabase ha
  | stopped ha _ => rcases ha with rfl | rfl <;> rfl
  | completed => rfl

/-- An exception ends the session or the loop. -/
theorem effect_raised {e : LoopError} (hpc : s.pc.serving = true) (ha : a.raises = some e) :
    Effect cfg s a (s.raised cfg e) := by
  have hdatabase (hf : a.failsDatabase = true) :
      Effect cfg s a (s.backOffAfterDatabaseError cfg) := by
    unfold backOffAfterDatabaseError
    dsimp only
    split
    · next hn => exact .shutdown hpc (.overflowed hf hn)
    · next delay hd =>
      split
      · next hle => exact .backOff hpc hf hd hle
      · next hlt => exact .overslept hpc hf hd (not_le.mp hlt)
  cases e with
  | transient => exact hdatabase (LoopAction.failsDatabase_iff.mpr (.inl ha))
  | database => exact hdatabase (LoopAction.failsDatabase_iff.mpr (.inr ha))
  | other => exact .shutdown hpc (.crashed ha)

/-- A step does one of these. -/
theorem effect_of_next (h : s.next cfg a = some s') : Effect cfg s a s' := by
  cases a with
  | tick elapsed =>
    obtain ⟨hb, h⟩ := Option.ite_none_right_eq_some.mp h
    cases h
    obtain ⟨hb, hdue⟩ := Bool.and_eq_true_iff.mp hb
    exact .tick hb fun hpc ↦ by simpa [hpc] using hdue
  | stop => cases h; exact .stop
  | finish job =>
    obtain ⟨hj, h⟩ := Option.ite_none_right_eq_some.mp h
    cases h
    exact .finish hj
  | read =>
    simp only [next] at h
    split at h
    · next hpc =>
      cases h
      unfold processJobs
      split
      · exact .leave (.inl hpc)
      · next hn => exact .proceed hpc (by simp at hn; exact hn.2)
    · next hpc =>
      cases h
      unfold noJob
      split
      · exact .leave (.inr hpc)
      · next hn => exact .wait hpc hn
    · cases h
  | listen result =>
    simp only [next] at h
    split at h
    · next hpc =>
      cases h
      unfold cycle
      unfold run
      split
      · next hs => exact .shutdown (by simp [hpc, Pc.serving]) (.stopped (.inl rfl) hs)
      · exact .listened hpc
    · next hpc =>
      cases h
      exact effect_raised (by simp [hpc, Pc.serving]) rfl
    · cases h
  | gate answer =>
    simp only [next] at h
    split at h
    · next hpc => cases h; exact .openAtTop hpc
    · next hpc => cases h; exact .openBeforeAcquire hpc
    · next hpc =>
      obtain ⟨_, h⟩ := Option.ite_none_right_eq_some.mp h
      cases h
      exact .closed (.inl hpc)
    · next hpc =>
      obtain ⟨_, h⟩ := Option.ite_none_right_eq_some.mp h
      cases h
      exact .closed (.inr hpc)
    · next hpc =>
      obtain ⟨_, h⟩ := Option.ite_none_right_eq_some.mp h
      cases h
      exact effect_raised (by simp [hpc, Pc.serving]) rfl
    · next hpc =>
      obtain ⟨_, h⟩ := Option.ite_none_right_eq_some.mp h
      cases h
      exact effect_raised (by simp [hpc, Pc.serving]) rfl
    · cases h
  | checkRegistry =>
    obtain ⟨hpc, h⟩ := Option.ite_none_right_eq_some.mp h
    cases h
    exact .checked hpc
  | acquireJob result =>
    simp only [next] at h
    split at h
    · next hpc => cases h; exact .acquired hpc
    · next hpc => cases h; exact .notAcquired hpc (.inl rfl)
    · next hpc => cases h; exact .notAcquired hpc (.inr rfl)
    · next e hne hpc =>
      cases h
      refine effect_raised (by simp [hpc, Pc.serving]) ?_
      cases e with
      | transient => exact absurd rfl hne
      | database | other => rfl
    · cases h
  | slept =>
    obtain ⟨hpc, h⟩ := Option.ite_none_right_eq_some.mp h
    cases h
    exact .slept hpc
  | updateHeartbeats result =>
    simp only [next] at h
    split at h
    · next hpc => cases h; exact .beaten hpc (.inl rfl)
    · next e hpc =>
      split at h
      · cases h
      · split at h
        · next he => cases h; exact .beaten hpc (.inr (he ▸ rfl))
        · next hne =>
          cases h
          refine effect_raised (by simp [hpc, Pc.serving]) ?_
          cases e with
          | transient => exact absurd rfl hne
          | database | other => rfl
    · cases h
  | select result =>
    simp only [next] at h
    split at h
    · next hpc =>
      cases h
      unfold cycleCompleted cycle run
      split
      · next hs => exact .shutdown (by simp [hpc, Pc.serving]) (.completed hs)
      · exact .completed hpc
    · next hpc =>
      cases h
      exact effect_raised (by simp [hpc, Pc.serving]) rfl
    · cases h
  | waited =>
    obtain ⟨hpc, h⟩ := Option.ite_none_right_eq_some.mp h
    cases h
    unfold run
    split
    · next hs => exact .shutdown (by simp [hpc, Pc.serving]) (.stopped (.inr rfl) hs)
    · exact .relisten hpc
  | poolShutDown =>
    obtain ⟨⟨hpc, he⟩, h⟩ := Option.ite_none_right_eq_some.mp h
    cases h
    exact .ended hpc he

end Effect

end QueueWorker

/-- Runs of a worker. -/
abbrev LoopRun (cfg : MainLoopConfig) :
    List (QueueWorker × LoopAction) → QueueWorker → Prop :=
  Transition.Run QueueWorker.Starts fun s a s' ↦ s.next cfg a = some s'

end JobWorker
