import JobWorker.Base.Backoff
import JobWorker.Models.QueueJob

/-!
# The worker's transactions

Acquisition with stale reclaim, heartbeats, timeout, release of a claim, and the two ways
an attempt records its outcome, `job_worker/cli/worker.py:425–447,548–935,1101–1313`.
Each function is one committed transaction on the job table. Rows that another
transaction has locked are the ones `SKIP LOCKED` passes over.
-/

namespace JobWorker

open Relational

theorem one_le_sixty : (1 : Int) ≤ 60 := by decide

theorem ten_le_hour : (10 : Int) ≤ 3600 := by decide

theorem five_le_thirty : (5 : Int) ≤ 30 := by decide

theorem zero_le_hour : (0 : Int) ≤ 3600 := by decide

/-- Settings of a worker after their lower bounds; `cli/worker.py:151–196`. -/
structure WorkerConfig where
  workerUuid : WorkerUuid
  staleAfterSeconds : Int := 60
  maxBackoffSeconds : Int := 3600
  registryCheckInterval : Int := 30
  transientRegistryMaxAgeSeconds : Int := 3600
  one_le_staleAfterSeconds : 1 ≤ staleAfterSeconds := by first | exact one_le_sixty | decide
  ten_le_maxBackoffSeconds : 10 ≤ maxBackoffSeconds := by first | exact ten_le_hour | decide
  five_le_registryCheckInterval : 5 ≤ registryCheckInterval := by
    first | exact five_le_thirty | decide
  zero_le_transientRegistryMaxAgeSeconds : 0 ≤ transientRegistryMaxAgeSeconds := by
    first | exact zero_le_hour | decide

/-- One row of `queue_limit`, whose `rate_limit` may be NULL; `models/queue_limit.py`. -/
structure QueueLimit where
  limit : Int := 1
  rateLimit : Option Int := some 0
  deriving DecidableEq

/-- `queue_limit`, at most one row for each channel name. -/
abbrev QueueLimits := String → Option QueueLimit

namespace WorkerConfig

variable (cfg : WorkerConfig)

/-- `heartbeat > NOW() - stale_seconds * INTERVAL '1 second'`. -/
def fresh (now : Time) (r : Job) : Bool :=
  r.heartbeat.any fun h ↦ decide (now - cfg.staleAfterSeconds * second < h)

/-- `heartbeat IS NULL OR heartbeat < NOW() - stale_seconds * INTERVAL '1 second'`. -/
def stale (now : Time) (r : Job) : Bool :=
  r.heartbeat.all fun h ↦ decide (h < now - cfg.staleAfterSeconds * second)

/-- `fresh_running_counts` joined on the channel; `cli/worker.py:607–612`. -/
def freshRunning (now : Time) (s : Store) (channel : Option String) : Nat :=
  s.jobs.count fun _ r ↦
    channel.isSome && r.channel == channel && r.state == .started && cfg.fresh now r

/-- `recent_starts_counts` joined on the channel; `cli/worker.py:613–621`. -/
def recentStarts (now : Time) (s : Store) (channel : Option String) : Nat :=
  s.jobs.count fun _ r ↦
    channel.isSome && r.channel == channel && (r.state == .started || r.state == .done) &&
      (r.heartbeat.any (fun h ↦ decide (now - second < h)) ||
        decide (now - second < r.writeDate))

/-- The row's own part of the acquire predicate; `cli/worker.py:630–640`. -/
def acquirable (now : Time) (r : Job) : Bool :=
  (r.state == .pending || r.state == .started && cfg.stale now r) &&
    r.scheduledAt.all fun t ↦ decide (t ≤ now)

/-- The part of the acquire predicate that the aggregates decide;
`cli/worker.py:641–646`. -/
def throttled (limits : QueueLimits) (now : Time) (s : Store) (r : Job) : Bool :=
  let limit := r.channel.bind limits
  !(decide ((cfg.freshRunning now s r.channel : Int) < (limit.map QueueLimit.limit).getD 1) &&
    match limit.bind QueueLimit.rateLimit with
    | none => true
    | some rate => rate == 0 || decide ((recentStarts now s r.channel : Int) < rate))

/-- Rows of the acquire query in their order; `cli/worker.py:606–650`. -/
def candidates (limits : QueueLimits) (now : Time) (s : Store) : List JobId :=
  s.jobs.selectBy (fun _ r ↦ cfg.acquirable now r && !cfg.throttled limits now s r) RowOrder

/-- The row of a fresh pickup; `cli/worker.py:657–667`. -/
def pickupRow (now : Time) (r : Job) : Job :=
  { r with
    state := .started
    heartbeat := some now
    workerId := some cfg.workerUuid
    writeDate := now
    startedAt := some now }

/-- The row of a reclaim that runs the job again; `cli/worker.py:748–755`. -/
def reclaimRow (now : Time) (r : Job) : Job :=
  { cfg.pickupRow now r with attempts := some (r.attemptsRead + 1) }

end WorkerConfig

/-- `max_retries and attempts > max_retries` with the reclaim counted;
`cli/worker.py:685–687`. -/
def exhausted (r : Job) : Bool :=
  r.maxRetriesRead != 0 && decide (r.maxRetriesRead < r.attemptsRead + 1)

/-- The diagnosis of an exhausted reclaim; `cli/worker.py:688–692`. -/
def workerDiedReason : String :=
  "WorkerDiedJobError: reclaimed after an attempt failed to " ++
  "complete (worker died or was killed mid-execution, or the " ++
  "attempt overran its timeout); exhausted max_retries."

/-- The row of an exhausted reclaim; `cli/worker.py:696–707`. -/
def workerDiedRow (now : Time) (r : Job) : Job :=
  { r with
    state := .failed
    attempts := some (r.attemptsRead + 1)
    excInfo := some <|
      if r.excInfo.getD "" = "" then workerDiedReason
      else r.excInfo.getD "" ++ "\n" ++ workerDiedReason
    completedAt := some now
    workerId := none
    heartbeat := none
    writeDate := now }

/-- The row the raw-SQL cascade leaves of a waiting child or dependent of `job`;
`cli/worker.py:712–739`. -/
def workerDiedDependentRow (now : Time) (job : JobId) (r : Job) : Job :=
  { r with
    state := if r.runOnFailure then .pending else .failed
    excInfo := if r.runOnFailure then r.excInfo
      else some s!"Parent job {job} failed (worker died)"
    writeDate := now }

/-- The raw-SQL statement on the waiting children of an exhausted job;
`cli/worker.py:716–726`. -/
def workerDiedChildren (now : Time) (s : Store) (job : JobId) : Store :=
  s.update (fun _ ↦ Store.isWaitingChild job) (fun _ ↦ workerDiedDependentRow now job) <|
    Store.keeps_of_waiting (fun _ _ h ↦ (Bool.and_eq_true_iff.mp h).2) fun _ _ ↦ rfl

/-- The raw-SQL statement on the waiting dependents of an exhausted job;
`cli/worker.py:727–738`. -/
def workerDiedDependents (now : Time) (s : Store) (job : JobId) : Store :=
  s.update (fun _ ↦ isWaitingDependent job) (fun _ ↦ workerDiedDependentRow now job) <|
    Store.keeps_of_waiting (fun _ _ h ↦ (Bool.and_eq_true_iff.mp h).1) fun _ _ ↦ rfl

/-- The two raw-SQL statements behind an exhausted reclaim: waiting children first, then
the dependents that are still waiting; `cli/worker.py:712–738`. -/
def cascadeWorkerDied (now : Time) (s : Store) (job : JobId) : Store :=
  workerDiedDependents now (workerDiedChildren now s job) job

/-- A statement on the locked row of `acquire_job_lock`, which is pending or started. -/
def Store.updateLocked (s : Store) (job : JobId) (r : Job) (h : s.get? job = some r)
    (ha : r.state.isActive = true) (f : Job → Job)
    (hk : (f r).identityKey = r.identityKey) : Store :=
  s.updateRow job f fun q hq ↦ by
    rw [h, Option.some.injEq] at hq
    exact hq ▸ ⟨hk, fun _ ↦ ha⟩

/-- What `acquire_job_lock` does with the row it has locked;
`cli/worker.py:653–762`. -/
def acquireRow (cfg : WorkerConfig) (now : Time) (s : Store) (job : JobId) (r : Job)
    (h : s.get? job = some r) (ha : r.state.isActive = true) : Store × Option JobId :=
  if r.state ≠ .started then
    (s.updateLocked job r h ha (cfg.pickupRow now) rfl, some job)
  else if exhausted r then
    (cascadeWorkerDied now (s.updateLocked job r h ha (workerDiedRow now) rfl) job, none)
  else (s.updateLocked job r h ha (cfg.reclaimRow now) rfl, some job)

/-- A row that the acquire predicate admits is pending or started. -/
theorem WorkerConfig.isActive_of_acquirable {cfg : WorkerConfig} {now : Time} {r : Job}
    (h : cfg.acquirable now r = true) : r.state.isActive = true := by
  simp only [acquirable, Bool.and_eq_true, Bool.or_eq_true, beq_iff_eq] at h
  rcases h.1 with hs | ⟨hs, _⟩ <;> rw [hs] <;> rfl

/-- `acquire_job_lock`: the first candidate whose row is not locked;
`cli/worker.py:597–762`. -/
def acquireJobLock (cfg : WorkerConfig) (limits : QueueLimits) (locked : JobId → Bool)
    (now : Time) (s : Store) : Store × Option JobId :=
  match (cfg.candidates limits now s).find? fun i ↦ !locked i with
  | none => (s, none)
  | some job =>
    match h : s.get? job with
    | none => (s, none)
    | some r =>
      if ha : cfg.acquirable now r = true then
        acquireRow cfg now s job r h (WorkerConfig.isActive_of_acquirable ha)
      else (s, none)

section Acquire

variable {cfg : WorkerConfig} {limits : QueueLimits} {locked : JobId → Bool} {now : Time}
  {s : Store} {job i : JobId} {r : Job}

/-- A statement on a locked row rewrites that row only. -/
theorem get?_updateLocked (h : s.get? job = some r) (ha : r.state.isActive = true)
    (f : Job → Job) (hk : (f r).identityKey = r.identityKey) :
    (s.updateLocked job r h ha f hk).get? i = if i = job then some (f r) else s.get? i := by
  refine (Store.get?_updateRow s job f _ i).trans ?_
  split
  · next hi => rw [hi, h, Option.map_some]
  · rfl

/-- A candidate has a row that meets the acquire predicate. -/
theorem acquirable_of_mem_candidates (h : job ∈ cfg.candidates limits now s)
    (hr : s.get? job = some r) : cfg.acquirable now r = true := by
  obtain ⟨q, hq, hp⟩ := Table.mem_selectBy.mp h
  have : some q = some r := hq.symm.trans hr
  cases this
  exact (Bool.and_eq_true_iff.mp hp).1

/-- `acquire_job_lock` on the candidate that it locks. -/
theorem acquireJobLock_of_find
    (hf : (cfg.candidates limits now s).find? (fun i ↦ !locked i) = some job)
    (hr : s.get? job = some r) :
    acquireJobLock cfg limits locked now s = acquireRow cfg now s job r hr
      (WorkerConfig.isActive_of_acquirable
        (acquirable_of_mem_candidates (List.mem_of_find?_eq_some hf) hr)) := by
  have ha := acquirable_of_mem_candidates (List.mem_of_find?_eq_some hf) hr
  unfold acquireJobLock
  rw [hf]
  dsimp only
  split
  · next hn => rw [hr] at hn; cases hn
  · next q hq =>
    have : some q = some r := hq.symm.trans hr
    cases this
    rw [dif_pos ha]

/-- Everything `acquire_job_lock` can do: nothing, a fresh pickup, a reclaim that runs the
job again, or an exhausted reclaim that fails it. -/
inductive AcquireEffect (cfg : WorkerConfig) (now : Time) (s : Store) :
    Store × Option JobId → Prop
  | idle : AcquireEffect cfg now s (s, none)
  | pickup {job : JobId} {r : Job} (hr : s.get? job = some r)
      (ha : cfg.acquirable now r = true) (hs : r.state = .pending) :
      AcquireEffect cfg now s (s.updateLocked job r hr (WorkerConfig.isActive_of_acquirable ha)
        (cfg.pickupRow now) rfl, some job)
  | reclaim {job : JobId} {r : Job} (hr : s.get? job = some r)
      (ha : cfg.acquirable now r = true) (hs : r.state = .started) (he : exhausted r = false) :
      AcquireEffect cfg now s (s.updateLocked job r hr (WorkerConfig.isActive_of_acquirable ha)
        (cfg.reclaimRow now) rfl, some job)
  | exhaust {job : JobId} {r : Job} (hr : s.get? job = some r)
      (ha : cfg.acquirable now r = true) (hs : r.state = .started) (he : exhausted r = true) :
      AcquireEffect cfg now s (cascadeWorkerDied now (s.updateLocked job r hr
        (WorkerConfig.isActive_of_acquirable ha) (workerDiedRow now) rfl) job, none)

/-- An acquirable row is pending or stale. -/
theorem WorkerConfig.state_of_acquirable (h : cfg.acquirable now r = true) :
    r.state = .pending ∨ r.state = .started ∧ cfg.stale now r = true := by
  simp only [acquirable, Bool.and_eq_true, Bool.or_eq_true, beq_iff_eq] at h
  exact h.1

/-- `acquire_job_lock` does one of these. -/
theorem acquireEffect (cfg : WorkerConfig) (limits : QueueLimits) (locked : JobId → Bool)
    (now : Time) (s : Store) :
    AcquireEffect cfg now s (acquireJobLock cfg limits locked now s) := by
  cases hf : (cfg.candidates limits now s).find? fun i ↦ !locked i with
  | none =>
    unfold acquireJobLock
    rw [hf]
    exact .idle
  | some job =>
    have hmem := List.mem_of_find?_eq_some hf
    obtain ⟨r, hr, hp⟩ := Table.mem_selectBy.mp hmem
    have ha := (Bool.and_eq_true_iff.mp hp).1
    rw [acquireJobLock_of_find hf hr]
    unfold acquireRow
    split
    · next hs =>
      refine .pickup hr ha ((WorkerConfig.state_of_acquirable ha).resolve_right fun h ↦ ?_)
      exact hs h.1
    · next hs =>
      have hs := not_not.mp hs
      split
      · next he => exact .exhaust hr ha hs he
      · next he => exact .reclaim hr ha hs (Bool.not_eq_true _ ▸ he)

end Acquire

/-- `update_heartbeats`: no guard on the state; `cli/worker.py:426–448`. -/
def updateHeartbeats (worker : WorkerUuid) (now : Time) (s : Store)
    (activeJobIds : List JobId) : Store :=
  s.update (fun i r ↦ activeJobIds.contains i && r.workerId == some worker)
    (fun _ r ↦ { r with heartbeat := some now }) fun _ _ _ _ ↦ ⟨rfl, id⟩

/-- `state = 'started' AND worker_id = %s`: the guard of the claim holder. -/
def Job.ownedBy (r : Job) (worker : WorkerUuid) : Bool :=
  r.state == .started && r.workerId == some worker

/-- `_heartbeat_job`; `cli/worker.py:765–783`. -/
def heartbeatJob (worker : WorkerUuid) (now : Time) (s : Store) (job : JobId) : Store :=
  s.update (fun i r ↦ i == job && r.ownedBy worker)
    (fun _ r ↦ { r with heartbeat := some now }) fun _ _ _ _ ↦ ⟨rfl, id⟩

/-- The row `_handle_timeout` stamps: the next attempt is paced unless the reclaim will
exhaust `max_retries`; `cli/worker.py:880–899`. -/
def timeoutRow (cfg : WorkerConfig) (timeout : Int) (now : Time) (r : Job) : Job :=
  { r with
    excInfo := some s!"TimeoutJobError: Job exceeded {timeout}s timeout"
    scheduledAt :=
      if r.maxRetries = some 0 ∨ r.maxRetries.any fun m ↦ decide (r.attempts.getD 1 < m) then
        some (now + backoffSeconds (r.attempts.getD 1) cfg.maxBackoffSeconds * second)
      else r.scheduledAt
    writeDate := now }

/-- The WHEN of that CASE, which no comparison with NULL meets; `cli/worker.py:885`. -/
def pacesTimeout (r : Job) : Bool :=
  decide (r.maxRetries = some 0) || r.maxRetries.any fun m ↦ decide (r.attempts.getD 1 < m)

/-- The doublings of its THEN; `cli/worker.py:887`. -/
def timeoutDoublings (r : Job) : Nat := (max (r.attempts.getD 1 - 1) 0).toNat

/-- The statement of `_handle_timeout` raises: it paces the row, and `10 * POWER(2, …)` is out of
the range of double precision. -/
def timeoutRaises (cfg : WorkerConfig) (s : Store) (job : JobId) : Bool :=
  (s.get? job).any fun r ↦ r.ownedBy cfg.workerUuid && pacesTimeout r &&
    decide (Backoff.doubleBound ≤ 10 * 2 ^ timeoutDoublings r)

/-- `_handle_timeout`, where its statement does not raise; `cli/worker.py:812–911`. -/
def handleTimeout (cfg : WorkerConfig) (timeout : Int) (now : Time) (s : Store)
    (job : JobId) : Store :=
  s.update (fun i r ↦ i == job && r.ownedBy cfg.workerUuid)
    (fun _ ↦ timeoutRow cfg timeout now) fun _ _ _ _ ↦ ⟨rfl, id⟩

/-- `_clear_worker_ownership`; `cli/worker.py:914–933`. -/
def clearWorkerOwnership (worker : WorkerUuid) (s : Store) (job : JobId) : Store :=
  s.update (fun i r ↦ i == job && r.workerId == some worker)
    (fun _ r ↦ { r with workerId := none, heartbeat := none }) fun _ _ _ _ ↦ ⟨rfl, id⟩

section Claim

variable (worker : WorkerUuid) (now : Time) (s : Store) (job i : JobId)

/-- A row behind the batch heartbeat. -/
theorem get?_updateHeartbeats (activeJobIds : List JobId) :
    (updateHeartbeats worker now s activeJobIds).get? i = (s.get? i).map fun r ↦
      if activeJobIds.contains i && r.workerId == some worker then
        { r with heartbeat := some now } else r := Store.get?_update _ _ _ _ _

/-- A row behind a heartbeat. -/
theorem get?_heartbeatJob : (heartbeatJob worker now s job).get? i = (s.get? i).map fun r ↦
    if i == job && r.ownedBy worker then { r with heartbeat := some now } else r :=
  Store.get?_update _ _ _ _ _

/-- A row behind the release of a claim. -/
theorem get?_clearWorkerOwnership :
    (clearWorkerOwnership worker s job).get? i = (s.get? i).map fun r ↦
      if i == job && r.workerId == some worker then
        { r with workerId := none, heartbeat := none } else r := Store.get?_update _ _ _ _ _

end Claim

/-- Row of a finished job; `cli/worker.py:1107–1118`. -/
def finalizedRow (now : Time) (serialized : Option String) (r : Job) : Job :=
  { r with
    state := .done
    completedAt := some (datetimeNow now)
    duration := (r.startedAt.map fun t ↦ max 0 (datetimeNow now - t)) <|> r.duration
    result := serialized <|> r.result
    workerId := none
    heartbeat := none
    writeDate := now }

/-- `finalize_job`: no guard on the state or on the worker; `cli/worker.py:1103–1130`. -/
def finalizeJob (now : Time) (serialized : Option String) (s : Store) (job : JobId) :
    Except OrmError Store := do
  let s ← s.write job (finalizedRow now serialized) fun _ ↦ rfl
  return cascadeSuccessToDependents now s job

/-- What `handle_exception` decides for a row. -/
inductive Disposition
  | retry (delaySeconds : Int) (counted : Bool)
  | fail (counted : Bool)
  deriving DecidableEq, Repr

/-- The branches of `handle_exception`: a missing model retries uncounted while the job
is young, a retryable error always retries, anything else while retries remain;
`cli/worker.py:1185–1276`. -/
def dispositionOf (cfg : WorkerConfig) (now : Time) (exc : JobException) (r : Job) :
    Disposition :=
  match exc with
  | .transientRegistryError seconds _ =>
    if datetimeNow now - r.createDate < cfg.transientRegistryMaxAgeSeconds * second then
      .retry (if seconds.getD 0 = 0 then cfg.registryCheckInterval else seconds.getD 0) false
    else .fail false
  | .retryableJobError seconds ignoreRetry =>
    let attempts := if ignoreRetry then r.attemptsRead else r.attemptsRead + 1
    .retry (seconds.getD (backoffSeconds attempts cfg.maxBackoffSeconds)) !ignoreRetry
  | .exception =>
    if r.maxRetriesRead = 0 ∨ r.attemptsRead + 1 ≤ r.maxRetriesRead then
      .retry (backoffSeconds (r.attemptsRead + 1) cfg.maxBackoffSeconds) true
    else .fail true

/-- The row `handle_exception` writes; `cli/worker.py:1178–1295`. -/
def handledRow (now : Time) (traceback : String) (d : Disposition) (r : Job) : Job :=
  match d with
  | .retry delaySeconds counted =>
    { r with
      excInfo := some traceback
      attempts := if counted then some (r.attemptsRead + 1) else r.attempts
      state := .pending
      scheduledAt := some (datetimeNow now + delaySeconds * second)
      workerId := none
      heartbeat := none
      writeDate := now }
  | .fail counted =>
    { r with
      excInfo := some traceback
      attempts := if counted then some (r.attemptsRead + 1) else r.attempts
      state := .failed
      completedAt := some (datetimeNow now)
      duration := (r.startedAt.map fun t ↦ max 0 (datetimeNow now - t)) <|> r.duration
      scheduledAt := none
      workerId := none
      heartbeat := none
      writeDate := now }

/-- Writing a handled row keeps its identity key. -/
theorem identityKey_handledRow (now : Time) (traceback : String) (d : Disposition) (r : Job) :
    (handledRow now traceback d r).identityKey = r.identityKey := by
  cases d <;> rfl

/-- `handle_exception`: no guard on the state or on the worker;
`cli/worker.py:1176–1313`. -/
def handleException (cfg : WorkerConfig) (now : Time) (exc : JobException)
    (traceback : String) (s : Store) (job : JobId) : Except OrmError Store :=
  match s.get? job with
  | none => .ok s
  | some r =>
    let d := dispositionOf cfg now exc r
    match s.write job (handledRow now traceback d) (identityKey_handledRow now traceback d) with
    | .error e => .error e
    | .ok s =>
      match d with
      | .retry _ _ => .ok s
      | .fail _ => .ok (cascadeFailureToDependents now s job)

/-- `handle_exception` on a job that is gone. -/
theorem handleException_of_absent {cfg : WorkerConfig} {now : Time} {exc : JobException}
    {traceback : String} {s : Store} {job : JobId} (hr : s.get? job = none) :
    handleException cfg now exc traceback s job = .ok s := by
  rw [handleException, hr]

/-- `handle_exception` on a job that exists: one write, and behind a failure both
cascades. -/
theorem handleException_eq {cfg : WorkerConfig} {now : Time} {exc : JobException}
    {traceback : String} {s s' : Store} {job : JobId} {r : Job}
    (h : handleException cfg now exc traceback s job = .ok s') (hr : s.get? job = some r) :
    ∃ s₁, s.write job (handledRow now traceback (dispositionOf cfg now exc r))
        (identityKey_handledRow now traceback _) = .ok s₁ ∧
      s' = match dispositionOf cfg now exc r with
        | .retry _ _ => s₁
        | .fail _ => cascadeFailureToDependents now s₁ job := by
  unfold handleException at h
  rw [hr] at h
  dsimp only at h
  split at h
  · cases h
  · next s₁ hw =>
    refine ⟨s₁, hw, ?_⟩
    cases hd : dispositionOf cfg now exc r with
    | retry delaySeconds counted => rw [hd] at h; cases h; rfl
    | fail counted => rw [hd] at h; cases h; rfl

end JobWorker
