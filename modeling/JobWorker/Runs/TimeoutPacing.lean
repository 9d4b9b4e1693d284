import JobWorker.Runs.LostClaims
import Mathlib.Algebra.Order.Ring.Int

/-!
# Timeouts and reclaims on exhausted attempts

`_handle_timeout` paces the next attempt unless there will be none, a CASE in SQL with
`COALESCE(attempts, 1)`; the reclaim of `acquire_job_lock` decides whether there is one, in Python
with `attempts or 0` (`job_worker/cli/worker.py:684–707,857–902`). The two take a NULL, and a
counter whose backoff is out of range, differently.
-/

namespace JobWorker

/-- `_handle_timeout` sets `scheduled_at` of the row in the future. -/
def TimeoutPaces (cfg : WorkerConfig) (timeout : Int) (now : Time) (s : Store)
    (job : JobId) : Prop :=
  timeoutRaises cfg s job = false ∧ (∃ r, s.get? job = some r ∧ pacesTimeout r = true) ∧
    ∃ r t, (handleTimeout cfg timeout now s job).get? job = some r ∧
      r.scheduledAt = some t ∧ now < t

/-- `acquire_job_lock` comes to the started row of `job`, with the counter and the limit
of `r`. -/
structure Reclaims (cfg : WorkerConfig) (limits : QueueLimits) (locked : JobId → Bool)
    (now : Time) (s : Store) (job : JobId) (r : Job) : Prop where
  found : (cfg.candidates limits now s).find? (fun i ↦ !locked i) = some job
  unchanged : ∃ q, s.get? job = some q ∧ q.state = .started ∧ q.attempts = r.attempts ∧
    q.maxRetries = r.maxRetries

/-- Neither NULL decides, and the backoff is in the range of double precision where there is a
next attempt. -/
def Job.SameExhaustion (r : Job) : Prop :=
  ∃ m, r.maxRetries = some m ∧ (r.attempts = none → m ≠ 1) ∧
    (r.attempts.getD 1 ≤ 1021 ∨ m ≠ 0 ∧ m ≤ r.attempts.getD 1)

section TimeoutPacing

variable {cfg other : WorkerConfig} {limits : QueueLimits} {locked : JobId → Bool}
  {timeout : Int} {now later : Time} {s t : Store} {job : JobId} {r : Job}

/-- The CASE on the row of a limit. -/
theorem pacesTimeout_eq_true_iff {m : Int} (hm : r.maxRetries = some m) :
    pacesTimeout r = true ↔ m = 0 ∨ r.attempts.getD 1 < m := by
  simp [pacesTimeout, hm]

/-- No limit, no pace. -/
theorem pacesTimeout_eq_false (hm : r.maxRetries = none) : pacesTimeout r = false := by
  simp [pacesTimeout, hm]

/-- The rule of the reclaim, on the row of a limit. -/
theorem exhausted_eq_false_iff {m : Int} (hm : r.maxRetries = some m) :
    exhausted r = false ↔ m = 0 ∨ r.attempts.getD 0 + 1 ≤ m := by
  simp only [exhausted, Job.maxRetriesRead, Job.attemptsRead, hm, Option.getD_some,
    Bool.and_eq_false_iff, bne_eq_false_iff_eq, decide_eq_false_iff_not, not_lt]

/-- Ten times a power of two is out of range from the 1022nd attempt on. -/
theorem doubleBound_le_iff :
    Backoff.doubleBound ≤ 10 * 2 ^ timeoutDoublings r ↔ 1021 < r.attempts.getD 1 := by
  rw [← not_lt, Backoff.mul_two_pow_lt_doubleBound (k := 3) (by decide) (by decide),
    timeoutDoublings]
  omega

/-- The statement on a held row raises where it paces the row out of range. -/
theorem timeoutRaises_eq_false_iff (hr : s.get? job = some r)
    (ho : r.ownedBy cfg.workerUuid = true) :
    timeoutRaises cfg s job = false ↔ (pacesTimeout r = true → r.attempts.getD 1 ≤ 1021) := by
  rw [timeoutRaises, hr, Option.any_some, ho, Bool.true_and, Bool.and_eq_false_imp,
    decide_eq_false_iff_not, doubleBound_le_iff, not_lt]

/-- A delay is at least a second. -/
theorem backoffSeconds_pos (attempts : Int) (cfg : WorkerConfig) :
    0 < backoffSeconds attempts cfg.maxBackoffSeconds := by
  have hcap := cfg.ten_le_maxBackoffSeconds
  exact Backoff.delay_pos (by decide) (by omega) (max (attempts - 1) 0).toNat

/-- The held row behind a timeout. -/
theorem get?_handleTimeout_self (hr : s.get? job = some r)
    (ho : r.ownedBy cfg.workerUuid = true) :
    (handleTimeout cfg timeout now s job).get? job = some (timeoutRow cfg timeout now r) := by
  refine (Store.get?_update _ _ _ _ _).trans ?_
  rw [hr, Option.map_some, beq_self_eq_true, ho]
  rfl

/-- The schedule of a row that the CASE paces. -/
theorem scheduledAt_timeoutRow (hp : pacesTimeout r = true) :
    (timeoutRow cfg timeout now r).scheduledAt =
      some (now + backoffSeconds (r.attempts.getD 1) cfg.maxBackoffSeconds * second) := by
  rw [pacesTimeout, Bool.or_eq_true, decide_eq_true_iff] at hp
  exact if_pos hp

/-- The timeout of a held row paces it where the CASE does and the statement does not raise. -/
theorem timeoutPaces_iff (hr : s.get? job = some r) (ho : r.ownedBy cfg.workerUuid = true) :
    TimeoutPaces cfg timeout now s job ↔ pacesTimeout r = true ∧ r.attempts.getD 1 ≤ 1021 := by
  rw [TimeoutPaces, timeoutRaises_eq_false_iff hr ho, get?_handleTimeout_self hr ho, hr]
  constructor
  · rintro ⟨hraises, ⟨q, hq, hp⟩, _⟩
    obtain rfl := Option.some.inj hq
    exact ⟨hp, hraises hp⟩
  · rintro ⟨hp, hrange⟩
    refine ⟨fun _ ↦ hrange, ⟨r, rfl, hp⟩, _, _, rfl, scheduledAt_timeoutRow hp, ?_⟩
    exact lt_add_of_pos_right now (Int.mul_pos (backoffSeconds_pos _ cfg) (by decide))

/-- A reclaim hands out the row that is not exhausted. -/
theorem Reclaims.handedOut_iff (h : Reclaims cfg limits locked now s job r) :
    (acquireJobLock cfg limits locked now s).2 = some job ↔ exhausted r = false := by
  obtain ⟨q, hq, hstarted, hattempts, hmax⟩ := h.unchanged
  have hsame : exhausted q = exhausted r := by
    unfold exhausted Job.maxRetriesRead Job.attemptsRead
    rw [hattempts, hmax]
  rw [acquireJobLock_of_find h.found hq, acquireRow, if_neg (by simp [hstarted]), hsame]
  cases exhausted r <;> simp

/-- Timeout and reclaim agree on whether there is a next attempt exactly where no NULL decides
and the backoff is in range. -/
theorem timeoutPaces_iff_handedOut_iff (hr : s.get? job = some r)
    (ho : r.ownedBy cfg.workerUuid = true) (h : Reclaims other limits locked later t job r) :
    (TimeoutPaces cfg timeout now s job ↔
      (acquireJobLock other limits locked later t).2 = some job) ↔ r.SameExhaustion := by
  rw [timeoutPaces_iff hr ho, h.handedOut_iff, Job.SameExhaustion]
  cases hm : r.maxRetries with
  | none => simp [pacesTimeout_eq_false hm, exhausted, Job.maxRetriesRead, hm]
  | some m =>
    rw [pacesTimeout_eq_true_iff hm, exhausted_eq_false_iff hm]
    cases r.attempts with
    | none =>
      simp
      omega
    | some a =>
      simp
      omega

/-! ### A row without a counter -/

/-- Worker 0 holds job 1, whose row has this counter and this limit. -/
def heldWith (attempts maxRetries : Option Int) : Except OrmError Store := do
  let (s, _) ← enqueue {} 0 .empty { modelName := "res.partner", methodName := "ping" }
  return (World.acquired 0 0 s).1.updateRow 1
    (fun r ↦ { r with attempts := attempts, maxRetries := maxRetries }) fun _ _ ↦ ⟨rfl, id⟩

/-- The attempt overruns its timeout of a minute. -/
def overrun (s : Store) : Store := handleTimeout { workerUuid := 0 } 60 61000000 s 1

/-- The row is held, and worker 1 comes to it when its heartbeat is stale. -/
def isReclaimed (attempts maxRetries : Option Int) (s : Store) : Bool :=
  ((s.get? 1).any fun r ↦ r.ownedBy 0 && r.attempts == attempts && r.maxRetries == maxRetries) &&
    ((overrun s).get? 1).any (fun q ↦ q.state == .started && q.attempts == attempts &&
      q.maxRetries == maxRetries) &&
    (WorkerConfig.candidates { workerUuid := 1 } (fun _ ↦ none) 100000000 (overrun s)).find?
      (fun _ ↦ true) == some 1

/-- Such a row. -/
theorem exists_reclaims {attempts maxRetries : Option Int}
    (h : (heldWith attempts maxRetries).toOption.any (isReclaimed attempts maxRetries) = true) :
    ∃ s r, s.get? 1 = some r ∧ r.ownedBy 0 = true ∧ r.attempts = attempts ∧
      r.maxRetries = maxRetries ∧ Reclaims { workerUuid := 1 } (fun _ ↦ none) (fun _ ↦ false)
        100000000 (overrun s) 1 r := by
  obtain ⟨s, _, hs⟩ := (Option.any_eq_true _ _).mp h
  simp only [isReclaimed, Bool.and_eq_true, beq_iff_eq, Option.any_eq_true] at hs
  obtain ⟨⟨⟨r, hr, ⟨ho, rfl⟩, rfl⟩, q, hq, ⟨hstarted, hattempts⟩, hmax⟩, hfound⟩ := hs
  exact ⟨s, r, hr, ho, rfl, rfl, hfound, q, hq, hstarted, hattempts, hmax⟩

/-- The second of three attempts is paced, and handed out. -/
theorem timeoutPaces_iff_handedOut_second : ∃ s : Store, TimeoutPaces { workerUuid := 0 } 60
    61000000 s 1 ∧ (acquireJobLock { workerUuid := 1 } (fun _ ↦ none) (fun _ ↦ false)
      100000000 (overrun s)).2 = some 1 := by
  obtain ⟨s, r, hr, ho, ha, hm, h⟩ := exists_reclaims
    (show (heldWith (some 1) (some 3)).toOption.any (isReclaimed (some 1) (some 3)) = true by
      decide +kernel)
  have hpaces : TimeoutPaces { workerUuid := 0 } 60 61000000 s 1 := by
    rw [timeoutPaces_iff hr ho, pacesTimeout_eq_true_iff hm, ha]
    decide
  have hsame : r.SameExhaustion := ⟨3, hm, by simp [ha]⟩
  exact ⟨s, hpaces, ((timeoutPaces_iff_handedOut_iff hr ho h).mpr hsame).mp hpaces⟩

/-- Without a counter the timeout takes the attempt for the last, and the reclaim hands out
another. -/
theorem not_timeoutPaces_iff_handedOut : ¬ ∀ (cfg other : WorkerConfig) (limits : QueueLimits)
    (locked : JobId → Bool) (timeout : Int) (now later : Time) (s t : Store) (job : JobId)
    (r : Job), s.get? job = some r → r.ownedBy cfg.workerUuid = true →
      Reclaims other limits locked later t job r → (TimeoutPaces cfg timeout now s job ↔
        (acquireJobLock other limits locked later t).2 = some job) := by
  intro hall
  obtain ⟨s, r, hr, ho, ha, hm, h⟩ := exists_reclaims
    (show (heldWith none (some 1)).toOption.any (isReclaimed none (some 1)) = true by
      decide +kernel)
  have hagree := hall { workerUuid := 0 } _ _ _ 60 61000000 _ s _ 1 r hr ho h
  rw [timeoutPaces_iff hr ho, h.handedOut_iff, pacesTimeout_eq_true_iff hm,
    exhausted_eq_false_iff hm, ha] at hagree
  simp at hagree

end TimeoutPacing

end JobWorker
