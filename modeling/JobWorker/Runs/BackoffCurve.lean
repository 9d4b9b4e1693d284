import JobWorker.Runs.BoundedAttempts
import JobWorker.Runs.TimeoutPacing

/-!
# One backoff curve

A retry should wait ten seconds behind the first failure that counts, and twice as long behind
each further one, up to `max_backoff_seconds`. `handle_exception` computes the delay when the
failure is counted; `_handle_timeout` computes it before, and takes one doubling off
(`job_worker/cli/worker.py:857–902,1233–1273`). The counter it reads holds the failures of earlier
attempts only: a pickup does not count (`cli/worker.py:655–667`).
-/

namespace JobWorker
namespace World

/-- The event counts a failed attempt of job `j`, under a worker or under `run_now`. -/
def countsAttempt (w : World) (j : JobId) : Event → Bool
  | .runNow job run => job == j && run.counted
  | e => w.countsFailure j e

/-- `button_requeue` starts the counter of job `j` again. -/
def restartsCounter (w : World) (j : JobId) : Event → Bool
  | .buttonRequeue self => (requeuedJobs w.now w.store self).contains j
  | _ => false

/-- How many attempts of job `j` have been counted as failed since it was last requeued. -/
def countedFailures (j : JobId) : List (World × Event) → Nat
  | [] => 0
  | (w, e) :: past =>
    if w.restartsCounter j e then 0
    else if w.countsAttempt j e then countedFailures j past + 1
    else countedFailures j past

/-- The `k`-th failure of a job, now and under attempt `a`: whichever way the attempt fails, the
retry waits for the `k`-th delay of the curve. -/
structure OnCurve (w : World) (a : Attempt) (k : Nat) : Prop where
  raised : ∀ exc traceback s' r', exc = .exception ∨ exc = .retryableJobError none false →
    JobWorker.handleException a.cfg w.now exc traceback w.store a.job = .ok s' →
    s'.get? a.job = some r' → r'.state = .pending → r'.scheduledAt =
      some (datetimeNow w.now + min (10 * 2 ^ (k - 1)) a.cfg.maxBackoffSeconds * second)
  timedOut : ∀ timeout r, w.store.get? a.job = some r → r.ownedBy a.cfg.workerUuid = true →
    exhausted r = false → timeoutRaises a.cfg w.store a.job = false ∧
      ∃ r', (JobWorker.handleTimeout a.cfg timeout w.now w.store a.job).get? a.job = some r' ∧
        r'.scheduledAt =
          some (w.now + min (10 * 2 ^ (k - 1)) a.cfg.maxBackoffSeconds * second)

/-- An attempt that can time out with a retry left is the first, or both its delay and the one
before have reached the cap, in the range of double precision. -/
def FirstOrCapped (w : World) (a : Attempt) (k : Nat) : Prop :=
  ∀ r, w.store.get? a.job = some r → r.ownedBy a.cfg.workerUuid = true → exhausted r = false →
    k = 1 ∨ k ≤ 1022 ∧ a.cfg.maxBackoffSeconds ≤ 10 * 2 ^ (k - 2)

/-- The counter of a row is its history, and the row has a limit. -/
def CountsHistory (j : JobId) (past : List (World × Event)) (r : Job) : Prop :=
  r.attempts = some (countedFailures j past : Int) ∧ ∃ m, r.maxRetries = some m

section BackoffCurve

variable {past : List (World × Event)} {w : World} {e : Event} {s' : Store} {j : JobId}
  {r r' : Job} {a : Attempt}

section Acquire

variable {cfg : WorkerConfig} {limits : QueueLimits} {locked : JobId → Bool}

/-- An acquire counts the attempt that it finds started. -/
theorem attempts_acquireJobLock (hr : w.store.get? j = some r)
    (hr' : (JobWorker.acquireJobLock cfg limits locked w.now w.store).1.get? j = some r') :
    r'.attempts = r.countedIf (w.countsFailure j (.acquireJobLock cfg limits locked)) := by
  have hs : w.store.stateOf j = some r.state := by rw [Store.stateOf, hr]; rfl
  have hs' : (JobWorker.acquireJobLock cfg limits locked w.now w.store).1.stateOf j =
      some r'.state := by rw [Store.stateOf, hr']; rfl
  cases rowAcquired hr hr' with
  | acquired hex ha =>
    rw [countsFailure, hex, hs, WorkerConfig.acquiredRow]
    rcases WorkerConfig.state_of_acquirable ha with hp | ⟨hstarted, _⟩
    · simp only [hp]
      rfl
    · simp [hstarted, WorkerConfig.reclaimRow]
  | workerDied hex hstarted =>
    rw [countsFailure, hex, hs, hs', hstarted]
    rfl
  | passed hex hcasc =>
    rw [countsFailure_passed hs hs' hex hcasc, hcasc.attempts]
    rfl

end Acquire

/-- The counter of a row behind an event. -/
theorem attempts_of_commits (hc : w.Commits e s') (hr : w.store.get? j = some r)
    (hr' : s'.get? j = some r') : r'.attempts =
      if w.restartsCounter j e then some 0 else r.countedIf (w.countsAttempt j e) := by
  have hsame (h : w.store.SameCounters s') : r'.attempts = r.attempts := by
    obtain ⟨q, hq, hattempts⟩ := h.row hr
    obtain rfl : q = r' := Option.some.inj (hq.symm.trans hr')
    exact hattempts
  have hon {job : JobId} {counted : Bool} (h : w.store.CountsOn job counted s') :
      r'.attempts = r.countedIf (job == j && counted) := by
    obtain ⟨q, hq, hattempts⟩ := h.row hr
    obtain rfl : q = r' := Option.some.inj (hq.symm.trans hr')
    rw [hattempts, BEq.comm]
  have hupdate {p : JobId → Job → Bool} {f : JobId → Job → Job} {hk : w.store.Keeps p f}
      (hs : w.store.update p f hk = s') (hf : ∀ i q, (f i q).attempts = q.attempts) :
      r'.attempts = r.attempts := by
    subst hs
    exact hsame (Store.rowwise_update hk (fun _ _ ↦ rfl) fun i q _ _ ↦ hf i q)
  cases hc with
  | tick | die => exact congrArg Job.attempts (Option.some.inj (hr'.symm.trans hr))
  | enqueue h =>
    have hkept : s'.get? j = some r := by
      rcases enqueue_cases h with ⟨rfl, _⟩ | ⟨eta, _, _, hcreate⟩
      · exact hr
      · exact Store.get?_create_of_some hcreate hr
    exact congrArg Job.attempts (Option.some.inj (hr'.symm.trans hkept))
  | acquireJobLock => exact attempts_acquireJobLock hr hr'
  | heartbeatJob | updateHeartbeats | handleTimeout | clearWorkerOwnership =>
    exact hupdate rfl fun _ _ ↦ rfl
  | finalizeJob _ h =>
    obtain ⟨s₁, hw, h⟩ := bind_eq_ok.mp h
    cases h
    have hwritten : w.store.SameCounters s₁ := sameCounters_write hw fun _ ↦ rfl
    exact hsame (hwritten.trans (cascadesTo_cascadeSuccessToDependents w.now s₁ _).sameCounters)
  | @handleException a exc traceback _ _ h =>
    cases hq : w.store.get? a.job with
    | none =>
      rw [handleException_of_absent hq] at h
      cases h
      have hne : a.job ≠ j := by
        rintro rfl
        cases hq.symm.trans hr
      have hn : w.countsAttempt j (.handleException a exc traceback) = false :=
        Bool.and_eq_false_imp.mpr fun hj ↦ absurd (beq_iff_eq.mp hj) hne
      rw [hn]
      exact congrArg Job.attempts (Option.some.inj (hr'.symm.trans hr))
    | some q => exact hon (countsOn_handleException h hq)
  | runNow _ h => exact hon (countsOn_runJob h)
  | buttonSetToDone _ h => exact hsame (sameCounters_buttonSetToDone h)
  | buttonSetToFailed _ h => exact hsame (sameCounters_buttonSetToFailed h)
  | @buttonRequeue self _ _ h =>
    obtain ⟨q, hq, hattempts⟩ := (rowwise_buttonRequeue h).row hr
    obtain rfl : q = r' := Option.some.inj (hq.symm.trans hr')
    rw [hattempts, restartsCounter]
    simp only [List.contains_iff_mem]
    rfl
  | buttonCancelled _ h => exact hsame (sameCounters_buttonCancelled h)

/-- A job without a row has no failure that an event could count. -/
theorem countsAttempt_of_absent (h : Reachable (fun _ _ ↦ True) w) (hc : w.Commits e s')
    (hn : w.store.get? j = none) : w.countsAttempt j e = false := by
  have hstate : w.store.stateOf j = none := by rw [Store.stateOf, hn]; rfl
  have hne {i : JobId} {q : Job} (hq : w.store.get? i = some q) : i ≠ j := by
    rintro rfl
    cases hq.symm.trans hn
  cases hc with
  | acquireJobLock => exact Bool.and_eq_false_imp.mpr fun hs ↦ by rw [hstate] at hs; cases hs
  | handleException ha =>
    obtain ⟨q, hq, _⟩ := h.attemptsRun _ ha
    exact Bool.and_eq_false_imp.mpr fun hj ↦ absurd (beq_iff_eq.mp hj) (hne hq)
  | runNow hexist =>
    obtain ⟨q, hq⟩ := hexist _ List.mem_cons_self
    exact Bool.and_eq_false_imp.mpr fun hj ↦ absurd (beq_iff_eq.mp hj) (hne hq)
  | _ => rfl

/-- In every run the counters are the history, and a job without a row has none. -/
theorem Trace.countsHistory (h : Trace past w) :
    (w.store.get? j = none → countedFailures j past = 0) ∧
      ∀ r, w.store.get? j = some r → CountsHistory j past r := by
  induction h with
  | init =>
    refine ⟨fun _ ↦ rfl, fun r hr ↦ ?_⟩
    cases (Store.get?_empty j).symm.trans hr
  | @step past w w' e h hs ih =>
    obtain ⟨s', hc, rfl⟩ := hs
    have habsent (hn : w.store.get? j = none) : countedFailures j ((w, e) :: past) = 0 := by
      rw [countedFailures, countsAttempt_of_absent h.reachable hc hn, ih.1 hn]
      simp
    refine ⟨fun hn ↦ ?_, fun r' hr' ↦ ?_⟩
    · cases hr : w.store.get? j with
      | none => exact habsent hr
      | some r =>
        obtain ⟨r', hr', _⟩ := hc.row hr
        cases hr'.symm.trans hn
    · rcases hc.row_before hr' with ⟨r, hr, heffect⟩ | ⟨hn, env, args, eta, rfl, rfl⟩
      · obtain ⟨hattempts, m, hm⟩ := ih.2 r hr
        refine ⟨?_, m, (congrArg Terms.maxRetries heffect.terms).trans hm⟩
        rw [attempts_of_commits hc hr hr', countedFailures]
        split
        · rfl
        · cases w.countsAttempt j e with
          | false => exact hattempts
          | true => simp [Job.attemptsRead, hattempts]
      · refine ⟨?_, _, rfl⟩
        rw [habsent hn]
        rfl

/-- The delay that a counter of `n` puts on a retry. -/
theorem backoffSeconds_natCast (n : Nat) (cap : Int) :
    backoffSeconds n cap = Backoff.delay 10 cap (n - 1) := by
  have hn : (max ((n : Int) - 1) 0).toNat = n - 1 := by omega
  rw [backoffSeconds, hn]
  rfl

/-- Whatever is raised puts the delay of the curve on the retry. -/
theorem scheduledAt_handledRow {cfg : WorkerConfig} {now : Time} {exc : JobException}
    {traceback : String} {k : Nat} (hattempts : r.attempts = some (k : Int))
    (hexc : exc = .exception ∨ exc = .retryableJobError none false)
    (hp : (handledRow now traceback (dispositionOf cfg now exc r) r).state = .pending) :
    (handledRow now traceback (dispositionOf cfg now exc r) r).scheduledAt =
      some (datetimeNow now + min (10 * 2 ^ k) cfg.maxBackoffSeconds * second) := by
  have hread : r.attemptsRead + 1 = ((k + 1 : Nat) : Int) := by
    rw [Job.attemptsRead, hattempts]
    rfl
  have hdelay : backoffSeconds (r.attemptsRead + 1) cfg.maxBackoffSeconds =
      min (10 * 2 ^ k) cfg.maxBackoffSeconds := by
    rw [hread, backoffSeconds_natCast]
    rfl
  rcases hexc with rfl | rfl
  · rw [dispositionOf] at hp ⊢
    split at hp
    · next hretry =>
      rw [if_pos hretry, hdelay]
      rfl
    · cases hp
  · rw [← hdelay]
    rfl

/-- The schedule that a timeout puts on the row of a counter of `n`. -/
theorem scheduledAt_timeout {cfg : WorkerConfig} {timeout : Int} {now : Time} {n : Nat}
    (hattempts : r.attempts = some (n : Int)) (hp : pacesTimeout r = true) :
    (timeoutRow cfg timeout now r).scheduledAt =
      some (now + Backoff.delay 10 cfg.maxBackoffSeconds (n - 1) * second) := by
  rw [scheduledAt_timeoutRow hp, hattempts, Option.getD_some, backoffSeconds_natCast]

/-- One doubling less changes the delay, unless there is none or the cap is reached. -/
theorem delay_pred_eq_iff (n : Nat) (cap : Int) :
    Backoff.delay 10 cap (n - 1) = Backoff.delay 10 cap n ↔ n = 0 ∨ cap ≤ 10 * 2 ^ (n - 1) := by
  cases n with
  | zero => simp
  | succ n =>
    rw [Nat.add_sub_cancel, Backoff.delay_eq_delay_succ_iff (by decide)]
    simp

/-- The delay of a timeout is on the curve of an attempt exactly when it is its first or both
delays have reached the cap, in range. -/
theorem timedOut_iff {timeout : Int} {n : Nat} (hr : w.store.get? a.job = some r)
    (ho : r.ownedBy a.cfg.workerUuid = true) (hattempts : r.attempts = some (n : Int))
    (hp : pacesTimeout r = true) :
    (timeoutRaises a.cfg w.store a.job = false ∧
      ∃ r', (JobWorker.handleTimeout a.cfg timeout w.now w.store a.job).get? a.job = some r' ∧
        r'.scheduledAt = some (w.now + min (10 * 2 ^ n) a.cfg.maxBackoffSeconds * second)) ↔
      n = 0 ∨ n ≤ 1021 ∧ a.cfg.maxBackoffSeconds ≤ 10 * 2 ^ (n - 1) := by
  have hrange : timeoutRaises a.cfg w.store a.job = false ↔ n ≤ 1021 := by
    rw [timeoutRaises_eq_false_iff hr ho, hattempts, Option.getD_some]
    simp only [hp, true_implies]
    omega
  have hsame : Backoff.delay 10 a.cfg.maxBackoffSeconds (n - 1) * second =
      Backoff.delay 10 a.cfg.maxBackoffSeconds n * second ↔
      n = 0 ∨ a.cfg.maxBackoffSeconds ≤ 10 * 2 ^ (n - 1) := by
    rw [← delay_pred_eq_iff]
    exact Int.mul_eq_mul_right_iff (by decide)
  rw [hrange, get?_handleTimeout_self hr ho]
  simp only [Option.some.injEq, exists_eq_left', scheduledAt_timeout hattempts hp]
  constructor
  · rintro ⟨hn, h⟩
    have hdelay := hsame.mp (Int.add_left_cancel h)
    omega
  · intro h
    refine ⟨by omega, congrArg (w.now + ·) (hsame.mpr ?_)⟩
    omega

/-- In every run an attempt is on the curve, whichever way it fails next, exactly when it is the
first or both delays have reached the cap. -/
theorem onCurve_iff (h : Trace past w) (ha : a ∈ w.attempts) :
    OnCurve w a (countedFailures a.job past + 1) ↔
      FirstOrCapped w a (countedFailures a.job past + 1) := by
  obtain ⟨r, hr, _⟩ := h.reachable.attemptsRun a ha
  obtain ⟨hattempts, m, hm⟩ := h.countsHistory.2 r hr
  generalize countedFailures a.job past = n at hattempts ⊢
  -- With a limit and a counter, the CASE paces the row exactly where a retry follows.
  have hpaces (he : exhausted r = false) : pacesTimeout r = true := by
    rw [exhausted_eq_false_iff hm, hattempts] at he
    rw [pacesTimeout_eq_true_iff hm, hattempts]
    exact he
  constructor
  · intro hcurve q hq ho he
    obtain rfl : r = q := Option.some.inj (hr.symm.trans hq)
    have htimeout := (timedOut_iff hr ho hattempts (hpaces he)).mp (hcurve.timedOut 0 r hr ho he)
    show n + 1 = 1 ∨ n + 1 ≤ 1022 ∧ a.cfg.maxBackoffSeconds ≤ 10 * 2 ^ (n - 1)
    omega
  · intro hcond
    constructor
    · rintro exc traceback s' r' hexc hs' hr' hp
      rw [get?_handleException_self hs' hr, Option.some.injEq] at hr'
      subst hr'
      exact scheduledAt_handledRow hattempts hexc hp
    · intro timeout q hq ho he
      obtain rfl : r = q := Option.some.inj (hr.symm.trans hq)
      refine (timedOut_iff hr ho hattempts (hpaces he)).mpr ?_
      have hfirst : n + 1 = 1 ∨ n + 1 ≤ 1022 ∧ a.cfg.maxBackoffSeconds ≤ 10 * 2 ^ (n - 1) :=
        hcond r hr ho he
      omega

end BackoffCurve

/-! ### The second failure of a job -/

/-- A job with the default limit. -/
def enqueuePing : Event := .enqueue {} { modelName := "res.partner", methodName := "ping" }

/-- The first attempt raises, and the second is running. -/
def raisesOnce : List Event := [
  enqueuePing, acquireOnce, .handleException ⟨1, { workerUuid := 0 }, 1⟩ .exception "",
  .tick 10000000, acquireOnce]

/-- The first attempt is on the curve. -/
theorem onCurve_iff_first : ∃ past w, Trace past w ∧
    OnCurve w ⟨1, { workerUuid := 0 }, 1⟩ (countedFailures 1 past + 1) := by
  have hrun : (script [] (init 0) [enqueuePing, acquireOnce]).map (fun (past, w) ↦
      (countedFailures 1 past, decide (⟨1, { workerUuid := 0 }, 1⟩ ∈ w.attempts))) =
      some (0, true) := by decide +kernel
  obtain ⟨⟨past, w⟩, hs, hw⟩ := Option.map_eq_some_iff.mp hrun
  simp only [Prod.mk.injEq, decide_eq_true_eq] at hw
  have htrace := trace_of_script (.init 0) hs
  refine ⟨past, w, htrace, (onCurve_iff htrace hw.2).mpr fun r _ _ _ ↦ .inl ?_⟩
  rw [hw.1]

/-- A second attempt that times out waits as long as the first. -/
theorem not_onCurve_raisesOnce : ¬ ∀ (past : List (World × Event)) (w : World) (a : Attempt),
    Trace past w → a ∈ w.attempts → OnCurve w a (countedFailures a.job past + 1) := by
  intro hall
  have hrun : (script [] (init 0) raisesOnce).map (fun (past, w) ↦ (countedFailures 1 past,
      decide (⟨4, { workerUuid := 0 }, 1⟩ ∈ w.attempts),
      (w.store.get? 1).map fun r ↦ decide (r.ownedBy 0 = true ∧ exhausted r = false ∧
        r.attempts = some 1 ∧ pacesTimeout r = true))) =
      some (1, true, some true) := by decide +kernel
  obtain ⟨⟨past, w⟩, hs, hw⟩ := Option.map_eq_some_iff.mp hrun
  simp only [Prod.mk.injEq, decide_eq_true_eq, Option.map_eq_some_iff] at hw
  obtain ⟨hn, ha, r, hr, ho, he, hattempts, hp⟩ := hw
  have hcurve := hall past w _ (trace_of_script (.init 0) hs) ha
  rw [hn] at hcurve
  -- The counter is one: ten seconds, where the curve has twenty.
  have hfirst := (timedOut_iff (n := 1) hr ho hattempts hp).mp (hcurve.timedOut 60 r hr ho he)
  simp at hfirst

end World
end JobWorker
