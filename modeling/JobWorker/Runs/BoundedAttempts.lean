import JobWorker.Cascades.Counters
import JobWorker.History
import JobWorker.RowEffects

/-!
# The attempts of a job that always fails

Attempts are counted by `handle_exception` and by the reclaim branch of `acquire_job_lock`
(`job_worker/cli/worker.py:670–762,1176–1297`). In runs in which every attempt of a job
ends in a counted failure, the counter is the number of failures. The give-up decision is
taken in both places, but not for a `RetryableJobError`.
-/

namespace JobWorker

namespace World

/-- The event acquires job `j`. -/
def acquires (w : World) (j : JobId) : Event → Bool
  | .acquireJobLock cfg limits locked =>
    (acquireJobLock cfg limits locked w.now w.store).2 == some j
  | _ => false

/-- The event counts a failed attempt of job `j`: an exception, or a reclaim that runs the
job again or fails it. -/
def countsFailure (w : World) (j : JobId) : Event → Bool
  | .handleException a exc _ => a.job == j && exc.counted
  | .acquireJobLock cfg limits locked =>
    w.store.stateOf j == some .started &&
      (w.acquires j (.acquireJobLock cfg limits locked) ||
        (acquireJobLock cfg limits locked w.now w.store).1.stateOf j == some .failed)
  | _ => false

/-- How often job `j` has been acquired. -/
def executions (j : JobId) (past : List (World × Event)) : Nat :=
  past.countP fun p ↦ p.1.acquires j p.2

/-- How many attempts of job `j` have been counted as failed. -/
def failures (j : JobId) (past : List (World × Event)) : Nat :=
  past.countP fun p ↦ p.1.countsFailure j p.2

/-- Every attempt of job `j` ends in a counted failure, at most once, and no user calls a
method on the job. -/
def FailsEachAttempt (j : JobId) (w : World) : Event → Prop
  | .finalizeJob a _ => a.job ≠ j
  | .handleException a exc _ =>
    a.job = j → exc.counted = true ∧ w.store.stateOf j = some .started
  | e => j ∉ calledOn e

instance (j : JobId) (w : World) : ∀ e, Decidable (FailsEachAttempt j w e)
  | .finalizeJob a _ => inferInstanceAs (Decidable (a.job ≠ j))
  | .handleException a exc _ => inferInstanceAs (Decidable
    (a.job = j → exc.counted = true ∧ w.store.stateOf j = some .started))
  | .tick _ | .enqueue _ _ | .acquireJobLock _ _ _ | .heartbeatJob _ | .updateHeartbeats _
  | .handleTimeout _ _ | .clearWorkerOwnership _ | .die _ | .runNow _ _ | .buttonSetToDone _
  | .buttonSetToFailed _ | .buttonRequeue _ | .buttonCancelled _ =>
    inferInstanceAs (Decidable (j ∉ calledOn _))

/-- Attempts are the counted failures, there are at most `max_retries + 1` executions, and
the failure that exceeds `max_retries` is the last. -/
def AttemptsBounded (j : JobId) (past : List (World × Event)) (w : World) : Prop :=
  ∀ r, w.store.get? j = some r → 0 < r.maxRetriesRead →
    r.attempts = some (failures j past : Int) ∧
    (executions j past : Int) ≤ r.maxRetriesRead + 1 ∧
    (r.maxRetriesRead + 1 ≤ failures j past → r.state = .failed)

/-- A `RetryableJobError` of job `j` is raised while retries remain. -/
def RetriesRemain (j : JobId) (w : World) : Event → Prop
  | .handleException a (.retryableJobError _ _) _ => a.job = j → ∀ r,
    w.store.get? j = some r → 0 < r.maxRetriesRead → r.attemptsRead < r.maxRetriesRead
  | _ => True

/-- The counter of a row against the history: a started job is in the attempt behind its
counted failures. -/
structure CountedRow (j : JobId) (past : List (World × Event)) (r : Job) : Prop where
  attempts : r.attempts = some (failures j past : Int)
  started : r.state = .started → executions j past = failures j past + 1
  idle : r.state ≠ .started → executions j past = failures j past
  bounded : 0 < r.maxRetriesRead → (failures j past : Int) ≤ r.maxRetriesRead + 1
  remaining : 0 < r.maxRetriesRead → r.state ≠ .failed →
    (failures j past : Int) ≤ r.maxRetriesRead

/-- The invariant of runs in which every attempt of `j` fails. -/
structure AttemptsCounted (j : JobId) (past : List (World × Event)) (w : World) : Prop where
  absent : w.store.get? j = none → executions j past = 0 ∧ failures j past = 0
  row : ∀ r, w.store.get? j = some r → CountedRow j past r

section BoundedAttempts

variable {past : List (World × Event)} {w : World} {e : Event} {s' : Store} {j : JobId}
  {r r' : Job}

/-- The executions behind an event. -/
theorem executions_cons : executions j ((w, e) :: past) =
    executions j past + if w.acquires j e then 1 else 0 := List.countP_cons

/-- The failures behind an event. -/
theorem failures_cons : failures j ((w, e) :: past) =
    failures j past + if w.countsFailure j e then 1 else 0 := List.countP_cons

/-- The bounds follow from the counts. -/
theorem AttemptsCounted.attemptsBounded (h : AttemptsCounted j past w) :
    AttemptsBounded j past w := by
  intro r hr hm
  have hrow := h.row r hr
  have hbounded := hrow.bounded hm
  have hremaining := hrow.remaining hm
  refine ⟨hrow.attempts, ?_, fun hge ↦ ?_⟩
  · by_cases hs : r.state = .started
    · have hex := hrow.started hs
      have hle := hremaining (by rw [hs]; exact fun h ↦ by cases h)
      omega
    · have hex := hrow.idle hs
      omega
  · by_contra hs
    have hle := hremaining hs
    omega

/-- A row that keeps its counter through an event that counts nothing. -/
theorem CountedRow.kept (h : CountedRow j past r) (hex : w.acquires j e = false)
    (hf : w.countsFailure j e = false) (hattempts : r'.attempts = r.attempts)
    (hmax : r'.maxRetries = r.maxRetries)
    (hstate : r'.state = r.state ∨ r.isWaiting = true ∧ r'.state ≠ .started) :
    CountedRow j ((w, e) :: past) r' := by
  have hread : r'.maxRetriesRead = r.maxRetriesRead := by
    rw [Job.maxRetriesRead, hmax, Job.maxRetriesRead]
  have hwaits (hw : r.isWaiting = true) : r.state ≠ .started ∧ r.state ≠ .failed := by
    rw [Job.isWaiting_iff.mp hw]
    exact ⟨by decide, by decide⟩
  constructor
  all_goals rw [failures_cons, hf]
  case attempts => rw [hattempts, h.attempts]; rfl
  case started =>
    rw [executions_cons, hex]
    intro hs
    rcases hstate with he | ⟨_, hn⟩
    · exact h.started (he ▸ hs)
    · exact absurd hs hn
  case idle =>
    rw [executions_cons, hex]
    intro hs
    rcases hstate with he | ⟨hw, _⟩
    · exact h.idle (he ▸ hs)
    · exact h.idle (hwaits hw).1
  case bounded => rw [hread]; exact h.bounded
  case remaining =>
    rw [hread]
    intro hm hs
    rcases hstate with he | ⟨hw, _⟩
    · exact h.remaining hm (he ▸ hs)
    · exact h.remaining hm (hwaits hw).2

/-- A pending row that is acquired. -/
theorem CountedRow.pickup (h : CountedRow j past r) (hex : w.acquires j e = true)
    (hf : w.countsFailure j e = false) (hattempts : r'.attempts = r.attempts)
    (hmax : r'.maxRetries = r.maxRetries) (hs : r.state = .pending) (hs' : r'.state = .started) :
    CountedRow j ((w, e) :: past) r' := by
  have hread : r'.maxRetriesRead = r.maxRetriesRead := by
    rw [Job.maxRetriesRead, hmax, Job.maxRetriesRead]
  have hidle := h.idle (by rw [hs]; decide)
  constructor
  all_goals rw [failures_cons, hf]
  case attempts => rw [hattempts, h.attempts]; rfl
  case started => rw [executions_cons, hex]; exact fun _ ↦ congrArg (· + 1) hidle
  case idle => exact fun hn ↦ absurd hs' hn
  case bounded => rw [hread]; exact h.bounded
  case remaining =>
    rw [hread]
    exact fun hm _ ↦ h.remaining hm (by rw [hs]; decide)

/-- A started row whose attempt is counted as failed: it is acquired again, or it leaves
`started`, and it is failed unless retries remain. -/
theorem CountedRow.counts (h : CountedRow j past r) (hs : r.state = .started)
    (hf : w.countsFailure j e = true) (hattempts : r'.attempts = some (r.attemptsRead + 1))
    (hmax : r'.maxRetries = r.maxRetries)
    (hex : w.acquires j e = true ↔ r'.state = .started)
    (hremain : 0 < r.maxRetriesRead → r'.state ≠ .failed →
      r.attemptsRead + 1 ≤ r.maxRetriesRead) :
    CountedRow j ((w, e) :: past) r' := by
  have hread : r'.maxRetriesRead = r.maxRetriesRead := by
    rw [Job.maxRetriesRead, hmax, Job.maxRetriesRead]
  have hcount : r.attemptsRead = failures j past := by
    rw [Job.attemptsRead, h.attempts, Option.getD_some]
  have hstarted := h.started hs
  have hlast : 0 < r.maxRetriesRead → (failures j past : Int) ≤ r.maxRetriesRead :=
    fun hm ↦ h.remaining hm (by rw [hs]; decide)
  rw [hcount] at hremain
  constructor
  all_goals rw [failures_cons, if_pos hf]
  case attempts => rw [hattempts, hcount]; rfl
  case started =>
    intro hs'
    rw [executions_cons, if_pos (hex.mpr hs'), hstarted]
  case idle =>
    intro hs'
    rw [executions_cons, if_neg fun h ↦ hs' (hex.mp h), hstarted]
  case bounded =>
    intro hm
    rw [hread] at hm ⊢
    exact Int.add_le_add_right (hlast hm) 1
  case remaining =>
    intro hm hs'
    rw [hread] at hm ⊢
    exact hremain hm hs'

/-- A row that an event neither acquires nor counts keeps its counter. -/
theorem RowEffect.uncounted (h : RowEffect w e j r r') (hg : FailsEachAttempt j w e)
    (hacquire : ∀ cfg limits locked, e ≠ .acquireJobLock cfg limits locked)
    (hexc : ∀ a exc traceback, e = .handleException a exc traceback → a.job ≠ j) :
    r'.attempts = r.attempts ∧ (r'.state = r.state ∨ r.isWaiting = true ∧ r'.state ≠ .started) := by
  cases h with
  | cascaded hc =>
    cases hc with
    | kept => exact ⟨rfl, .inl rfl⟩
    | written _ _ _ hw hs => exact ⟨rfl, .inr ⟨hw, hs⟩⟩
  | acquired | workerDied => exact absurd rfl (hacquire _ _ _)
  | heartbeatJob | updateHeartbeats | handleTimeout | clearWorkerOwnership =>
    exact ⟨rfl, .inl rfl⟩
  | finalizeJob => exact absurd rfl hg
  | handleException => exact absurd rfl (hexc _ _ _ rfl)
  | called hi =>
    cases e with
    | handleException | finalizeJob => cases hi
    | _ => exact absurd hi hg

/-- A job without a row is neither acquired nor counted. -/
theorem AttemptsCounted.absent_cons (h : AttemptsCounted j past w) (hg : FailsEachAttempt j w e)
    (hn : w.store.get? j = none) :
    executions j ((w, e) :: past) = 0 ∧ failures j ((w, e) :: past) = 0 := by
  have hstate : w.store.stateOf j = none := by rw [Store.stateOf, hn]; rfl
  have hex : w.acquires j e = false := by
    cases e with
    | acquireJobLock cfg limits locked =>
      rw [Bool.eq_false_iff]
      intro ho
      obtain ⟨r, hr, _⟩ := acquireJobLock_eq_some (beq_iff_eq.mp ho)
      rw [hn] at hr
      cases hr
    | _ => rfl
  have hf : w.countsFailure j e = false := by
    cases e with
    | acquireJobLock cfg limits locked => rw [countsFailure, hstate]; rfl
    | handleException a exc traceback =>
      rw [Bool.eq_false_iff]
      intro hc
      rw [countsFailure, Bool.and_eq_true, beq_iff_eq] at hc
      have hs := (hg hc.1).2
      rw [hstate] at hs
      cases hs
    | _ => rfl
  rw [executions_cons, failures_cons, hex, hf]
  exact h.absent hn

section Acquire

variable {cfg : WorkerConfig} {limits : QueueLimits} {locked : JobId → Bool}

/-- What an acquire does to the row of a job. -/
inductive RowAcquired (w : World) (cfg : WorkerConfig) (limits : QueueLimits)
    (locked : JobId → Bool) (j : JobId) (r : Job) : Job → Prop
  | acquired : w.acquires j (.acquireJobLock cfg limits locked) = true →
      cfg.acquirable w.now r = true → (r.state = .started → exhausted r = false) →
      RowAcquired w cfg limits locked j r (cfg.acquiredRow w.now r)
  | workerDied : w.acquires j (.acquireJobLock cfg limits locked) = false →
      r.state = .started → RowAcquired w cfg limits locked j r (workerDiedRow w.now r)
  | passed {r' : Job} : w.acquires j (.acquireJobLock cfg limits locked) = false →
      Cascaded w.now r r' → RowAcquired w cfg limits locked j r r'

/-- An acquire takes a row, gives it up, or passes over it. -/
theorem rowAcquired (hr : w.store.get? j = some r)
    (hr' : (JobWorker.acquireJobLock cfg limits locked w.now w.store).1.get? j = some r') :
    RowAcquired w cfg limits locked j r r' := by
  cases ho : (JobWorker.acquireJobLock cfg limits locked w.now w.store).2 with
  | some i =>
    obtain ⟨q, hq, ha, _, he, hrows⟩ := acquireJobLock_eq_some ho
    rw [hrows] at hr'
    split at hr'
    · next hi =>
      subst hi
      obtain rfl : r = q := Option.some.inj (hr.symm.trans hq)
      obtain rfl := Option.some.inj hr'
      exact .acquired (beq_iff_eq.mpr ho) ha he
    · next hi =>
      obtain rfl : r = r' := Option.some.inj (hr.symm.trans hr')
      refine .passed ?_ .kept
      rw [acquires, ho]
      simpa using fun h : i = j ↦ hi h.symm
  | none =>
    have hex : w.acquires j (.acquireJobLock cfg limits locked) = false := by
      rw [acquires, ho]
      rfl
    rcases acquireJobLock_eq_none ho with hsame | ⟨i, q, s₁, hq, _, hstarted, _, hrows, hc⟩
    · rw [hsame, hr, Option.some.injEq] at hr'
      subst hr'
      exact .passed hex .kept
    · by_cases hi : j = i
      · subst hi
        obtain rfl : r = q := Option.some.inj (hr.symm.trans hq)
        obtain ⟨r'', hr'', hcasc⟩ := hc.row ((hrows j).trans (if_pos rfl))
        rw [hr', Option.some.injEq, hcasc.eq rfl] at hr''
        subst hr''
        exact .workerDied hex hstarted
      · obtain ⟨r'', hr'', hcasc⟩ := hc.row ((hrows j).trans ((if_neg hi).trans hr))
        rw [hr', Option.some.injEq] at hr''
        subst hr''
        exact .passed hex hcasc

/-- A job that an acquire passes over is not counted: at most a cascade of the acquire writes
its row. -/
theorem countsFailure_passed (hs : w.store.stateOf j = some r.state)
    (hs' : (JobWorker.acquireJobLock cfg limits locked w.now w.store).1.stateOf j =
      some r'.state)
    (hex : w.acquires j (.acquireJobLock cfg limits locked) = false)
    (hc : Cascaded w.now r r') :
    w.countsFailure j (.acquireJobLock cfg limits locked) = false := by
  rw [countsFailure, hex, hs, hs', Bool.false_or, Bool.eq_false_iff]
  intro hf
  rw [Bool.and_eq_true, beq_iff_eq, beq_iff_eq, Option.some.injEq, Option.some.injEq] at hf
  have he := hc.eq (by rw [Job.isWaiting, hf.1]; rfl)
  rw [he, hf.1] at hf
  cases hf.2

/-- The row of a job that an acquire passes over: at most a cascade of the acquire writes
it. -/
theorem CountedRow.passed (h : CountedRow j past r) (hs : w.store.stateOf j = some r.state)
    (hs' : (JobWorker.acquireJobLock cfg limits locked w.now w.store).1.stateOf j =
      some r'.state)
    (hex : w.acquires j (.acquireJobLock cfg limits locked) = false)
    (hc : Cascaded w.now r r') :
    CountedRow j ((w, .acquireJobLock cfg limits locked) :: past) r' := by
  refine h.kept hex (countsFailure_passed hs hs' hex hc) ?_ (congrArg Terms.maxRetries hc.terms) ?_
  · cases hc <;> rfl
  · cases hc with
    | kept => exact .inl rfl
    | written _ _ _ hw hs => exact .inr ⟨hw, hs⟩

/-- The row that an acquire takes: a pending one is picked up, a started one is counted as
failed and run again. -/
theorem CountedRow.acquired (h : CountedRow j past r) (hs : w.store.stateOf j = some r.state)
    (ha : cfg.acquirable w.now r = true) (he : r.state = .started → exhausted r = false)
    (hex : w.acquires j (.acquireJobLock cfg limits locked) = true) :
    CountedRow j ((w, .acquireJobLock cfg limits locked) :: past) (cfg.acquiredRow w.now r) := by
  rcases WorkerConfig.state_of_acquirable ha with hp | ⟨hstarted, _⟩
  · rw [WorkerConfig.acquiredRow, if_neg (by rw [hp]; decide)]
    refine h.pickup hex ?_ rfl rfl hp rfl
    rw [countsFailure, hs, hp]
    rfl
  · rw [WorkerConfig.acquiredRow, if_pos hstarted]
    refine h.counts hstarted ?_ rfl rfl (iff_of_true hex rfl) fun hm _ ↦ ?_
    · rw [countsFailure, hs, hstarted, hex]
      rfl
    · have hn := he hstarted
      rw [exhausted, Bool.and_eq_false_iff] at hn
      rcases hn with hn | hn
      · rw [bne_eq_false_iff_eq] at hn
        rw [hn] at hm
        cases hm
      · exact Int.not_lt.mp (of_decide_eq_false hn)

/-- The row that an acquire gives up. -/
theorem CountedRow.workerDied (h : CountedRow j past r) (hs : w.store.stateOf j = some r.state)
    (hstarted : r.state = .started)
    (hs' : (JobWorker.acquireJobLock cfg limits locked w.now w.store).1.stateOf j =
      some .failed)
    (hex : w.acquires j (.acquireJobLock cfg limits locked) = false) :
    CountedRow j ((w, .acquireJobLock cfg limits locked) :: past) (workerDiedRow w.now r) := by
  refine h.counts hstarted ?_ rfl rfl (iff_of_false ?_ ?_) fun _ h ↦ absurd rfl h
  · rw [countsFailure, hs, hstarted, hs', hex]
    rfl
  · rw [hex]
    exact Bool.false_ne_true
  · exact fun h ↦ by cases h

/-- An acquire keeps the count. -/
theorem AttemptsCounted.acquire (h : AttemptsCounted j past w) (hr : w.store.get? j = some r)
    (hr' : (JobWorker.acquireJobLock cfg limits locked w.now w.store).1.get? j = some r') :
    CountedRow j ((w, .acquireJobLock cfg limits locked) :: past) r' := by
  have hrow := h.row r hr
  have hs : w.store.stateOf j = some r.state := by rw [Store.stateOf, hr]; rfl
  have hs' : (JobWorker.acquireJobLock cfg limits locked w.now w.store).1.stateOf j =
      some r'.state := by rw [Store.stateOf, hr']; rfl
  cases rowAcquired hr hr' with
  | acquired hex ha he => exact hrow.acquired hs ha he hex
  | workerDied hex hstarted => exact hrow.workerDied hs hstarted hs' hex
  | passed hex hcasc => exact hrow.passed hs hs' hex hcasc

end Acquire

/-- A counted exception keeps the count, if it comes while retries remain or is no
`RetryableJobError`. -/
theorem AttemptsCounted.handle (h : AttemptsCounted j past w) {a : Attempt} {exc : JobException}
    {traceback : String} (haj : a.job = j)
    (hg : FailsEachAttempt j w (.handleException a exc traceback))
    (hremain : RetriesRemain j w (.handleException a exc traceback))
    (hr : w.store.get? j = some r) : CountedRow j ((w, .handleException a exc traceback) :: past)
      (handledRow w.now traceback (dispositionOf a.cfg w.now exc r) r) := by
  obtain ⟨hcounted, hs⟩ := hg haj
  rw [Store.stateOf, hr, Option.map_some, Option.some.injEq] at hs
  have hrow := h.row r hr
  have hf : w.countsFailure j (.handleException a exc traceback) = true := by
    rw [countsFailure, haj, hcounted, beq_self_eq_true]
    rfl
  cases exc with
  | transientRegistryError => cases hcounted
  | retryableJobError seconds ignoreRetry =>
    obtain rfl : ignoreRetry = false := by simpa [JobException.counted] using hcounted
    refine hrow.counts hs hf rfl rfl (iff_of_false Bool.false_ne_true ?_) fun hm _ ↦ ?_
    · exact fun h ↦ by cases h
    · exact hremain haj r hr hm
  | exception =>
    by_cases hretry : r.maxRetriesRead = 0 ∨ r.attemptsRead + 1 ≤ r.maxRetriesRead
    · rw [dispositionOf, if_pos hretry]
      refine hrow.counts hs hf rfl rfl (iff_of_false Bool.false_ne_true ?_) fun hm _ ↦ ?_
      · exact fun h ↦ by cases h
      · exact hretry.resolve_left (Int.ne_of_gt hm)
    · rw [dispositionOf, if_neg hretry]
      refine hrow.counts hs hf rfl rfl (iff_of_false Bool.false_ne_true ?_) fun _ hn ↦ ?_
      · exact fun h ↦ by cases h
      · exact absurd rfl hn

/-- Every step keeps the count. -/
theorem AttemptsCounted.after (h : AttemptsCounted j past w) (hg : FailsEachAttempt j w e)
    (hremain : RetriesRemain j w e) (hc : w.Commits e s') :
    AttemptsCounted j ((w, e) :: past) (w.after e s') := by
  constructor
  · intro hn
    cases hr : w.store.get? j with
    | none => exact h.absent_cons hg hr
    | some r =>
      obtain ⟨r', hr', _⟩ := hc.row hr
      rw [show s'.get? j = none from hn] at hr'
      cases hr'
  · intro r' hr'
    rcases hc.row_before hr' with ⟨r, hr, heffect⟩ | ⟨hn, env, args, eta, rfl, rfl⟩
    · -- The two statements that count, and everything else.
      by_cases hacquire : ∃ cfg limits locked, e = .acquireJobLock cfg limits locked
      · obtain ⟨cfg, limits, locked, rfl⟩ := hacquire
        cases hc
        exact h.acquire hr hr'
      by_cases hexc : ∃ a exc traceback, e = .handleException a exc traceback ∧ a.job = j
      · obtain ⟨a, exc, traceback, rfl, rfl⟩ := hexc
        have hrow := h.handle rfl hg hremain hr
        cases hc with
        | handleException _ hexec =>
          rwa [Option.some.inj (hr'.symm.trans (get?_handleException_self hexec hr))]
      · have hacquire := fun cfg limits locked he ↦ hacquire ⟨cfg, limits, locked, he⟩
        have hexc := fun a exc traceback he haj ↦ hexc ⟨a, exc, traceback, he, haj⟩
        obtain ⟨hattempts, hstate⟩ := heffect.uncounted hg hacquire hexc
        have hmax := congrArg Terms.maxRetries heffect.terms
        refine (h.row r hr).kept ?_ ?_ hattempts hmax hstate
        · cases e with
          | acquireJobLock => exact absurd rfl (hacquire _ _ _)
          | _ => rfl
        · cases e with
          | acquireJobLock => exact absurd rfl (hacquire _ _ _)
          | handleException a exc traceback =>
            rw [countsFailure, Bool.and_eq_false_iff]
            exact .inl (by simpa using hexc a exc traceback rfl)
          | _ => rfl
    · obtain ⟨hex, hf⟩ := h.absent_cons hg hn
      have hidle : (enqueueVals env w.now args eta).state ≠ .started := by
        rcases state_enqueueVals env w.now args eta with h | h <;> rw [h] <;> decide
      constructor
      case attempts => rw [hf]; rfl
      case started => exact fun hs ↦ absurd hs hidle
      case idle => exact fun _ ↦ hex.trans hf.symm
      case bounded => intro hm; rw [hf]; exact Int.le_add_one (Int.le_of_lt hm)
      case remaining => intro hm _; rw [hf]; exact Int.le_of_lt hm

/-- The count in runs whose steps meet both conditions. -/
theorem attemptsCounted_of_each (h : Trace past w)
    (hg : Each (fun _ w e ↦ FailsEachAttempt j w e ∧ RetriesRemain j w e) past) :
    AttemptsCounted j past w := by
  refine h.invariant hg (fun now ↦ ⟨fun _ ↦ ⟨rfl, rfl⟩, fun r hr ↦ ?_⟩)
    fun past w e s' ih hg hc ↦ ih.after hg.1 hg.2 hc
  have hnone := (Store.get?_empty j).symm.trans hr
  cases hnone

/-- A `RetryableJobError` behind the last retry breaks the bound. -/
theorem retriesRemain_of_attemptsBounded (h : AttemptsCounted j past w)
    (hg : FailsEachAttempt j w e) (hc : w.Commits e s')
    (hbounded : AttemptsBounded j ((w, e) :: past) (w.after e s')) : RetriesRemain j w e := by
  cases hc with
  | @handleException a exc traceback _ _ hexec =>
    cases exc with
    | retryableJobError seconds ignoreRetry =>
      rintro rfl r hr hm
      obtain ⟨hcounted, hs⟩ := hg rfl
      rw [Store.stateOf, hr, Option.map_some, Option.some.injEq] at hs
      have hrow := h.row r hr
      have hle := hrow.remaining hm (by rw [hs]; decide)
      have hcount : r.attemptsRead = failures a.job past := by
        rw [Job.attemptsRead, hrow.attempts, Option.getD_some]
      obtain ⟨_, _, hfailed⟩ := hbounded _ (get?_handleException_self hexec hr) hm
      rw [failures_cons, if_pos (by simp [countsFailure, hcounted])] at hfailed
      by_contra hge
      -- The counter is past the bound, and the row is pending.
      have hpending := hfailed (by
        show r.maxRetriesRead + 1 ≤ _
        rw [hcount] at hge
        push_cast
        omega)
      cases hpending
    | transientRegistryError | exception => exact trivial
  | tick | enqueue | acquireJobLock | heartbeatJob | updateHeartbeats | handleTimeout
  | clearWorkerOwnership | die | finalizeJob | runNow | buttonSetToDone | buttonSetToFailed
  | buttonRequeue | buttonCancelled => exact trivial

/-- In a run in which every attempt of a job fails, its attempts are bounded in every world
exactly when each `RetryableJobError` comes while retries remain. -/
theorem attemptsBounded_iff (h : Trace past w) (hg : Each (fun _ ↦ FailsEachAttempt j) past) :
    (AttemptsBounded j past w ∧ Each (fun past w _ ↦ AttemptsBounded j past w) past) ↔
      Each (fun _ ↦ RetriesRemain j) past := by
  induction h with
  | init now =>
    refine iff_of_true ⟨?_, trivial⟩ trivial
    exact (attemptsCounted_of_each (.init now) trivial).attemptsBounded
  | @step past w w' e hrun hs ih =>
    obtain ⟨s', hc, rfl⟩ := hs
    rw [Each, Each, ih hg.2]
    have hcounted (hpast : Each (fun _ ↦ RetriesRemain j) past) : AttemptsCounted j past w :=
      attemptsCounted_of_each hrun (hg.2.and hpast)
    constructor
    · rintro ⟨hlast, hpast⟩
      exact ⟨retriesRemain_of_attemptsBounded (hcounted hpast) hg.1 hc hlast, hpast⟩
    · rintro ⟨hremain, hpast⟩
      exact ⟨((hcounted hpast).after hg.1 hremain hc).attemptsBounded, hpast⟩

end BoundedAttempts

/-! ### A job with one retry -/

/-- Worker 0 acquires the job of `enqueue` with one retry. -/
def acquireOnce : Event := .acquireJobLock { workerUuid := 0 } (fun _ ↦ none) fun _ ↦ false

/-- A job with one retry. -/
def enqueueOneRetry : Event :=
  .enqueue {} { modelName := "res.partner", methodName := "ping", maxRetries := some 1 }

/-- The first attempt raises, the worker of the second dies, and the reclaim fails the job. -/
def failsTwice : List Event := [
  enqueueOneRetry, acquireOnce,
  .handleException ⟨1, { workerUuid := 0 }, 1⟩ .exception "", .tick 20000000, acquireOnce,
  .die ⟨4, { workerUuid := 0 }, 1⟩, .tick 100000000, acquireOnce]

/-- Both attempts ask for a retry. -/
def postponesTwice : List Event := [
  enqueueOneRetry, acquireOnce,
  .handleException ⟨1, { workerUuid := 0 }, 1⟩ (.retryableJobError (some 0) false) "",
  acquireOnce,
  .handleException ⟨3, { workerUuid := 0 }, 1⟩ (.retryableJobError (some 0) false) ""]

/-- The second failure is the last. -/
theorem attemptsBounded_iff_failsTwice : ∃ past w, Trace past w ∧
    (executions 1 past, failures 1 past, w.store.stateOf 1) = (2, 2, some .failed) ∧
    AttemptsBounded 1 past w := by
  have hrun : (script [] (init 0) failsTwice).map (fun (past, w) ↦
      ((executions 1 past, failures 1 past, w.store.stateOf 1),
        decide (Each (fun _ ↦ FailsEachAttempt 1) past))) =
      some ((2, 2, some .failed), true) := by decide +kernel
  obtain ⟨⟨past, w⟩, hs, hw⟩ := Option.map_eq_some_iff.mp hrun
  simp only [Prod.mk.injEq, decide_eq_true_eq] at hw
  have hrun := trace_of_script (.init 0) hs
  refine ⟨past, w, hrun, by simp [hw.1], ((attemptsBounded_iff hrun hw.2).mpr ?_).1⟩
  refine each_of_script (show Each _ [] from trivial) hs fun e he _ w ↦ ?_
  simp only [failsTwice, List.mem_cons, List.not_mem_nil, or_false] at he
  rcases he with rfl | rfl | rfl | rfl | rfl | rfl | rfl | rfl <;> exact trivial

/-- A job that asks for a retry past its last one stays pending. -/
theorem not_attemptsBounded_postponesTwice : ¬ ∀ (j : JobId) (past : List (World × Event))
    (w : World), Trace past w → Each (fun _ ↦ FailsEachAttempt j) past →
      AttemptsBounded j past w := by
  intro hall
  have hrun : (script [] (init 0) postponesTwice).map (fun (past, w) ↦
      ((failures 1 past, (w.store.get? 1).map fun r ↦ (r.maxRetriesRead, r.state)),
        decide (Each (fun _ ↦ FailsEachAttempt 1) past))) =
      some ((2, some (1, .pending)), true) := by decide +kernel
  obtain ⟨⟨past, w⟩, hs, hw⟩ := Option.map_eq_some_iff.mp hrun
  simp only [Prod.mk.injEq, decide_eq_true_eq, Option.map_eq_some_iff] at hw
  obtain ⟨⟨hf, r, hr, hm, hstate⟩, hg⟩ := hw
  obtain ⟨_, _, hfailed⟩ := hall 1 past w (trace_of_script (.init 0) hs) hg r hr
    (by rw [hm]; decide)
  rw [hf, hm, hstate] at hfailed
  exact absurd (hfailed (by decide)) (by decide)

end World
end JobWorker
