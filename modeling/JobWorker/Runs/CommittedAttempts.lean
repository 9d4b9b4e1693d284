import JobWorker.Runs.WorkerRuns
import Mathlib.Tactic.Linarith

/-!
# Attempts behind the commit of their side effects

`execute_job` commits what the job method wrote and then records the outcome in a second
transaction, both in one try block (`job_worker/cli/worker.py:1082–1165`): an error of the
second transaction reaches the branch for a job that failed and was rolled back.
-/

namespace JobWorker

open Relational

/-- What one try of `finalize_job` raises. -/
inductive FinalizeError
  | operationalError (pgcode : Option String)
  | raised (exc : JobException)
  deriving DecidableEq

/-- `PG_CONCURRENCY_ERRORS_TO_RETRY`; `cli/worker.py:27–31`. -/
def pgConcurrencyErrorsToRetry : List String := ["40001", "40P01", "55P03"]

/-- The errors that `_retry_db_operation` retries; `cli/worker.py:109–110`. -/
def FinalizeError.isRetried : FinalizeError → Bool
  | .operationalError pgcode => pgcode.any (pgConcurrencyErrorsToRetry.contains ·)
  | .raised _ => false

/-- The error as `handle_exception` sees it. -/
def FinalizeError.exception : FinalizeError → JobException
  | .operationalError _ => .exception
  | .raised exc => exc

/-- The loop of `_retry_db_operation` with `remaining` tries left; `cli/worker.py:106–129`. -/
def retryFrom (operation : Nat → Except FinalizeError Unit) :
    Nat → Nat → Option (Except FinalizeError Unit)
  | 0, _ => none
  | remaining + 1, attempt =>
    match operation attempt with
    | .ok () => some (.ok ())
    | .error err =>
      if !err.isRetried then some (.error err)
      else if remaining = 0 then some (.error err)
      else retryFrom operation remaining (attempt + 1)

/-- `_retry_db_operation` with its default `max_retries`; `cli/worker.py:88–129`. -/
def retryDbOperation (operation : Nat → Except FinalizeError Unit) :
    Option (Except FinalizeError Unit) :=
  retryFrom operation 3 0

/-- What an attempt that does not time out commits behind its side effects: the outcome, or
what the except branch makes of the error, or nothing when that raises as well;
`cli/worker.py:1101–1165`. `handled` is the traceback that the except branch records. -/
def settle (a : Attempt) (serialized : Option String) (tries : Nat → Except FinalizeError Unit)
    (handled : Option String) : Event :=
  match retryDbOperation tries with
  | some (.ok ()) => .finalizeJob a serialized
  | some (.error err) =>
    match handled with
    | some traceback => .handleException a err.exception traceback
    | none => .die a
  | none => .die a

/-- One of the tries commits, and those before it are retried. -/
def Finalizes (tries : Nat → Except FinalizeError Unit) : Prop :=
  ∃ k < 3, tries k = .ok () ∧ ∀ i < k, ∃ err, tries i = .error err ∧ err.isRetried = true

section Retry

variable {operation : Nat → Except FinalizeError Unit} {remaining attempt : Nat}

/-- The operation returns exactly when one of the tries does and those before it are
retried. -/
theorem retryFrom_eq_ok : retryFrom operation remaining attempt = some (.ok ()) ↔
    ∃ k < remaining, operation (attempt + k) = .ok () ∧
      ∀ i < k, ∃ err, operation (attempt + i) = .error err ∧ err.isRetried = true := by
  induction remaining generalizing attempt with
  | zero => simp [retryFrom]
  | succ remaining ih =>
    rw [retryFrom]
    split
    · next h =>
      refine iff_of_true rfl ⟨0, Nat.succ_pos _, h, nofun⟩
    · next err h =>
      have hfirst (k : Nat) (hk : operation (attempt + k) = .ok ()) : k ≠ 0 := by
        rintro rfl
        cases h.symm.trans hk
      cases hr : err.isRetried with
      | false =>
        rw [Bool.not_false, if_pos rfl]
        refine iff_of_false nofun ?_
        rintro ⟨k, _, hk, hbefore⟩
        obtain ⟨err', herr, hr'⟩ := hbefore 0 (Nat.pos_of_ne_zero (hfirst k hk))
        cases h.symm.trans herr
        cases hr.symm.trans hr'
      | true =>
        rw [Bool.not_true, if_neg Bool.false_ne_true]
        split
        · next hlast =>
          refine iff_of_false nofun ?_
          rintro ⟨k, hlt, hk, _⟩
          have := hfirst k hk
          omega
        · rw [ih]
          constructor
          · rintro ⟨k, hlt, hk, hbefore⟩
            refine ⟨k + 1, by omega, by rwa [Nat.add_right_comm] at hk, fun i hi ↦ ?_⟩
            cases i with
            | zero => exact ⟨err, h, hr⟩
            | succ i =>
              rw [← Nat.add_assoc, Nat.add_right_comm]
              exact hbefore i (by omega)
          · rintro ⟨k, hlt, hk, hbefore⟩
            obtain ⟨k, rfl⟩ := Nat.exists_eq_succ_of_ne_zero (hfirst k hk)
            refine ⟨k, by omega, by rwa [Nat.add_right_comm], fun i hi ↦ ?_⟩
            rw [Nat.add_right_comm]
            exact hbefore (i + 1) (by omega)

/-- The default number of tries. -/
theorem retryDbOperation_eq_ok : retryDbOperation operation = some (.ok ()) ↔
    Finalizes operation := by
  simp [retryDbOperation, retryFrom_eq_ok, Finalizes]

end Retry

namespace World

/-- From here on the workers leave the row of a job as it is, neither pending nor failed and
with these attempts, and none of them acquires it. -/
def NotTreatedAsFailed (w : World) (job : JobId) (attempts : Option Int) : Prop :=
  ∀ v, WorkerRun w v →
    (∃ r, v.store.get? job = some r ∧ r.state ≠ .pending ∧ r.state ≠ .failed ∧
      r.attempts = attempts) ∧
    ∀ cfg limits locked, (acquireJobLock cfg limits locked v.now v.store).2 ≠ some job

section Settle

variable {w : World} {e : Event} {s' : Store} {a : Attempt} {r : Job} {job : JobId}

/-- A done row keeps its state and its attempts. -/
theorem done_kept (hg : w.ByWorkers e) (h : w.Commits e s') (hr : w.store.get? job = some r)
    (hd : r.state = .done) :
    ∃ r', s'.get? job = some r' ∧ r'.state = .done ∧ r'.attempts = r.attempts := by
  obtain ⟨r', hr', heffect⟩ := h.row hr
  have hwait : r.isWaiting = false := by simp [Job.isWaiting, hd]
  have hstarted : r.state ≠ .started := by
    rw [hd]
    exact nofun
  refine ⟨r', hr', ?_⟩
  cases heffect with
  | cascaded hc =>
    rw [hc.eq hwait]
    exact ⟨hd, rfl⟩
  | acquired _ ha =>
    have hactive := WorkerConfig.isActive_of_acquirable ha
    rw [hd] at hactive
    cases hactive
  | workerDied _ hs => exact absurd hs hstarted
  | finalizeJob | handleException => exact absurd (started_of_holds hg hr) hstarted
  | called hi =>
    cases e with
    | runNow | buttonSetToDone | buttonSetToFailed | buttonRequeue | buttonCancelled => cases hg
    | _ => cases hi
  | heartbeatJob | updateHeartbeats | handleTimeout | clearWorkerOwnership => exact ⟨hd, rfl⟩

/-- A finished job is not acquired. -/
theorem not_acquired_of_done (hr : w.store.get? job = some r) (hd : r.state = .done)
    (cfg : WorkerConfig) (limits : QueueLimits) (locked : JobId → Bool) :
    (acquireJobLock cfg limits locked w.now w.store).2 ≠ some job := by
  intro h
  have hactive := WorkerConfig.isActive_of_acquirable (acquirable_of_acquireJobLock h hr).1
  rw [hd] at hactive
  cases hactive

/-- A done row is not treated as failed. -/
theorem notTreatedAsFailed_of_done (hr : w.store.get? job = some r) (hd : r.state = .done) :
    w.NotTreatedAsFailed job r.attempts := by
  intro v hv
  have hrow : ∃ r', v.store.get? job = some r' ∧ r'.state = .done ∧
      r'.attempts = r.attempts := by
    induction hv with
    | refl => exact ⟨r, hr, hd, rfl⟩
    | step _ hg hs ih =>
      obtain ⟨s', hc, rfl⟩ := hs
      obtain ⟨r₁, hr₁, hd₁, hsame⟩ := ih
      obtain ⟨r', hr', hd', hsame'⟩ := done_kept hg hc hr₁ hd₁
      exact ⟨r', hr', hd', hsame'.trans hsame⟩
  obtain ⟨r', hr', hd', hsame⟩ := hrow
  refine ⟨⟨r', hr', ?_, ?_, hsame⟩, not_acquired_of_done hr' hd'⟩
  · rw [hd']
    exact nofun
  · rw [hd']
    exact nofun

/-- A row that was dated and scheduled at some time is stale and due some time later. -/
theorem exists_acquirable (hs : r.state = .started) (cfg : WorkerConfig) :
    ∃ elapsed : Nat, cfg.acquirable (w.now + elapsed) r = true := by
  have hnat (x : Int) : ∃ n : Nat, x ≤ n := ⟨x.toNat, Int.self_le_toNat x⟩
  obtain ⟨m, hm⟩ := hnat (r.heartbeat.getD 0 + cfg.staleAfterSeconds * second + 1 - w.now)
  obtain ⟨n, hn⟩ := hnat (r.scheduledAt.getD 0 - w.now)
  have hm₀ : (0 : Int) ≤ m := Int.natCast_nonneg m
  have hn₀ : (0 : Int) ≤ n := Int.natCast_nonneg n
  refine ⟨m + n, ?_⟩
  rw [WorkerConfig.acquirable, hs, Bool.and_eq_true, Bool.or_eq_true]
  refine ⟨.inr ?_, ?_⟩
  · rw [Bool.and_eq_true, WorkerConfig.stale]
    refine ⟨rfl, ?_⟩
    cases hh : r.heartbeat with
    | none => rfl
    | some t =>
      rw [hh, Option.getD_some] at hm
      rw [Option.all_some, decide_eq_true_eq, Nat.cast_add]
      linarith
  · cases hh : r.scheduledAt with
    | none => rfl
    | some t =>
      rw [hh, Option.getD_some] at hn
      rw [Option.all_some, decide_eq_true_eq, Nat.cast_add]
      linarith

/-- An acquirable row is found by a worker when all others are locked and its channel has
room. -/
theorem exists_find {now : Time} {cfg : WorkerConfig} (hr : w.store.get? job = some r)
    (ha : cfg.acquirable now r = true) : ∃ limits : QueueLimits,
      (cfg.candidates limits now w.store).find? (fun i ↦ !decide (i ≠ job)) = some job := by
  let limits : QueueLimits := fun _ ↦
    some { limit := cfg.freshRunning now w.store r.channel + 1 }
  refine ⟨limits, ?_⟩
  have hthrottled : cfg.throttled limits now w.store r = false := by
    cases hc : r.channel with
    | none =>
      simp [WorkerConfig.throttled, hc, WorkerConfig.freshRunning, Table.count, Table.select]
    | some c => simp [WorkerConfig.throttled, limits, hc]
  have hmem : job ∈ cfg.candidates limits now w.store :=
    Table.mem_selectBy.mpr ⟨r, hr, by simp [ha, hthrottled]⟩
  cases hf : (cfg.candidates limits now w.store).find? fun i ↦ !decide (i ≠ job) with
  | none => simpa using List.find?_eq_none.mp hf job hmem
  | some i => simpa using List.find?_some hf

/-- A row left started is acquired again once its heartbeat is stale, or failed by the
reclaim. -/
theorem treatedAsFailed_of_started (hr : w.store.get? job = some r) (hs : r.state = .started) :
    ¬ w.NotTreatedAsFailed job r.attempts := by
  intro h
  obtain ⟨elapsed, ha⟩ := exists_acquirable (w := w) hs { workerUuid := 0 }
  obtain ⟨limits, hfind⟩ := exists_find hr ha
  have hlater : WorkerRun w (w.after (.tick elapsed) w.store) :=
    WorkerRun.step (e := .tick elapsed) .refl trivial ⟨_, .tick, rfl⟩
  cases he : exhausted r with
  | false =>
    apply (h _ hlater).2 { workerUuid := 0 } limits fun i ↦ decide (i ≠ job)
    show (acquireJobLock _ _ _ (w.now + elapsed) w.store).2 = _
    rw [acquireJobLock_of_find hfind hr, acquireRow, if_neg (by simp [hs]), if_neg (by simp [he])]
  | true =>
    have hexhausts : ReclaimExhausts { workerUuid := 0 } limits (fun i ↦ decide (i ≠ job))
        (w.now + elapsed) w.store job r := ⟨hfind, hr, hs, he⟩
    have hrun := hlater.step (e := .acquireJobLock { workerUuid := 0 } limits
      fun i ↦ decide (i ≠ job)) trivial ⟨_, .acquireJobLock, rfl⟩
    obtain ⟨⟨r', hr', _, hne, _⟩, _⟩ := h _ hrun
    have hdied : (acquireJobLock { workerUuid := 0 } limits (fun i ↦ decide (i ≠ job))
        (w.now + elapsed) w.store).1.get? job = some (workerDiedRow (w.now + elapsed) r) := by
      rw [hexhausts.acquire, get?_cascadeWorkerDied ((hexhausts.get? job).trans (if_pos rfl))]
      rfl
    obtain rfl : workerDiedRow (w.now + elapsed) r = r' := Option.some.inj (hdied.symm.trans hr')
    exact hne rfl

/-- An attempt whose side effects are committed and whose row is its own is never treated as
failed exactly when one of the three tries of `finalize_job` commits and those before it
raise concurrency errors. -/
theorem notTreatedAsFailed_iff {serialized handled : Option String}
    {tries : Nat → Except FinalizeError Unit} (hheld : Holds w.store a)
    (hr : w.store.get? a.job = some r)
    (h : w.Commits (settle a serialized tries handled) s') :
    (w.after (settle a serialized tries handled) s').NotTreatedAsFailed a.job r.attempts ↔
      Finalizes tries := by
  have hstarted := started_of_holds hheld hr
  rw [← retryDbOperation_eq_ok]
  unfold settle at h ⊢
  cases hretry : retryDbOperation tries with
  | none =>
    simp only [hretry] at h ⊢
    cases h
    exact iff_of_false (treatedAsFailed_of_started hr hstarted) nofun
  | some out =>
    cases out with
    | ok =>
      simp only [hretry] at h ⊢
      refine iff_of_true ?_ trivial
      cases h with
      | finalizeJob _ h =>
        obtain ⟨s₁, hw, h⟩ := bind_eq_ok.mp h
        cases h
        have hrow : s₁.get? a.job = some (finalizedRow w.now serialized r) := by
          rw [Store.get?_write hw, if_pos rfl, hr, Option.map_some]
        have hself := get?_cascadeSuccessToDependents_self w.now hrow rfl
        exact notTreatedAsFailed_of_done (r := finalizedRow w.now serialized r) hself rfl
    | error err =>
      simp only [hretry] at h ⊢
      refine iff_of_false ?_ nofun
      cases handled with
      | none =>
        cases h
        exact treatedAsFailed_of_started hr hstarted
      | some traceback =>
        intro hkept
        cases h with
        | handleException _ h =>
          obtain ⟨⟨r', hr', hp, hf, _⟩, _⟩ := hkept _ .refl
          obtain rfl := Option.some.inj ((get?_handleException_self h hr).symm.trans hr')
          cases hd : dispositionOf a.cfg w.now err.exception r with
          | retry =>
            rw [hd] at hp
            exact hp rfl
          | fail =>
            rw [hd] at hf
            exact hf rfl

end Settle

/-- A worker has acquired a job. -/
def acquiresOne : List Event :=
  [.enqueue {} { modelName := "res.partner", methodName := "ping" },
    .acquireJobLock { workerUuid := 0 } (fun _ ↦ none) fun _ ↦ false]

/-- Its attempt. -/
def onlyAttempt : Attempt := ⟨1, { workerUuid := 0 }, 1⟩

/-- An attempt whose outcome is recorded at the second try. -/
theorem notTreatedAsFailed_iff_secondTry : ∃ (w : World) (r : Job) (s' : Store),
    Reachable (fun _ _ ↦ True) w ∧ w.store.get? 1 = some r ∧
      (w.after (.finalizeJob onlyAttempt none) s').NotTreatedAsFailed 1 r.attempts := by
  let tries : Nat → Except FinalizeError Unit := fun k ↦
    if k = 0 then .error (.operationalError "40001") else .ok ()
  have hrun : (script [] (init 0) acquiresOne).bind (fun (_, w) ↦
      (w.execute (settle onlyAttempt none tries none)).bind fun _ ↦
        (w.store.get? 1).map fun _ ↦ decide (Holds w.store onlyAttempt)) = some true := by
    decide +kernel
  obtain ⟨⟨past, w⟩, hs, hrun⟩ := Option.bind_eq_some_iff.mp hrun
  obtain ⟨s', hsettle, hrun⟩ := Option.bind_eq_some_iff.mp hrun
  obtain ⟨r, hr, hheld⟩ := Option.map_eq_some_iff.mp hrun
  refine ⟨w, r, s', (trace_of_script (.init 0) hs).reachable, hr, ?_⟩
  refine (notTreatedAsFailed_iff (of_decide_eq_true hheld) hr
    (commits_of_execute hsettle)).mpr ⟨1, by decide, rfl, fun i hi ↦ ?_⟩
  obtain rfl : i = 0 := by omega
  exact ⟨_, rfl, by decide⟩

/-- Three serialization failures put the job back to pending. -/
theorem not_notTreatedAsFailed_threeFailures : ¬ ∀ (w : World) (a : Attempt) (r : Job)
    (serialized handled : Option String) (tries : Nat → Except FinalizeError Unit) (s' : Store),
    Reachable (fun _ _ ↦ True) w → Holds w.store a → w.store.get? a.job = some r →
      w.Commits (settle a serialized tries handled) s' →
      (w.after (settle a serialized tries handled) s').NotTreatedAsFailed a.job r.attempts := by
  intro hall
  let tries : Nat → Except FinalizeError Unit := fun _ ↦ .error (.operationalError "40001")
  have hrun : (script [] (init 0) acquiresOne).bind (fun (_, w) ↦
      (w.execute (settle onlyAttempt none tries (some "SerializationFailure"))).bind fun s' ↦
        (w.store.get? 1).map fun _ ↦
          (decide (Holds w.store onlyAttempt), s'.stateOf 1)) = some (true, some .pending) := by
    decide +kernel
  obtain ⟨⟨past, w⟩, hs, hrun⟩ := Option.bind_eq_some_iff.mp hrun
  obtain ⟨s', hsettle, hrun⟩ := Option.bind_eq_some_iff.mp hrun
  obtain ⟨r, hr, heq⟩ := Option.map_eq_some_iff.mp hrun
  rw [Prod.mk.injEq, decide_eq_true_eq] at heq
  obtain ⟨⟨r', hr', hne, _⟩, _⟩ := hall w onlyAttempt r none _ tries s'
    (trace_of_script (.init 0) hs).reachable heq.1 hr (commits_of_execute hsettle) _ .refl
  exact hne (Option.some.inj ((Store.stateOf_of_get? hr').symm.trans heq.2))

end World
end JobWorker
