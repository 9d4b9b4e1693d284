import JobWorker.Transactions

/-!
# Steps of an attempt that has lost its claim

`_heartbeat_job` and `_handle_timeout` write only a row that is started under the worker's
id, the batch heartbeat and `_clear_worker_ownership` only one that carries the id;
`finalize_job` and `handle_exception` write whatever row they find
(`cli/worker.py:426–448,764–933,1101–1313`). A step of an attempt whose row was reclaimed,
cancelled or requeued therefore leaves the job alone exactly when its guard fails or when
it writes what is already there.
-/

namespace JobWorker

/-- The columns that say who executes a job and when it runs next. -/
structure Claim where
  state : JobState
  workerId : Option WorkerUuid
  heartbeat : Option Time
  attempts : Option Int
  scheduledAt : Option Time
  deriving DecidableEq

/-- The claim on a row. -/
def Job.claim (r : Job) : Claim :=
  ⟨r.state, r.workerId, r.heartbeat, r.attempts, r.scheduledAt⟩

/-- State and counter of a row, which a cascade moves. -/
def Job.progress (r : Job) : JobState × Int := (r.state, r.pendingDependencyCount)

/-- The claim on job `j` and the progress of every other job are as they were. -/
structure Fenced (j : JobId) (s s' : Store) : Prop where
  claim : (s'.get? j).map Job.claim = (s.get? j).map Job.claim
  others : ∀ i, i ≠ j → (s'.get? i).map Job.progress = (s.get? i).map Job.progress

/-- No other job that waits has `j` as parent or dependency. -/
def Store.Unwaited (s : Store) (j : JobId) : Prop :=
  ∀ i, i ≠ j → s.Waiting i → ¬ s.WaitsOn j i

section Fenced

variable {s s' : Store} {j i : JobId} {r : Job}

/-- A statement that moves no other job is fenced when it rewrites the claim by itself. -/
theorem fenced_update_iff {p : JobId → Job → Bool} {f : JobId → Job → Job}
    (hk : s.Keeps p f) (hf : ∀ i r, (f i r).pendingDependencyCount = r.pendingDependencyCount ∧
      (f i r).state = r.state) :
    Fenced j s (s.update p f hk) ↔
      ∀ r, s.get? j = some r → p j r = true → (f j r).claim = r.claim := by
  constructor
  · rintro ⟨hclaim, _⟩ r hr hp
    rw [Store.get?_update, hr, Option.map_some, Option.map_some, Option.map_some,
      Option.some.injEq, if_pos hp] at hclaim
    exact hclaim
  · intro h
    constructor
    · rw [Store.get?_update, Option.map_map]
      refine Option.map_congr fun r hr ↦ ?_
      rw [Function.comp_apply]
      split
      · next hp => exact h r hr hp
      · rfl
    · intro i _
      rw [Store.get?_update, Option.map_map]
      refine Option.map_congr fun r _ ↦ ?_
      rw [Function.comp_apply]
      split
      · rw [Job.progress, Job.progress, (hf i r).1, (hf i r).2]
      · rfl

/-- The progress of one row. -/
theorem map_progress_iff {r r' : Job} (hr : s.get? i = some r) (hr' : s'.get? i = some r') :
    (s'.get? i).map Job.progress = (s.get? i).map Job.progress ↔
      r'.state = r.state ∧ r'.pendingDependencyCount = r.pendingDependencyCount := by
  simp [hr, hr', Job.progress]

/-- A successful completion moves no other job exactly when none waits on it. -/
theorem CompletesSuccessfully.others_iff (h : CompletesSuccessfully s j s') :
    (∀ i, i ≠ j → (s'.get? i).map Job.progress = (s.get? i).map Job.progress) ↔
      s.Unwaited j := by
  constructor
  · rintro hsame i hi ⟨r, hr, hw⟩ hon
    rw [Store.waitsOn_iff hr] at hon
    obtain ⟨r', hr', _⟩ := h.sameWiring.row hr
    obtain ⟨hstate, hcount⟩ := (map_progress_iff hr hr').mp (hsame i hi)
    have hs : s'.stateOf i = some .waiting := by
      rw [Store.stateOf, hr', Option.map_some, hstate, Job.isWaiting_iff.mp hw]
    rcases h.waiting_cases hi hr hw with ⟨_, hc⟩ | ⟨_, _, hc⟩ | ⟨q, hq, _, _, hp, _, hc⟩
    · rw [hs] at hc
      cases hc
    · rw [hs] at hc
      split at hc <;> cases hc
    · rw [hr', Option.some.injEq] at hq
      subst hq
      have hd := hon.resolve_left hp
      have hlisted : r.listed [j] = 1 := by simp [Job.listed, hd]
      omega
  · intro hfree i hi
    cases hr : s.get? i with
    | none => rw [h.sameWiring.none hr]
    | some r =>
      have hnot (hw : r.isWaiting = true) : ¬ r.WaitsOn j := fun hon ↦
        hfree i hi ((Store.waiting_iff hr).mpr hw) ((Store.waitsOn_iff hr).mpr hon)
      have hb : ¬ s.CancelledBelow j i := fun hb ↦ by
        obtain ⟨k, ⟨hchild, _⟩, hwk, hkj⟩ := hb.exists_seed
        exact hfree k hkj hwk (Store.waitsOn_iff_childOf_or_dependsOn.mpr (.inl hchild))
      obtain ⟨now, hrow⟩ := (h.row hi hr).2 hb
      have hchild : Store.isWaitingChild j r = false := by
        rw [Bool.eq_false_iff, ne_eq, Store.isWaitingChild_iff]
        exact fun hc ↦ hnot hc.2 (.inl hc.1)
      have hdep : isWaitingDependent j r = false := by
        rw [Bool.eq_false_iff, ne_eq, isWaitingDependent, Bool.and_eq_true]
        exact fun hc ↦ hnot hc.1 (.inr hc.2)
      rw [hrow, successRow, hchild, hdep]
      rfl

/-- A permanent failure moves no other job exactly when none waits on it. -/
theorem FailsPermanently.others_iff (h : FailsPermanently s [j] s') (hcounts : s.SameCounts s') :
    (∀ i, i ≠ j → (s'.get? i).map Job.progress = (s.get? i).map Job.progress) ↔
      s.Unwaited j := by
  constructor
  · rintro hsame i hi ⟨r, hr, hw⟩ hon
    rw [Store.waitsOn_iff hr] at hon
    have hi' : i ∉ [j] := by simpa using hi
    obtain ⟨r', hr', _⟩ := h.sameWiring.row hr
    obtain ⟨hstate, _⟩ := (map_progress_iff hr hr').mp (hsame i hi)
    have hs := (h.stateOf hi' hr).1 (hit_of_waitsOn hr hw hi' List.mem_cons_self hon)
    rw [Store.stateOf, hr', Option.map_some, hstate, Job.isWaiting_iff.mp hw] at hs
    split at hs <;> cases hs
  · intro hfree i hi
    cases hr : s.get? i with
    | none => rw [h.sameWiring.none hr]
    | some r =>
      obtain ⟨r', hr', hcount⟩ := hcounts.row hr
      have hi' : i ∉ [j] := by simpa using hi
      have hn : ¬ s.FailureHit [j] i := by
        have hno (k : JobId) (hk : s.Waiting k ∧ k ∉ [j]) : ¬ s.WaitsOn j k :=
          hfree k (by simpa using hk.2) hk.1
        rintro (hb | ⟨hwi, k, hk, hd⟩)
        · obtain ⟨a, ⟨k, hk, hchild⟩, ha⟩ := hb.exists_seed
          rw [List.mem_singleton] at hk
          exact hno a ha (Store.waitsOn_iff_childOf_or_dependsOn.mpr (.inl (hk ▸ hchild)))
        · rw [List.mem_singleton] at hk
          exact hno i hwi (Store.waitsOn_iff_childOf_or_dependsOn.mpr (.inr (hk ▸ hd)))
      have hs := (h.stateOf hi' hr).2 hn
      rw [Store.stateOf, hr', Option.map_some, Option.some.injEq] at hs
      rw [← hr, map_progress_iff hr hr']
      exact ⟨hs, hcount⟩

/-- A heartbeat leaves the claim as it was when it beats at the same time. -/
theorem claim_heartbeat_iff {beat : Option Time} :
    ({ r with heartbeat := beat } : Job).claim = r.claim ↔ r.heartbeat = beat := by
  simp only [Job.claim, Claim.mk.injEq, true_and, and_true]
  exact eq_comm

/-- A timeout leaves the claim as it was when it paces no attempt, or paces it as
before. -/
theorem claim_timeoutRow_iff {cfg : WorkerConfig} {timeout : Int} {now : Time} :
    (timeoutRow cfg timeout now r).claim = r.claim ↔
      ((r.maxRetries = some 0 ∨ r.maxRetries.any fun m ↦ decide (r.attempts.getD 1 < m)) →
        r.scheduledAt =
          some (now + backoffSeconds (r.attempts.getD 1) cfg.maxBackoffSeconds * second)) := by
  simp only [Job.claim, timeoutRow, Claim.mk.injEq, true_and]
  split
  · next h => exact ⟨fun he _ ↦ he.symm, fun he ↦ (he h).symm⟩
  · next h => exact ⟨fun _ hp ↦ absurd hp h, fun _ ↦ rfl⟩

/-- `finalize_job` is fenced exactly when the row is already done, free of a worker, and
waited for by no other job. -/
theorem fenced_finalizeJob_iff {now : Time} {serialized : Option String}
    (h : finalizeJob now serialized s j = .ok s') (hr : s.get? j = some r) :
    Fenced j s s' ↔ (r.state = .done ∧ r.workerId = none ∧ r.heartbeat = none) ∧ s.Unwaited j := by
  obtain ⟨s₁, hw, hs'⟩ := bind_eq_ok.mp h
  cases hs'
  have hr₁ : s₁.get? j = some (finalizedRow now serialized r) := by
    rw [Store.get?_write hw, if_pos rfl, hr, Option.map_some]
  have hrow : (cascadeSuccessToDependents now s₁ j).get? j =
      some (finalizedRow now serialized r) := get?_cascadeSuccessToDependents_self now hr₁ rfl
  have hclaim : (finalizedRow now serialized r).claim = r.claim ↔
      r.state = .done ∧ r.workerId = none ∧ r.heartbeat = none := by
    simp [Job.claim, finalizedRow, eq_comm]
  rw [← hclaim, ← (CompletesSuccessfully.finalizeJob h).others_iff]
  constructor
  · rintro ⟨hc, ho⟩
    rw [hrow, hr, Option.map_some, Option.map_some, Option.some.injEq] at hc
    exact ⟨hc, ho⟩
  · rintro ⟨hc, ho⟩
    refine ⟨?_, ho⟩
    rw [hrow, hr, Option.map_some, Option.map_some, hc]

/-- The row that a disposition finds as it would leave it. -/
def AlreadyHandled (now : Time) (r : Job) : Disposition → Prop
  | .retry delaySeconds counted => counted = false ∧ r.state = .pending ∧
      r.scheduledAt = some (datetimeNow now + delaySeconds * second)
  | .fail counted => counted = false ∧ r.state = .failed ∧ r.scheduledAt = none

/-- A counted attempt changes the `attempts` column. -/
theorem some_attemptsRead_ne (r : Job) : some (r.attemptsRead + 1) ≠ r.attempts := by
  cases h : r.attempts with
  | none => exact fun h' ↦ by cases h'
  | some n =>
    rw [Job.attemptsRead, h, Option.getD_some]
    exact fun h' ↦ by
      rw [Option.some.injEq] at h'
      omega

/-- The claim of a handled row is the old one exactly when the row had been handled. -/
theorem claim_handledRow_iff {now : Time} (traceback : String) {d : Disposition} :
    (handledRow now traceback d r).claim = r.claim ↔
      r.workerId = none ∧ r.heartbeat = none ∧ AlreadyHandled now r d := by
  cases d with
  | retry _ counted | fail counted =>
    cases counted with
    | true =>
      simp only [AlreadyHandled, Bool.true_eq_false, false_and, and_false, iff_false]
      exact fun h ↦ some_attemptsRead_ne r (congrArg Claim.attempts h)
    | false =>
      simp only [Job.claim, handledRow, AlreadyHandled, Claim.mk.injEq, Bool.false_eq_true,
        if_false, true_and, eq_comm]
      tauto

/-- `handle_exception` is fenced exactly when the row is free of a worker and already as
the disposition would leave it, and no other job waits for a failure. -/
theorem fenced_handleException_iff {cfg : WorkerConfig} {now : Time} {exc : JobException}
    {traceback : String} (h : handleException cfg now exc traceback s j = .ok s')
    (hr : s.get? j = some r) :
    Fenced j s s' ↔ (r.workerId = none ∧ r.heartbeat = none ∧
      AlreadyHandled now r (dispositionOf cfg now exc r)) ∧
        ((∃ counted, dispositionOf cfg now exc r = .fail counted) → s.Unwaited j) := by
  obtain ⟨s₁, hw, hs'⟩ := handleException_eq h hr
  rw [← claim_handledRow_iff traceback]
  have hrow := get?_handleException_self h hr
  cases hd : dispositionOf cfg now exc r with
  | retry delaySeconds counted =>
    rw [hd] at hs' hrow
    obtain rfl : s' = s₁ := hs'
    have hothers (i : JobId) (hi : i ≠ j) :
        (s'.get? i).map Job.progress = (s.get? i).map Job.progress := by
      rw [Store.get?_write hw, if_neg hi]
    constructor
    · rintro ⟨hc, _⟩
      rw [hrow, hr, Option.map_some, Option.map_some, Option.some.injEq] at hc
      exact ⟨hc, fun ⟨_, h⟩ ↦ by cases h⟩
    · rintro ⟨hc, _⟩
      exact ⟨by rw [hrow, hr, Option.map_some, Option.map_some, hc], hothers⟩
  | fail counted =>
    rw [hd] at hrow
    have hothers := (FailsPermanently.handleException hr hd h).others_iff
      (quiet_handleException h).sameCounts
    constructor
    · rintro ⟨hc, ho⟩
      rw [hrow, hr, Option.map_some, Option.map_some, Option.some.injEq] at hc
      exact ⟨hc, fun _ ↦ hothers.mp ho⟩
    · rintro ⟨hc, hfree⟩
      refine ⟨?_, hothers.mpr (hfree ⟨counted, rfl⟩)⟩
      rw [hrow, hr, Option.map_some, Option.map_some, hc]

end Fenced

namespace World

/-- The events in which attempt `a` acts: its own steps, and the batch heartbeat of its
worker unless another attempt of that worker holds a claim on the job. -/
def ActsFor (w : World) (a : Attempt) : Event → Prop
  | .heartbeatJob b | .handleTimeout b _ | .clearWorkerOwnership b | .die b
  | .finalizeJob b _ | .handleException b _ _ => b = a
  | .updateHeartbeats worker => worker = a.cfg.workerUuid ∧
      ∀ b ∈ w.attempts, b.job = a.job → b.cfg.workerUuid = worker → b.id ∈ w.lost
  | _ => False

/-- No attempt that has lost its claim writes through it. -/
def NotWrittenThrough (w : World) (e : Event) (w' : World) : Prop :=
  ∀ a ∈ w.attempts, a.id ∈ w.lost → w.ActsFor a e → Fenced a.job w.store w'.store

/-- On the row it finds, a step of attempt `a` is stopped by its guard or writes what is
there already. -/
def Harmless (w : World) (a : Attempt) (r : Job) : Event → Prop
  | .heartbeatJob _ => r.ownedBy a.cfg.workerUuid = true → r.heartbeat = some w.now
  | .updateHeartbeats worker => a.job ∈ w.activeJobIds worker → r.workerId = some worker →
      r.heartbeat = some w.now
  | .handleTimeout _ _ => r.ownedBy a.cfg.workerUuid = true →
      (r.maxRetries = some 0 ∨ r.maxRetries.any fun m ↦ decide (r.attempts.getD 1 < m)) →
      r.scheduledAt = some (w.now +
        backoffSeconds (r.attempts.getD 1) a.cfg.maxBackoffSeconds * second)
  | .clearWorkerOwnership _ => r.workerId ≠ some a.cfg.workerUuid
  | .finalizeJob _ _ =>
      (r.state = .done ∧ r.workerId = none ∧ r.heartbeat = none) ∧ w.store.Unwaited a.job
  | .handleException _ exc _ =>
      (r.workerId = none ∧ r.heartbeat = none ∧
        AlreadyHandled w.now r (dispositionOf a.cfg w.now exc r)) ∧
      ((∃ counted, dispositionOf a.cfg w.now exc r = .fail counted) → w.store.Unwaited a.job)
  | _ => True

variable {w w' : World} {e : Event} {a : Attempt} {r : Job} {s' : Store}

/-- A step of an attempt is fenced exactly when it is harmless on its row. -/
theorem fenced_iff_harmless (hc : w.Commits e s') (hacts : w.ActsFor a e)
    (hr : w.store.get? a.job = some r) :
    Fenced a.job w.store s' ↔ w.Harmless a r e := by
  have hrow {P : Job → Prop} : (∀ q, w.store.get? a.job = some q → P q) ↔ P r := by
    rw [hr]
    simp
  cases hc with
  | heartbeatJob =>
    obtain rfl := hacts
    refine (fenced_update_iff _ ?_).trans (hrow.trans ?_)
    · exact fun _ _ ↦ ⟨rfl, rfl⟩
    rw [claim_heartbeat_iff, beq_self_eq_true, Bool.true_and]
    exact Iff.rfl
  | updateHeartbeats =>
    obtain ⟨rfl, _⟩ := hacts
    refine (fenced_update_iff _ ?_).trans (hrow.trans ?_)
    · exact fun _ _ ↦ ⟨rfl, rfl⟩
    rw [claim_heartbeat_iff, Bool.and_eq_true, List.contains_iff_mem, beq_iff_eq, and_imp]
    exact Iff.rfl
  | handleTimeout =>
    obtain rfl := hacts
    refine (fenced_update_iff _ ?_).trans (hrow.trans ?_)
    · exact fun _ _ ↦ ⟨rfl, rfl⟩
    rw [claim_timeoutRow_iff, beq_self_eq_true, Bool.true_and]
    exact Iff.rfl
  | clearWorkerOwnership =>
    obtain rfl := hacts
    refine (fenced_update_iff _ ?_).trans (hrow.trans ?_)
    · exact fun _ _ ↦ ⟨rfl, rfl⟩
    rw [beq_self_eq_true, Bool.true_and, beq_iff_eq]
    refine ⟨fun h hworker ↦ ?_, fun h hworker ↦ absurd hworker h⟩
    have hnone := congrArg Claim.workerId (h hworker)
    rw [show r.claim.workerId = r.workerId from rfl, hworker] at hnone
    cases hnone
  | die =>
    exact ⟨fun _ ↦ trivial, fun _ ↦ ⟨rfl, fun _ _ ↦ rfl⟩⟩
  | finalizeJob _ h =>
    obtain rfl := hacts
    exact fenced_finalizeJob_iff h hr
  | handleException _ h =>
    obtain rfl := hacts
    exact fenced_handleException_iff h hr
  | tick | enqueue | acquireJobLock | runNow | buttonSetToDone | buttonSetToFailed
  | buttonRequeue | buttonCancelled => exact hacts.elim

/-- The jobs of all attempts exist in every run. -/
theorem Reachable.attemptsRun {guard : World → Event → Prop} (h : Reachable guard w) :
    w.AttemptsRun :=
  Reachable.invariant (fun _ _ ha ↦ (List.not_mem_nil ha).elim)
    (fun _ _ _ hrun _ hc ↦ hrun.after hc) h

/-- An attempt whose row is not its own behind an event has lost its claim. -/
theorem mem_lost_of_not_holds (ha : a ∈ (w.after e s').attempts) (hn : ¬ Holds s' a) :
    a.id ∈ (w.after e s').lost :=
  List.mem_append_left _ <| List.mem_map.mpr
    ⟨a, List.mem_filter.mpr ⟨ha, by simpa using hn⟩, rfl⟩

/-- In every run, an attempt that has not lost its claim holds its row. -/
theorem Reachable.holds {guard : World → Event → Prop} (h : Reachable guard w)
    (ha : a ∈ w.attempts) (hn : a.id ∉ w.lost) : Holds w.store a := by
  cases h with
  | init => exact (List.not_mem_nil ha).elim
  | step _ _ hs =>
    obtain ⟨s', _, rfl⟩ := hs
    exact not_not.mp fun hno ↦ hn (mem_lost_of_not_holds ha hno)

/-- **Lost claims**: in every run, an event writes through no lost claim exactly when each
attempt that acts in it after losing its claim finds a row on which the step is
harmless. -/
theorem notWrittenThrough_iff {guard : World → Event → Prop} (h : Reachable guard w)
    (hs : w.Step e w') :
    w.NotWrittenThrough e w' ↔ ∀ a ∈ w.attempts, a.id ∈ w.lost → w.ActsFor a e →
      ∀ r, w.store.get? a.job = some r → w.Harmless a r e := by
  obtain ⟨s', hc, rfl⟩ := hs
  constructor
  · exact fun hfenced a ha hlost hacts r hr ↦
      (fenced_iff_harmless hc hacts hr).mp (hfenced a ha hlost hacts)
  · intro hharmless a ha hlost hacts
    obtain ⟨r, hr, _⟩ := h.attemptsRun a ha
    exact (fenced_iff_harmless hc hacts hr).mpr (hharmless a ha hlost hacts r hr)

/-- A worker looks for a job, with no channel limits and no row locked. -/
def acquire (worker : WorkerUuid) : Event :=
  .acquireJobLock { workerUuid := worker } (fun _ ↦ none) fun _ ↦ false

/-- The acquisition of `acquire`. -/
def acquired (worker : WorkerUuid) (now : Time) (s : Store) : Store × Option JobId :=
  JobWorker.acquireJobLock { workerUuid := worker } (fun _ ↦ none) (fun _ ↦ false) now s

/-- An acquired job starts an attempt. -/
theorem mem_attempts_acquire {worker : WorkerUuid} {job : JobId}
    (h : (acquired worker w.now w.store).2 = some job) :
    ⟨w.nextAttempt, { workerUuid := worker }, job⟩ ∈ (w.after (acquire worker) s').attempts := by
  show _ ∈ w.attemptsAfter (acquire worker)
  rw [acquired] at h
  rw [acquire, attemptsAfter, h]
  exact List.mem_cons_self

/-- An acquisition ends no attempt. -/
theorem mem_attempts_of_acquire {worker : WorkerUuid} (ha : a ∈ w.attempts) :
    a ∈ (w.after (acquire worker) s').attempts := by
  show _ ∈ w.attemptsAfter (acquire worker)
  rw [acquire, attemptsAfter]
  split
  · exact List.mem_cons_of_mem _ ha
  · exact ha

/-- Worker 0 acquires job 1 and stops beating; worker 1 reclaims the job. -/
def reclaimed : Except OrmError (Store × Store × Store) := do
  let (s, _) ← JobWorker.enqueue {} 0 .empty { modelName := "res.partner", methodName := "ping" }
  let s₁ := (acquired 0 0 s).1
  return (s, s₁, (acquired 1 100000000 s₁).1)

/-- The attempt of worker 0 has lost job 1, which is started under worker 1. -/
theorem exists_reclaimed : ∃ (w : World) (a : Attempt) (r : Job),
    Reachable (fun _ _ ↦ True) w ∧ a ∈ w.attempts ∧ a.id ∈ w.lost ∧
      w.store.get? a.job = some r ∧ r.state = .started ∧ r.ownedBy a.cfg.workerUuid = false := by
  have hrun : reclaimed.toOption.bind (fun (s, s₁, s₂) ↦ do
      let r ← s₂.get? 1
      return ((acquired 0 0 s).2, (acquired 1 100000000 s₁).2, r.state, r.workerId)) =
      some (some 1, some 1, .started, some 1) := by decide +kernel
  cases hc : reclaimed with
  | error e => rw [hc] at hrun; cases hrun
  | ok out =>
    rw [hc] at hrun
    obtain ⟨⟨s, j⟩, h, hout⟩ := bind_eq_ok.mp hc
    cases hout
    simp only [Except.toOption, Option.bind_some, Option.bind_eq_bind, Option.pure_def,
      Option.bind_eq_some_iff, Option.some.injEq, Prod.mk.injEq] at hrun
    obtain ⟨r, hr, ha, hb, hstate, hworker⟩ := hrun
    have hn : r.ownedBy 0 = false := by simp [Job.ownedBy, hworker]
    let w₁ := (World.init 0).after
      (.enqueue {} { modelName := "res.partner", methodName := "ping" }) s
    let w₂ := w₁.after (acquire 0) (acquired 0 0 s).1
    let w₃ := w₂.after (.tick 100000000) w₂.store
    have hw₁ : Reachable (fun _ _ ↦ True) w₁ := (Reachable.init 0).step trivial ⟨s, .enqueue h, rfl⟩
    have hw₂ : Reachable (fun _ _ ↦ True) w₂ := hw₁.step trivial ⟨_, .acquireJobLock, rfl⟩
    have hw₃ : Reachable (fun _ _ ↦ True) w₃ := hw₂.step trivial ⟨_, .tick, rfl⟩
    have hmem₂ : ⟨1, { workerUuid := 0 }, 1⟩ ∈ w₂.attempts := mem_attempts_acquire (w := w₁) ha
    have hmem : ⟨1, { workerUuid := 0 }, 1⟩ ∈
        (w₃.after (acquire 1) (acquired 1 100000000 w₂.store).1).attempts :=
      mem_attempts_of_acquire (w := w₃) hmem₂
    refine ⟨_, ⟨1, { workerUuid := 0 }, 1⟩, r, hw₃.step trivial ⟨_, .acquireJobLock, rfl⟩, hmem,
      mem_lost_of_not_holds hmem ?_, hr, hstate, hn⟩
    rintro ⟨q, hq, hown⟩
    rw [show q = r from Option.some.inj (hq.symm.trans hr), hn] at hown
    cases hown

/-- The guard of the heartbeat stops an attempt whose job has been reclaimed. -/
theorem notWrittenThrough_iff_reclaimed : ∃ (w w' : World) (a : Attempt), a ∈ w.attempts ∧
    a.id ∈ w.lost ∧ w.Step (.heartbeatJob a) w' ∧ w.NotWrittenThrough (.heartbeatJob a) w' := by
  obtain ⟨w, a, r, hw, ha, hlost, hr, _, hn⟩ := exists_reclaimed
  have hs : w.Step (.heartbeatJob a) _ := ⟨_, .heartbeatJob ha, rfl⟩
  refine ⟨w, _, a, ha, hlost, hs, (notWrittenThrough_iff hw hs).mpr ?_⟩
  rintro b _ _ rfl q hq hown
  rw [show q = r from Option.some.inj (hq.symm.trans hr), hn] at hown
  cases hown

/-- The old attempt still finalizes a job that another worker has reclaimed: the started
row becomes done under it. -/
theorem not_notWrittenThrough_reclaimed :
    ¬ ∀ (w w' : World) (e : Event), Reachable (fun _ _ ↦ True) w → w.Step e w' →
      w.NotWrittenThrough e w' := by
  intro hall
  obtain ⟨w, a, r, hw, ha, hlost, hr, hstate, _⟩ := exists_reclaimed
  have hfree : w.store.identityKeyDuplicate a.job = false :=
    Store.identityKeyDuplicate_of_active hr (by rw [hstate]; rfl)
  obtain ⟨s₁, hs₁⟩ : ∃ s₁, w.store.write a.job (finalizedRow w.now none) (fun _ ↦ rfl) = .ok s₁ :=
    Store.write_isOk_iff.mpr hfree
  have hfin : JobWorker.finalizeJob w.now none w.store a.job =
      .ok (cascadeSuccessToDependents w.now s₁ a.job) := bind_eq_ok.mpr ⟨s₁, hs₁, rfl⟩
  have hfenced := hall w _ (.finalizeJob a none) hw ⟨_, .finalizeJob ha hfin, rfl⟩ a ha hlost rfl
  have hdone := ((fenced_finalizeJob_iff hfin hr).mp hfenced).1.1
  rw [hstate] at hdone
  cases hdone

end World
end JobWorker
