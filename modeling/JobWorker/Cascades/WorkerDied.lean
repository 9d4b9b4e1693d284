import JobWorker.Cascades.Failure

/-!
# The raw-SQL cascade of an exhausted reclaim

`acquire_job_lock` fails a stale job whose reclaims are exhausted and cascades with two flat
statements (`job_worker/cli/worker.py:687–746`). Against the walk of
`_cascade_children_on_parent_failure` followed by `_fail_dependents` they miss every job
further down a failing chain, unless that job lists the failed one itself.
-/

namespace JobWorker

open Reachability

section SqlCascade

variable {now now' : Time} {s : Store} {j i : JobId} {r : Job}

/-- The two statements move the waiting children and the waiting dependents of `j`. -/
theorem get?_cascadeWorkerDied (hr : s.get? i = some r) :
    (cascadeWorkerDied now s j).get? i =
      some (if r.isWaiting = true ∧ r.WaitsOn j then workerDiedDependentRow now j r else r) := by
  have hn : (workerDiedDependentRow now j r).isWaiting = false := by
    simp only [workerDiedDependentRow, Job.isWaiting]
    split <;> rfl
  have hrow : (cascadeWorkerDied now s j).get? i =
      some (if Store.isWaitingChild j r || isWaitingDependent j r then
        workerDiedDependentRow now j r else r) := by
    unfold cascadeWorkerDied workerDiedDependents workerDiedChildren
    rw [Store.get?_update, Store.get?_update, hr, Option.map_some, Option.map_some]
    cases hc : Store.isWaitingChild j r with
    | true => simp [isWaitingDependent, hn]
    | false => simp
  rw [hrow]
  congr 1
  simp only [Store.isWaitingChild, isWaitingDependent, Job.WaitsOn, Bool.or_eq_true,
    Bool.and_eq_true, beq_iff_eq]
  by_cases hw : r.isWaiting = true
  · simp only [hw, and_true, true_and]
  · simp [hw]

/-- A moved row takes the state of its disposition. -/
theorem stateOf_cascadeWorkerDied (hr : s.get? i = some r) :
    (cascadeWorkerDied now s j).stateOf i =
      some (if r.isWaiting = true ∧ r.WaitsOn j then
        (if r.runOnFailure then .pending else .failed) else r.state) := by
  rw [Store.stateOf, get?_cascadeWorkerDied hr, Option.map_some]
  congr 1
  split <;> rfl

/-- The two statements move a waiting row that waits on `j`, and leave every other row. -/
theorem stateOf_cascadeWorkerDied_cases (hr : s.get? i = some r) :
    (r.isWaiting = true ∧ r.WaitsOn j → (cascadeWorkerDied now s j).stateOf i =
      some (if r.runOnFailure then .pending else .failed)) ∧
      (¬ (r.isWaiting = true ∧ r.WaitsOn j) →
        (cascadeWorkerDied now s j).stateOf i = some r.state) := by
  rw [stateOf_cascadeWorkerDied hr]
  exact ⟨fun h ↦ by rw [if_pos h], fun h ↦ by rw [if_neg h]⟩

/-- The statement on the dependents keeps the wiring of the store. -/
theorem sameWiring_workerDiedDependents (now : Time) (s : Store) (j : JobId) :
    s.SameWiring (workerDiedDependents now s j) := Store.sameColumn_update _ fun _ _ ↦ rfl

/-- The two statements keep the wiring of the store. -/
theorem sameWiring_cascadeWorkerDied (now : Time) (s : Store) (j : JobId) :
    s.SameWiring (cascadeWorkerDied now s j) := by
  have hchildren : s.SameWiring (workerDiedChildren now s j) :=
    Store.sameColumn_update _ fun _ _ ↦ rfl
  exact hchildren.trans (sameWiring_workerDiedDependents now _ j)

/-- The ORM cascade moves what its walk reaches and the waiting dependents of `j`. -/
theorem stateOf_cascadeFailureToDependents (hr : s.get? i = some r) :
    (s.Reached (failureRule now) [j] i ∨ r.isWaiting = true ∧ r.dependsOn j = true →
      (cascadeFailureToDependents now s j).stateOf i =
        some (if r.runOnFailure then .pending else .failed)) ∧
      (¬ s.Reached (failureRule now) [j] i → ¬ (r.isWaiting = true ∧ r.dependsOn j = true) →
        (cascadeFailureToDependents now s j).stateOf i = some r.state) := by
  rw [cascadeFailureToDependents, cascadeChildrenOnParentFailure_eq_walk]
  by_cases hreach : s.Reached (failureRule now) [j] i
  · refine ⟨fun _ ↦ ?_, fun hno ↦ absurd hreach hno⟩
    obtain ⟨q, r', hr', hq⟩ := hreach.childOf
    rw [hr] at hr'
    cases hr'
    have hrow := Store.get?_walk_of_reached (failureRule now) s [j] hr hq hreach
    rw [Store.stateOf, get?_failDependents_of_not_dependent now hrow
      (by simp [(failureRule now).not_waiting_write])]
    simp only [failureRule, Option.map_some]
    split <;> rfl
  · have hrow := Store.get?_walk_of_not_reached (failureRule now) s [j] hreach
    rw [hr] at hrow
    refine ⟨fun h ↦ ?_, fun _ hno ↦ ?_⟩
    · obtain ⟨hw, hd⟩ := h.resolve_left hreach
      exact stateOf_failDependents now hrow hw ⟨j, List.mem_singleton_self j, hd⟩
    · rw [Store.stateOf, get?_failDependents_of_not_dependent now hrow
        (by simpa using hno)]
      rfl

end SqlCascade

/-- The reclaim of `j` in `acquire_job_lock` is the one that exhausts its retries. -/
structure ReclaimExhausts (cfg : WorkerConfig) (limits : QueueLimits) (locked : JobId → Bool)
    (now : Time) (s : Store) (j : JobId) (r : Job) : Prop where
  find : (cfg.candidates limits now s).find? (fun i ↦ !locked i) = some j
  row : s.get? j = some r
  started : r.state = .started
  exhausted : JobWorker.exhausted r = true

/-- Every job that fails or is promoted down the chain below `j` is also a direct child or
dependent of `j`. -/
def Store.FlatBelow (s : Store) (j : JobId) : Prop :=
  ∀ i r, s.get? i = some r → s.FailureBelow [j] i → r.WaitsOn j

section Exhausted

variable {cfg : WorkerConfig} {limits : QueueLimits} {locked : JobId → Bool} {now : Time}
  {s : Store} {j : JobId} {r : Job}

theorem ReclaimExhausts.isActive (h : ReclaimExhausts cfg limits locked now s j r) :
    r.state.isActive = true := by
  rw [h.started]
  rfl

theorem identityKey_workerDiedRow (now : Time) (r : Job) :
    (workerDiedRow now r).identityKey = r.identityKey := rfl

/-- The store in which the exhausted job itself has failed. -/
def ReclaimExhausts.failed (h : ReclaimExhausts cfg limits locked now s j r) : Store :=
  s.updateLocked j r h.row h.isActive (workerDiedRow now) (identityKey_workerDiedRow now r)

/-- The exhausted reclaim fails its job and cascades. -/
theorem ReclaimExhausts.acquire (h : ReclaimExhausts cfg limits locked now s j r) :
    acquireJobLock cfg limits locked now s = (cascadeWorkerDied now h.failed j, none) := by
  rw [acquireJobLock_of_find h.find h.row, acquireRow, if_neg (by simp [h.started]),
    if_pos h.exhausted]
  rfl

/-- The failing row is the only one that changes. -/
theorem ReclaimExhausts.get? (h : ReclaimExhausts cfg limits locked now s j r)
    (i : JobId) : h.failed.get? i = if i = j then some (workerDiedRow now r) else s.get? i :=
  get?_updateLocked _ _ _ _

/-- Failing the job keeps the wiring of the store. -/
theorem ReclaimExhausts.sameWiring (h : ReclaimExhausts cfg limits locked now s j r) :
    s.SameWiring h.failed := by
  intro i
  rw [h.get?]
  split
  · next hi => rw [hi, h.row]; rfl
  · rfl

private theorem ReclaimExhausts.waiting (h : ReclaimExhausts cfg limits locked now s j r)
    (i : JobId) : h.failed.Waiting i ↔ s.Waiting i ∧ i ∉ [j] := by
  rw [List.mem_singleton, Store.Waiting, h.get?]
  by_cases hi : i = j
  · simp [hi, workerDiedRow, Job.isWaiting]
  · simp [hi, Store.Waiting]

/-- The walk of the ORM cascade reaches the jobs below `j` in the store before. -/
theorem ReclaimExhausts.reached_iff (h : ReclaimExhausts cfg limits locked now s j r)
    (now' : Time) (i : JobId) :
    h.failed.Reached (failureRule now') [j] i ↔ s.FailureBelow [j] i := by
  apply below_congr
  · intro a
    simp only [h.sameWiring.childOf]
  · intro a
    rw [h.sameWiring.follows]
    simp [Store.Follows, Store.OnDone, failureRule]
  · exact h.waiting
  · exact fun a b ↦ h.sameWiring.childOf

end Exhausted

/-- The two cascades leave every other job in the same state exactly when nothing lies
deeper below the exhausted job than its own children and dependents. -/
theorem cascadeWorkerDied_agrees_iff {cfg : WorkerConfig} {limits : QueueLimits}
    {locked : JobId → Bool} {now : Time} {s : Store} {j : JobId} {r : Job}
    (h : ReclaimExhausts cfg limits locked now s j r) (now' : Time) :
    (∀ i, i ≠ j → (acquireJobLock cfg limits locked now s).1.stateOf i =
      (cascadeFailureToDependents now' h.failed j).stateOf i) ↔ s.FlatBelow j := by
  rw [h.acquire]
  have hrow {i : JobId} (hi : i ≠ j) : h.failed.get? i = s.get? i := by
    rw [h.get?, if_neg hi]
  constructor
  · intro hagree i q hq hbelow
    have hi : i ≠ j := fun he ↦ hbelow.entered.2 (List.mem_singleton.mpr he)
    have hw : q.isWaiting = true := (Store.waiting_iff hq).mp hbelow.entered.1
    have ha := hagree i hi
    rw [← hrow hi] at hq
    rw [stateOf_cascadeWorkerDied hq, (stateOf_cascadeFailureToDependents hq).1
      (.inl ((h.reached_iff now' i).mpr hbelow))] at ha
    by_contra hn
    rw [if_neg fun hc ↦ hn hc.2, Job.isWaiting_iff.mp hw] at ha
    split at ha <;> cases ha
  · intro hflat i hi
    cases hq : s.get? i with
    | none =>
      have hnone : h.failed.get? i = none := by rw [hrow hi, hq]
      have hsql : (cascadeWorkerDied now h.failed j).get? i = none := by
        simp [cascadeWorkerDied, workerDiedDependents, workerDiedChildren, hnone]
      have horm : (cascadeFailureToDependents now' h.failed j).get? i = none := by
        rw [cascadeFailureToDependents, cascadeChildrenOnParentFailure_eq_walk]
        exact ((Store.sameWiring_walk _ _ _).trans
          (sameWiring_failDependents _ _ _)).none hnone
      rw [Store.stateOf, Store.stateOf, hsql, horm]
    | some q =>
      have hq' : h.failed.get? i = some q := by rw [hrow hi, hq]
      rw [stateOf_cascadeWorkerDied hq']
      by_cases hwait : q.isWaiting = true ∧ q.WaitsOn j
      · rw [if_pos hwait, (stateOf_cascadeFailureToDependents hq').1]
        rcases hwait.2 with hp | hd
        · refine .inl ((h.reached_iff now' i).mpr (.seed ⟨j, List.mem_singleton_self j, ?_⟩ ?_))
          · exact (Store.childOf_iff hq).mpr hp
          · exact ⟨(Store.waiting_iff hq).mpr hwait.1, by simpa using hi⟩
        · exact .inr ⟨hwait.1, hd⟩
      · have hn : ¬ h.failed.Reached (failureRule now') [j] i := by
          rw [h.reached_iff]
          exact fun hb ↦ hwait ⟨(Store.waiting_iff hq).mp hb.entered.1, hflat i q hq hb⟩
        rw [if_neg hwait, (stateOf_cascadeFailureToDependents hq').2 hn
          fun hd ↦ hwait ⟨hd.1, .inr hd.2⟩]

/-- A stale job out of retries with a chain of two links behind it. -/
def staleBeforeChain : Store := .ofRows [
  { payload := .ping, state := .started, channel := some "root", attempts := some 1,
    maxRetries := some 1 },
  { payload := .ping, state := .waiting, parentId := some 1 },
  { payload := .ping, state := .waiting, parentId := some 2 }]

private theorem staleBeforeChain_exhausts :
    ReclaimExhausts { workerUuid := 0 } (fun _ ↦ none) (fun _ ↦ false) 0 staleBeforeChain 1
      { payload := .ping, state := .started, channel := some "root", attempts := some 1,
        maxRetries := some 1 } :=
  ⟨by decide +kernel, by decide +kernel, rfl, by decide⟩

/-- The equivalence at the stale job before a chain. -/
theorem cascadeWorkerDied_agrees_iff_staleBeforeChain :
    (∀ i, i ≠ 1 → (acquireJobLock { workerUuid := 0 } (fun _ ↦ none) (fun _ ↦ false) 0
        staleBeforeChain).1.stateOf i =
      (cascadeFailureToDependents 0 staleBeforeChain_exhausts.failed 1).stateOf i) ↔
      staleBeforeChain.FlatBelow 1 :=
  cascadeWorkerDied_agrees_iff staleBeforeChain_exhausts 0

/-- The second link fails in the ORM cascade and stays waiting in the raw-SQL one. -/
theorem not_cascadeWorkerDied_agrees_staleBeforeChain :
    ¬ ∀ i, i ≠ 1 → (acquireJobLock { workerUuid := 0 } (fun _ ↦ none) (fun _ ↦ false) 0
        staleBeforeChain).1.stateOf i =
      (cascadeFailureToDependents 0 staleBeforeChain_exhausts.failed 1).stateOf i := by
  intro hagree
  have hsql : (acquireJobLock { workerUuid := 0 } (fun _ ↦ none) (fun _ ↦ false) 0
      staleBeforeChain).1.stateOf 3 = some .waiting := by decide +kernel
  have horm : (cascadeFailureToDependents 0 staleBeforeChain_exhausts.failed 1).stateOf 3 =
      some .failed := by decide +kernel
  have h := hagree 3 (by decide)
  rw [hsql, horm] at h
  cases h

end JobWorker
