import JobWorker.Runs.WorkerRuns

/-!
# The diagnosis of a stalled worker

Before the supervisor exits a process for a stalled worker, it writes the reason onto the rows
that every worker of the process has in hand (`job_worker/cli/runner.py:483–590`). Those jobs are
reclaimed later, and `acquire_job_lock` appends its own reason when they are out of retries
(`job_worker/cli/worker.py:685–707`).
-/

namespace JobWorker

open Transition

/-- `CASE WHEN exc_info IS NULL OR exc_info = '' THEN reason ELSE exc_info || E'\n' || reason END`;
`cli/runner.py:551–554`. -/
def appendReason (excInfo : Option String) (reason : String) : String :=
  if excInfo.getD "" = "" then reason else excInfo.getD "" ++ "\n" ++ reason

/-- An exhausted reclaim appends its reason. -/
theorem excInfo_workerDiedRow (now : Time) (r : Job) :
    (workerDiedRow now r).excInfo = some (appendReason r.excInfo workerDiedReason) := rfl

/-- A diagnosis is kept. -/
theorem appendReason_of_ne {d : String} (hd : d ≠ "") (reason : String) :
    appendReason (some d) reason = d ++ "\n" ++ reason := by
  rw [appendReason, Option.getD_some, if_neg hd]

/-- A row with a reason has a diagnosis. -/
theorem appendReason_ne_empty {reason : String} (h : reason ≠ "") (excInfo : Option String) :
    appendReason excInfo reason ≠ "" := by
  unfold appendReason
  split
  · exact h
  · intro hempty
    rw [String.append_eq_empty_iff] at hempty
    exact h hempty.2

/-- The statement of `_stamp_one_db`; `cli/runner.py:528–569`. -/
def stampOneDb (worker : WorkerUuid) (reason : String) (s : Store) : Store :=
  s.update (fun _ r ↦ r.ownedBy worker)
    (fun _ r ↦ { r with excInfo := some (appendReason r.excInfo reason) })
    fun _ _ _ _ ↦ ⟨rfl, id⟩

/-- A row behind the stamp. -/
theorem get?_stampOneDb (worker : WorkerUuid) (reason : String) (s : Store) (i : JobId) :
    (stampOneDb worker reason s).get? i = (s.get? i).map fun r ↦
      if r.ownedBy worker then { r with excInfo := some (appendReason r.excInfo reason) } else r :=
  Store.get?_update _ _ _ _ _

/-- A stall as it is reported: the database of the worker, `f"{age:.0f}"`, and the limit. -/
structure Stall where
  dbName : String
  age : String
  limit : String

namespace Stall

variable (stall : Stall)

/-- `cli/runner.py:506–512`. -/
def stalledReason : String :=
  s!"WorkerStalledError: the worker made no progress for {stall.age}s " ++
  s!"(limit {stall.limit}s) and the process was " ++
  "terminated so the restart policy could recover it. This is NOT an " ++
  "OOM kill — look for a blocked query or a wedged loop rather than " ++
  "limit_memory_hard."

/-- `cli/runner.py:513–519`. -/
def collateralReason : String :=
  "WorkerStalledError: this job was orphaned because the worker for " ++
  s!"database '{stall.dbName}' in the same process made no progress for " ++
  s!"{stall.age}s (limit {stall.limit}s) and the " ++
  "process was terminated. This job's own database was not necessarily " ++
  "at fault, and this is NOT an OOM kill."

/-- `stalled_reason if target_db == db_name else collateral_reason`; `cli/runner.py:523–526`. -/
def reason (target : String) : String :=
  if target = stall.dbName then stall.stalledReason else stall.collateralReason

/-- Every row is told why. -/
theorem reason_ne_empty (target : String) : stall.reason target ≠ "" := by
  unfold reason
  split
  · intro hempty
    exact absurd (String.append_eq_empty_iff.mp hempty).2 (by decide)
  · intro hempty
    exact absurd (String.append_eq_empty_iff.mp hempty).2 (by decide)

end Stall

/-- `_worker_instances`, with `None` for a worker that is not there. -/
structure WorkerInstances where
  items : List (String × Option WorkerUuid)
  nodup : (items.map Prod.fst).Nodup

/-- `_stamp_one_db` for one of them, where its connection may fail; `cli/runner.py:520–569`. -/
def stampInstance (stall : Stall) (connects : String → Bool) (dbs : String → World)
    (instance? : String × Option WorkerUuid) : String → World :=
  match instance?.2 with
  | none => dbs
  | some worker =>
    if connects instance?.1 then
      Function.update dbs instance?.1
        { dbs instance?.1 with
          store := stampOneDb worker (stall.reason instance?.1) (dbs instance?.1).store }
    else dbs

/-- `_stamp_stalled_jobs`; `cli/runner.py:483–526`. -/
def stampStalledJobs (stall : Stall) (connects : String → Bool) (dbs : String → World)
    (instances : List (String × Option WorkerUuid)) : String → World :=
  instances.foldl (stampInstance stall connects) dbs

section Stamps

variable {stall : Stall} {connects : String → Bool} {dbs : String → World} {db : String}
  {worker : WorkerUuid} {instances : List (String × Option WorkerUuid)}

/-- The stamp of one database leaves the others. -/
theorem stampInstance_of_ne {p : String × Option WorkerUuid} (h : db ≠ p.1) :
    stampInstance stall connects dbs p db = dbs db := by
  unfold stampInstance
  cases p.2 with
  | none => rfl
  | some worker =>
    dsimp only
    split
    · exact Function.update_of_ne h _ _
    · rfl

/-- A database without a worker of the process is left. -/
theorem stampStalledJobs_of_not_mem (h : db ∉ instances.map Prod.fst) :
    stampStalledJobs stall connects dbs instances db = dbs db := by
  induction instances generalizing dbs with
  | nil => rfl
  | cons p instances ih =>
    rw [List.map_cons, List.mem_cons, not_or] at h
    exact (ih h.2).trans (stampInstance_of_ne h.1)

/-- The database of a worker is stamped once, with the reason for it. -/
theorem stampStalledJobs_of_mem (hnodup : (instances.map Prod.fst).Nodup)
    (hmem : (db, some worker) ∈ instances) (hconnects : connects db = true) :
    stampStalledJobs stall connects dbs instances db =
      { dbs db with store := stampOneDb worker (stall.reason db) (dbs db).store } := by
  induction instances generalizing dbs with
  | nil => cases hmem
  | cons p instances ih =>
    rw [List.map_cons, List.nodup_cons] at hnodup
    rcases List.mem_cons.mp hmem with rfl | hmem
    · refine (stampStalledJobs_of_not_mem hnodup.1).trans ?_
      simp only [stampInstance, hconnects, if_true, Function.update_self]
    · have hne : db ≠ p.1 := by
        rintro rfl
        exact hnodup.1 (List.mem_map.mpr ⟨_, hmem, rfl⟩)
      refine (ih hnodup.2 hmem).trans ?_
      rw [stampInstance_of_ne hne]

end Stamps

namespace World

/-- No attempt of job `j` records an outcome or a timeout, and nobody calls a method on it. -/
def LeftAlone (j : JobId) : Event → Prop
  | .handleTimeout a _ | .finalizeJob a _ | .handleException a _ _ => a.job ≠ j
  | e => j ∉ calledOn e

instance (j : JobId) : ∀ e, Decidable (LeftAlone j e)
  | .handleTimeout a _ | .finalizeJob a _ | .handleException a _ _ =>
    inferInstanceAs (Decidable (a.job ≠ j))
  | .runNow _ _ | .buttonSetToDone _ | .buttonSetToFailed _ | .buttonRequeue _
  | .buttonCancelled _ | .tick _ | .enqueue _ _ | .acquireJobLock _ _ _ | .heartbeatJob _
  | .updateHeartbeats _ | .clearWorkerOwnership _ | .die _ =>
    inferInstanceAs (Decidable (j ∉ _))

/-- The row has diagnosis `d`, and behind an exhausted reclaim its reason too. -/
inductive Diagnosed (d : String) (r : Job) : Prop
  | started : r.state = .started → r.excInfo = some d → Diagnosed d r
  | failed : r.state = .failed → r.excInfo = some (d ++ "\n" ++ workerDiedReason) →
      Diagnosed d r

section Run

variable {w w₀ : World} {e : Event} {s' : Store} {j : JobId} {r : Job} {d : String}

/-- One event keeps the diagnosis. -/
theorem diagnosed_of_commits (hd : d ≠ "") (hg : LeftAlone j e) (h : w.Commits e s')
    (hr : w.store.get? j = some r) (hdiag : Diagnosed d r) :
    ∃ r', s'.get? j = some r' ∧ Diagnosed d r' := by
  obtain ⟨r', hr', heffect⟩ := h.row hr
  refine ⟨r', hr', ?_⟩
  have hactive (ha : r.state.isActive = true) : r.state = .started ∧ r.excInfo = some d := by
    cases hdiag with
    | started hs hexc => exact ⟨hs, hexc⟩
    | failed hs => rw [hs] at ha; cases ha
  have hsame {r' : Job} (hs : r'.state = r.state) (hexc : r'.excInfo = r.excInfo) :
      Diagnosed d r' := by
    cases hdiag with
    | started hstate hexc' => exact .started (hs.trans hstate) (hexc.trans hexc')
    | failed hstate hexc' => exact .failed (hs.trans hstate) (hexc.trans hexc')
  cases heffect with
  | cascaded hc =>
    rw [hc.eq]
    · exact hdiag
    · cases hdiag with
      | started hs => rw [Job.isWaiting, hs]; rfl
      | failed hs => rw [Job.isWaiting, hs]; rfl
  | acquired _ ha =>
    obtain ⟨hs, hexc⟩ := hactive (WorkerConfig.isActive_of_acquirable ha)
    rw [WorkerConfig.acquiredRow, if_pos hs]
    exact .started rfl hexc
  | workerDied ha =>
    obtain ⟨_, hexc⟩ := hactive (WorkerConfig.isActive_of_acquirable ha)
    refine .failed rfl ?_
    rw [excInfo_workerDiedRow, hexc, appendReason_of_ne hd]
  | heartbeatJob | updateHeartbeats | clearWorkerOwnership => exact hsame rfl rfl
  | handleTimeout | finalizeJob | handleException => exact absurd rfl hg
  | called hi =>
    cases e with
    | runNow | buttonSetToDone | buttonSetToFailed | buttonRequeue | buttonCancelled =>
      exact absurd hi hg
    | _ => cases hi

end Run

/-- **The diagnosis of a stall survives**: a job in the hands of a worker whose process is exited
for a stall, in a database that could be reached, keeps the reason behind what its row said
before, whoever picks it up and dies with it; and if it runs out of retries, then its row says
both. -/
theorem diagnosed_of_stamped {stall : Stall} {connects : String → Bool} {dbs : String → World}
    {instances : WorkerInstances} {db : String} {worker : WorkerUuid} {j : JobId} {r : Job}
    {mid : List (World × Event)} {w : World} (hmem : (db, some worker) ∈ instances.items)
    (hconnects : connects db = true) (hr : (dbs db).store.get? j = some r)
    (hown : r.ownedBy worker = true)
    (h : Transition.Run (· = stampStalledJobs stall connects dbs instances.items db) World.Step
      mid w)
    (hg : Guarded (fun _ ↦ LeftAlone j) mid) :
    ∃ r', w.store.get? j = some r' ∧
      Diagnosed (appendReason r.excInfo (stall.reason db)) r' := by
  refine h.invariant (P := fun w ↦ ∃ r', w.store.get? j = some r' ∧
    Diagnosed (appendReason r.excInfo (stall.reason db)) r') hg ?_ ?_
  · rintro _ rfl
    rw [stampStalledJobs_of_mem instances.nodup hmem hconnects, get?_stampOneDb, hr,
      Option.map_some, if_pos hown]
    refine ⟨_, rfl, .started ?_ rfl⟩
    rw [Job.ownedBy, Bool.and_eq_true, beq_iff_eq] at hown
    exact hown.1
  · rintro w e _ ⟨r', hr', hdiag⟩ hg ⟨s', hc, rfl⟩
    exact diagnosed_of_commits (appendReason_ne_empty (stall.reason_ne_empty db) _) hg hc hr' hdiag

/-- A job with one retry in the hands of worker 0. -/
def inHand : World :=
  ((script [] (init 0) [
    .enqueue {} { modelName := "res.partner", methodName := "ping", maxRetries := some 1 },
    .acquireJobLock { workerUuid := 0 } (fun _ ↦ none) fun _ ↦ false]).getD ([], init 0)).2

/-- Worker 1 reclaims the job, does not complete it either, and reclaims it again. -/
def reclaimedTwice : List Event :=
  let reclaim := [.tick 100000000, .acquireJobLock { workerUuid := 1 } (fun _ ↦ none) fun _ ↦ false]
  reclaim ++ reclaim

/-- The row of the failed job has both reasons. -/
theorem diagnosed_of_stamped_reclaimedTwice : ∃ (w : World) (r : Job),
    w.store.get? 1 = some r ∧ r.state = .failed ∧
      Diagnosed (Stall.reason ⟨"prod", "901", "900"⟩ "prod") r := by
  have hhand : (inHand.store.get? 1).map (fun r ↦ (r.ownedBy 0, r.excInfo)) =
      some (true, none) := by decide +kernel
  obtain ⟨r, hr, hrow⟩ := Option.map_eq_some_iff.mp hhand
  simp only [Prod.mk.injEq] at hrow
  let instances : WorkerInstances := ⟨[("prod", some 0)], List.nodup_singleton _⟩
  let stamped := stampStalledJobs ⟨"prod", "901", "900"⟩ (fun _ ↦ true) (fun _ ↦ inHand)
    instances.items "prod"
  have hrun : (replay World.next stamped reclaimedTwice).map (fun q ↦ (
      q.2.store.stateOf 1, q.1.all fun p ↦ decide (LeftAlone 1 p.2))) =
        some (some .failed, true) := by decide +kernel
  obtain ⟨⟨mid, w⟩, hs, hw⟩ := Option.map_eq_some_iff.mp hrun
  simp only [Prod.mk.injEq, List.all_eq_true, decide_eq_true_eq] at hw
  have hrun : Transition.Run (· = stamped) World.Step mid w := .of_replay step_of_next rfl hs
  obtain ⟨r', hr', hdiag⟩ :=
    diagnosed_of_stamped (List.mem_singleton_self _) rfl hr hrow.1 hrun hw.2
  rw [Store.stateOf_of_get? hr', Option.some.injEq] at hw
  rw [hrow.2, show appendReason none (Stall.reason ⟨"prod", "901", "900"⟩ "prod") = _ from rfl]
    at hdiag
  exact ⟨w, r', hr', hw.1, hdiag⟩

end World
end JobWorker
