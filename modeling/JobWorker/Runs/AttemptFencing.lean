import JobWorker.Runs.LostClaims

/-!
# A late attempt and the row of its successor

A timed-out thread cannot be killed: it returns, and releases its claim, at any later time
(`job_worker/cli/worker.py:784–933`). By then the job may have been reclaimed. The guards
of its statements compare the `worker_id` of the row, which names a process: they keep the
thread from the row of an attempt on another worker, and only from that.
-/

namespace JobWorker
namespace World

/-- A later attempt on the same job holds the row. -/
structure Superseded (w : World) (a b : Attempt) : Prop where
  mem : b ∈ w.attempts
  job : b.job = a.job
  later : a.id < b.id
  holds : Holds w.store b

/-- The statements by which an attempt keeps, paces or releases its claim, with the batch
heartbeat of its worker. -/
inductive WritesLate (a : Attempt) : Event → Prop
  | heartbeatJob : WritesLate a (.heartbeatJob a)
  | updateHeartbeats : WritesLate a (.updateHeartbeats a.cfg.workerUuid)
  | handleTimeout (timeout : Int) : WritesLate a (.handleTimeout a timeout)
  | clearWorkerOwnership : WritesLate a (.clearWorkerOwnership a)

/-- An event leaves the row of attempt `b` unchanged: the claim is held as before, and no
worker can acquire the job that could not before. -/
structure LeavesRow (w w' : World) (b : Attempt) : Prop where
  row : w'.store.get? b.job = w.store.get? b.job
  holds : Holds w'.store b
  notReleased : ∀ cfg : WorkerConfig, ∀ r', w'.store.get? b.job = some r' →
    cfg.acquirable w'.now r' = true → ∃ r, w.store.get? b.job = some r ∧
      cfg.acquirable w.now r = true

/-- The statement writes what is on the row already. -/
def WritesSame (w : World) (a : Attempt) (r : Job) : Event → Prop
  | .heartbeatJob _ => r.heartbeat = some w.now
  | .updateHeartbeats worker => a.job ∈ w.activeJobIds worker → r.heartbeat = some w.now
  | .handleTimeout _ timeout => timeoutRow a.cfg timeout w.now r = r
  | .clearWorkerOwnership _ => False
  | _ => True

variable {w w' : World} {e : Event} {a b : Attempt} {r : Job} {s' : Store}

/-- Time stands still and the row is as before. -/
theorem leavesRow_iff (hl : WritesLate a e) (hb : Holds w.store b) :
    LeavesRow w (w.after e s') b ↔ s'.get? b.job = w.store.get? b.job := by
  constructor
  · exact fun h ↦ h.row
  · intro hrow
    have hnow : (w.after e s').now = w.now := by cases hl <;> rfl
    refine ⟨hrow, ?_, fun cfg r' hr' hacq ↦ ⟨r', hrow ▸ hr', hnow ▸ hacq⟩⟩
    obtain ⟨r, hr, hown⟩ := hb
    exact ⟨r, hrow.trans hr, hown⟩

/-- A statement leaves a row that it does not match, or rewrites to itself. -/
theorem get?_update_eq_iff {s : Store} {i : JobId} {p : JobId → Job → Bool}
    {f : JobId → Job → Job} (hk : s.Keeps p f) (hr : s.get? i = some r) :
    (s.update p f hk).get? i = s.get? i ↔ (p i r = true → f i r = r) := by
  rw [Store.get?_update, hr, Option.map_some, Option.some.injEq]
  split
  · next hp => simp [hp]
  · next hp => simp [hp]

/-- Only the heartbeat is written. -/
theorem heartbeat_eq_iff {beat : Option Time} :
    ({ r with heartbeat := beat } : Job) = r ↔ r.heartbeat = beat := by
  constructor
  · intro h
    rw [← h]
  · rintro rfl
    rfl

/-- A late statement of `a` leaves the row of its successor exactly when the successor runs
on another worker, or the statement writes what is there. -/
theorem leavesRow_iff_otherWorker (hb : w.Superseded a b) (hl : WritesLate a e)
    (hs : w.Step e w') (hr : w.store.get? b.job = some r) :
    LeavesRow w w' b ↔ b.cfg.workerUuid ≠ a.cfg.workerUuid ∨ w.WritesSame a r e := by
  obtain ⟨s', hc, rfl⟩ := hs
  obtain ⟨q, hq, hown⟩ := hb.holds
  obtain rfl : r = q := Option.some.inj (hr.symm.trans hq)
  rw [Job.ownedBy, Bool.and_eq_true, beq_iff_eq, beq_iff_eq] at hown
  have hguard (worker : WorkerUuid) :
      r.ownedBy worker = true ↔ b.cfg.workerUuid = worker := by
    rw [Job.ownedBy, hown.1, hown.2]
    simp
  have hworker (worker : WorkerUuid) :
      (r.workerId == some worker) = true ↔ b.cfg.workerUuid = worker := by
    rw [hown.2]
    simp
  have hjob : (b.job == a.job) = true := beq_iff_eq.mpr hb.job
  rw [leavesRow_iff hl hb.holds]
  cases hl with
  | heartbeatJob =>
    cases hc
    refine (get?_update_eq_iff _ hr).trans ?_
    rw [hjob, Bool.true_and, hguard, heartbeat_eq_iff, WritesSame, imp_iff_not_or]
  | updateHeartbeats =>
    cases hc
    refine (get?_update_eq_iff _ hr).trans ?_
    rw [Bool.and_eq_true, List.contains_iff_mem, hworker, heartbeat_eq_iff, hb.job, and_comm,
      and_imp, WritesSame, imp_iff_not_or]
  | handleTimeout timeout =>
    cases hc
    refine (get?_update_eq_iff _ hr).trans ?_
    rw [hjob, Bool.true_and, hguard, WritesSame, imp_iff_not_or]
  | clearWorkerOwnership =>
    cases hc
    refine (get?_update_eq_iff _ hr).trans ?_
    rw [hjob, Bool.true_and, hworker, WritesSame, or_false]
    refine forall_congr' fun _ ↦ iff_of_false (fun h ↦ ?_) id
    have hnone := congrArg Job.workerId h
    rw [hown.2] at hnone
    cases hnone

/-! ### A late return -/

/-- Worker 0 acquires job 1, which overruns its timeout of five seconds; a worker reclaims
the job when the heartbeat is stale. -/
def reclaimedBehindTimeout (worker : WorkerUuid) :
    Except OrmError (Store × Store × Store × Store) := do
  let (s, _) ← JobWorker.enqueue {} 0 .empty
    { modelName := "res.partner", methodName := "ping", timeout := some 5 }
  let s₁ := (acquired 0 0 s).1
  let s₂ := JobWorker.handleTimeout { workerUuid := 0 } 5 5000000 s₁ 1
  return (s, s₁, s₂, (acquired worker 100000000 s₂).1)

/-- The attempt that worker 0 has abandoned and its successor. -/
theorem exists_superseded {worker : WorkerUuid} (hw : worker = 0 ∨ worker = 1) :
    ∃ (w : World) (b : Attempt) (r : Job), Reachable (fun _ _ ↦ True) w ∧
      ⟨1, { workerUuid := 0 }, 1⟩ ∈ w.attempts ∧
      w.Superseded ⟨1, { workerUuid := 0 }, 1⟩ b ∧ b.cfg.workerUuid = worker ∧
      w.store.get? b.job = some r := by
  have hrun : (reclaimedBehindTimeout worker).toOption.bind (fun (s, s₁, s₂, s₃) ↦ do
      let r ← s₃.get? 1
      return ((acquired 0 0 s).2, (acquired worker 100000000 s₂).2, r.state, r.workerId,
        timeoutRaises { workerUuid := 0 } s₁ 1)) =
      some (some 1, some 1, .started, some worker, false) := by
    rcases hw with rfl | rfl <;> decide +kernel
  cases hc : reclaimedBehindTimeout worker with
  | error e => rw [hc] at hrun; cases hrun
  | ok out =>
    rw [hc] at hrun
    obtain ⟨⟨s, j⟩, h, hout⟩ := bind_eq_ok.mp hc
    cases hout
    simp only [Except.toOption, Option.bind_some, Option.bind_eq_bind, Option.pure_def,
      Option.bind_eq_some_iff, Option.some.injEq, Prod.mk.injEq] at hrun
    obtain ⟨r, hr, ha, hb, hstate, hworker, hraises⟩ := hrun
    let a : Attempt := ⟨1, { workerUuid := 0 }, 1⟩
    let b : Attempt := ⟨5, { workerUuid := worker }, 1⟩
    let w₁ := (World.init 0).after (.enqueue {}
      { modelName := "res.partner", methodName := "ping", timeout := some 5 }) s
    let w₂ := w₁.after (acquire 0) (acquired 0 0 s).1
    let w₃ := w₂.after (.tick 5000000) w₂.store
    let w₄ := w₃.after (.handleTimeout a 5) (JobWorker.handleTimeout a.cfg 5 w₃.now w₃.store 1)
    let w₅ := w₄.after (.tick 95000000) w₄.store
    have hw₁ : Reachable (fun _ _ ↦ True) w₁ := (Reachable.init 0).step trivial ⟨s, .enqueue h, rfl⟩
    have hw₂ : Reachable (fun _ _ ↦ True) w₂ := hw₁.step trivial ⟨_, .acquireJobLock, rfl⟩
    have ha₂ : a ∈ w₂.attempts := mem_attempts_acquire (w := w₁) ha
    have hw₄ : Reachable (fun _ _ ↦ True) w₄ :=
      (hw₂.step trivial ⟨_, .tick, rfl⟩).step trivial ⟨_, .handleTimeout ha₂ hraises, rfl⟩
    have hw₅ : Reachable (fun _ _ ↦ True) w₅ := hw₄.step trivial ⟨_, .tick, rfl⟩
    refine ⟨w₅.after (acquire worker) (acquired worker 100000000 w₅.store).1, b, r,
      hw₅.step trivial ⟨_, .acquireJobLock, rfl⟩, mem_attempts_of_acquire (w := w₅) ha₂,
      ⟨mem_attempts_acquire (w := w₅) hb, rfl, (show 1 < 5 by decide), r, hr, ?_⟩, rfl, hr⟩
    rw [Job.ownedBy, hstate, hworker]
    simp [b]

/-- The thread of another worker's attempt releases nothing. -/
theorem leavesRow_iff_otherWorker_late : ∃ (w w' : World) (a b : Attempt), w.Superseded a b ∧
    w.Step (.clearWorkerOwnership a) w' ∧ LeavesRow w w' b := by
  obtain ⟨w, b, r, _, ha, hb, hworker, hr⟩ := exists_superseded (.inr rfl)
  have hs : w.Step (.clearWorkerOwnership _) _ := ⟨_, .clearWorkerOwnership ha, rfl⟩
  refine ⟨w, _, _, b, hb, hs, (leavesRow_iff_otherWorker hb .clearWorkerOwnership hs hr).mpr ?_⟩
  left
  rw [hworker]
  exact Nat.one_ne_zero

/-- A worker that has reclaimed a job from itself loses it when its first thread returns. -/
theorem not_leavesRow_late : ¬ ∀ (w w' : World) (e : Event) (a b : Attempt),
    Reachable (fun _ _ ↦ True) w → a ∈ w.attempts → w.Superseded a b → WritesLate a e →
      w.Step e w' → LeavesRow w w' b := by
  intro hall
  obtain ⟨w, b, r, hw, ha, hb, hworker, hr⟩ := exists_superseded (.inl rfl)
  have hleaves := hall w _ _ _ b hw ha hb .clearWorkerOwnership ⟨_, .clearWorkerOwnership ha, rfl⟩
  obtain ⟨q, hq, hown⟩ := hb.holds
  obtain ⟨q', hq', hown'⟩ := hleaves.holds
  -- The guard finds the process of both attempts, so the claim of the second is gone.
  have hcleared := (get?_clearWorkerOwnership 0 w.store 1 b.job).symm.trans hq'
  rw [Job.ownedBy, Bool.and_eq_true, beq_iff_eq, beq_iff_eq, hworker] at hown
  rw [hq, Option.map_some, if_pos (by simp [hb.job, hown.2]), Option.some.injEq] at hcleared
  subst hcleared
  simp [Job.ownedBy] at hown'

end World
end JobWorker
