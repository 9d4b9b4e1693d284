import JobWorker.Cascades.Rows
import JobWorker.System

/-!
# What one transaction does to one row

Every event of the system rewrites a row in one of a few ways: as part of a cascade, by the
statement of a worker on the row of its attempt, by an acquire, or by a call that names the
record. The invariants over single rows need no more of an event.
-/

namespace JobWorker

open Relational

/-! ### Acquired rows -/

/-- The row of a job that `acquire_job_lock` returns; `cli/worker.py:653–762`. -/
def WorkerConfig.acquiredRow (cfg : WorkerConfig) (now : Time) (r : Job) : Job :=
  if r.state = .started then cfg.reclaimRow now r else cfg.pickupRow now r

section Acquire

variable {cfg : WorkerConfig} {limits : QueueLimits} {locked : JobId → Bool} {now : Time}
  {s : Store} {job i : JobId} {r : Job}

/-- A returned job was a candidate. -/
theorem mem_candidates_of_acquireJobLock
    (h : (acquireJobLock cfg limits locked now s).2 = some job) :
    job ∈ cfg.candidates limits now s := by
  cases hf : (cfg.candidates limits now s).find? fun i ↦ !locked i with
  | none =>
    unfold acquireJobLock at h
    rw [hf] at h
    cases h
  | some j =>
    have hmem := List.mem_of_find?_eq_some hf
    obtain ⟨r, hr, _⟩ := Table.mem_selectBy.mp hmem
    rw [acquireJobLock_of_find hf hr] at h
    unfold acquireRow at h
    split at h
    · cases h
      exact hmem
    · split at h <;> cases h
      exact hmem

/-- A returned job was neither locked by its own columns nor by the limits of its channel. -/
theorem acquirable_of_acquireJobLock
    (h : (acquireJobLock cfg limits locked now s).2 = some job) (hr : s.get? job = some r) :
    cfg.acquirable now r = true ∧ cfg.throttled limits now s r = false := by
  obtain ⟨q, hq, hp⟩ := Table.mem_selectBy.mp (mem_candidates_of_acquireJobLock h)
  obtain rfl : q = r := Option.some.inj (hq.symm.trans hr)
  rw [Bool.and_eq_true, Bool.not_eq_true'] at hp
  exact hp

/-- What `acquire_job_lock` does when it returns a job. -/
theorem acquireJobLock_eq_some (h : (acquireJobLock cfg limits locked now s).2 = some job) :
    ∃ r, s.get? job = some r ∧ cfg.acquirable now r = true ∧
      cfg.throttled limits now s r = false ∧ (r.state = .started → exhausted r = false) ∧
      ∀ i, (acquireJobLock cfg limits locked now s).1.get? i =
        if i = job then some (cfg.acquiredRow now r) else s.get? i := by
  have hlimits {r : Job} (hr : s.get? job = some r) := (acquirable_of_acquireJobLock h hr).2
  have heffect := acquireEffect cfg limits locked now s
  generalize acquireJobLock cfg limits locked now s = out at heffect h ⊢
  cases heffect with
  | idle => cases h
  | exhaust => cases h
  | @pickup _ r hr ha hs =>
    cases h
    have hne : ¬ r.state = .started := by
      rw [hs]
      exact fun h ↦ by cases h
    refine ⟨_, hr, ha, hlimits hr, fun h ↦ absurd h hne, fun i ↦ ?_⟩
    rw [WorkerConfig.acquiredRow, if_neg hne]
    exact get?_updateLocked hr (WorkerConfig.isActive_of_acquirable ha) _ rfl
  | reclaim hr ha hs he =>
    cases h
    refine ⟨_, hr, ha, hlimits hr, fun _ ↦ he, fun i ↦ ?_⟩
    rw [WorkerConfig.acquiredRow, if_pos hs]
    exact get?_updateLocked hr (WorkerConfig.isActive_of_acquirable ha) _ rfl

/-- What `acquire_job_lock` does when it returns no job: at most it fails an exhausted one. -/
theorem acquireJobLock_eq_none (h : (acquireJobLock cfg limits locked now s).2 = none) :
    (acquireJobLock cfg limits locked now s).1 = s ∨
    ∃ (job : JobId) (r : Job) (s₁ : Store), s.get? job = some r ∧ cfg.acquirable now r = true ∧
      r.state = .started ∧ exhausted r = true ∧
      (∀ i, s₁.get? i = if i = job then some (workerDiedRow now r) else s.get? i) ∧
      s₁.CascadesTo now (acquireJobLock cfg limits locked now s).1 := by
  have heffect := acquireEffect cfg limits locked now s
  generalize acquireJobLock cfg limits locked now s = out at heffect h ⊢
  cases heffect with
  | idle => exact .inl rfl
  | pickup => cases h
  | reclaim => cases h
  | exhaust hr ha hs he =>
    refine .inr ⟨_, _, _, hr, ha, hs, he, fun i ↦ ?_, cascadesTo_cascadeWorkerDied now _ _⟩
    exact get?_updateLocked hr (WorkerConfig.isActive_of_acquirable ha) _ rfl

end Acquire

namespace World

/-- When an event writes rows: `run_now` reads the clock again at its end. -/
def writeTime (w : World) : Event → Time
  | .runNow _ run => run.finish
  | _ => w.now

/-- The records that a public method is called on. -/
def calledOn : Event → List JobId
  | .runNow job _ => [job]
  | .buttonSetToDone self | .buttonSetToFailed self | .buttonRequeue self
  | .buttonCancelled self => self
  | _ => []

/-- Everything an event can do to a row. -/
inductive RowEffect (w : World) : Event → JobId → Job → Job → Prop
  | cascaded {e : Event} {i : JobId} {r r' : Job} : Cascaded (w.writeTime e) r r' →
      RowEffect w e i r r'
  | acquired {cfg : WorkerConfig} {limits : QueueLimits} {locked : JobId → Bool} {i : JobId}
      {r : Job} : (acquireJobLock cfg limits locked w.now w.store).2 = some i →
      cfg.acquirable w.now r = true → cfg.throttled limits w.now w.store r = false →
      (r.state = .started → exhausted r = false) →
      RowEffect w (.acquireJobLock cfg limits locked) i r (cfg.acquiredRow w.now r)
  | workerDied {cfg : WorkerConfig} {limits : QueueLimits} {locked : JobId → Bool} {i : JobId}
      {r : Job} : cfg.acquirable w.now r = true → r.state = .started → exhausted r = true →
      RowEffect w (.acquireJobLock cfg limits locked) i r (workerDiedRow w.now r)
  | heartbeatJob {a : Attempt} {r : Job} : r.ownedBy a.cfg.workerUuid = true →
      RowEffect w (.heartbeatJob a) a.job r { r with heartbeat := some w.now }
  | updateHeartbeats {worker : WorkerUuid} {i : JobId} {r : Job} :
      i ∈ w.activeJobIds worker → r.workerId = some worker →
      RowEffect w (.updateHeartbeats worker) i r { r with heartbeat := some w.now }
  | handleTimeout {a : Attempt} {timeout : Int} {r : Job} :
      r.ownedBy a.cfg.workerUuid = true →
      RowEffect w (.handleTimeout a timeout) a.job r (timeoutRow a.cfg timeout w.now r)
  | clearWorkerOwnership {a : Attempt} {r : Job} : r.workerId = some a.cfg.workerUuid →
      RowEffect w (.clearWorkerOwnership a) a.job r
        { r with workerId := none, heartbeat := none }
  | finalizeJob {a : Attempt} {serialized : Option String} {r : Job} :
      RowEffect w (.finalizeJob a serialized) a.job r (finalizedRow w.now serialized r)
  | handleException {a : Attempt} {exc : JobException} {traceback : String} {r : Job} :
      RowEffect w (.handleException a exc traceback) a.job r
        (handledRow w.now traceback (dispositionOf a.cfg w.now exc r) r)
  | called {e : Event} {i : JobId} {r r' : Job} : i ∈ calledOn e →
      Rewritten (w.writeTime e) r r' → RowEffect w e i r r'

section RowEffect

variable {w : World} {e : Event} {s' : Store} {i j : JobId} {r r' : Job}

/-- A call on records. -/
theorem rows_of_writesTo (h : w.store.WritesTo (w.writeTime e) (calledOn e) s') :
    w.store.Rowwise (RowEffect w e) s' := h.mono fun _ _ _ hw ↦ by
  cases hw with
  | cascaded hc => exact .cascaded hc
  | rewritten hi hw => exact .called hi hw

/-- One statement of a worker. -/
theorem rows_of_update {p : JobId → Job → Bool} {f : JobId → Job → Job}
    (hk : w.store.Keeps p f) (hf : ∀ i r, p i r = true → RowEffect w e i r (f i r)) :
    w.store.Rowwise (RowEffect w e) (w.store.update p f hk) :=
  Store.rowwise_update hk (fun _ _ ↦ .cascaded .kept) fun i r _ ↦ hf i r

/-- A row `j` that an event rewrites, with or without a cascade behind it. -/
theorem rows_of_row {s₁ : Store} {f : Job → Job}
    (hrow : ∀ i, s₁.get? i = if i = j then (w.store.get? i).map f else w.store.get? i)
    (hf : ∀ r, w.store.get? j = some r → RowEffect w e j r (f r))
    (hn : ∀ r, (f r).isWaiting = false) (hc : s₁.CascadesTo (w.writeTime e) s') :
    w.store.Rowwise (RowEffect w e) s' := by
  refine Store.rowwise_of_row (fun i r hr ↦ ?_) fun i hr ↦ ?_
  · by_cases hi : i = j
    · subst hi
      obtain ⟨r', hr', hcasc⟩ := hc.row ((hrow i).trans
        ((if_pos rfl).trans (by rw [hr, Option.map_some])))
      rw [hcasc.eq (hn r)] at hr'
      exact ⟨f r, hr', hf r hr⟩
    · obtain ⟨r', hr', hcasc⟩ := hc.row ((hrow i).trans ((if_neg hi).trans hr))
      exact ⟨r', hr', .cascaded hcasc⟩
  · exact hc.none (by rw [hrow, hr, Option.map_none, ite_self])

/-- An acquire writes the row that it returns or fails. -/
theorem rows_acquireJobLock (cfg : WorkerConfig) (limits : QueueLimits) (locked : JobId → Bool) :
    w.store.Rowwise (RowEffect w (.acquireJobLock cfg limits locked))
      (JobWorker.acquireJobLock cfg limits locked w.now w.store).1 := by
  -- The row is rewritten in the version that the transaction has locked.
  have hlocked {job : JobId} {r v : Job} (hr : w.store.get? job = some r) (i : JobId) :
      (if i = job then some v else w.store.get? i) =
        if i = job then (w.store.get? i).map fun _ ↦ v else w.store.get? i := by
    split
    · next hi => rw [hi, hr, Option.map_some]
    · rfl
  cases h : (JobWorker.acquireJobLock cfg limits locked w.now w.store).2 with
  | some job =>
    obtain ⟨r, hr, ha, ht, he, hrow⟩ := acquireJobLock_eq_some h
    refine rows_of_row (fun i ↦ (hrow i).trans (hlocked hr i)) (fun q hq ↦ ?_) (fun _ ↦ ?_)
      (Store.CascadesTo.refl _)
    · obtain rfl : r = q := Option.some.inj (hr.symm.trans hq)
      exact .acquired h ha ht he
    · unfold WorkerConfig.acquiredRow
      split <;> rfl
  | none =>
    rcases acquireJobLock_eq_none h with hs | ⟨job, r, s₁, hr, ha, hs, he, hrow, hc⟩
    · rw [hs]
      exact .refl (fun _ _ ↦ .cascaded .kept) _
    · refine rows_of_row (fun i ↦ (hrow i).trans (hlocked hr i)) (fun q hq ↦ ?_) (fun _ ↦ rfl) hc
      obtain rfl : r = q := Option.some.inj (hr.symm.trans hq)
      exact .workerDied ha hs he

/-- Every event but a creation rewrites rows one by one. -/
theorem Commits.rows (h : w.Commits e s') : w.store.Rowwise (RowEffect w e) s' ∨
    ∃ env args eta j, e = .enqueue env args ∧
      w.store.create (enqueueVals env w.now args eta) = .ok (s', j) := by
  have hrefl (s : Store) : s.Rowwise (RowEffect w e) s := .refl (fun _ _ ↦ .cascaded .kept) s
  cases h with
  | tick | die => exact .inl (hrefl _)
  | enqueue h =>
    rcases enqueue_cases h with ⟨rfl, _⟩ | ⟨eta, _, _, hcreate⟩
    · exact .inl (hrefl _)
    · exact .inr ⟨_, _, eta, _, rfl, hcreate⟩
  | acquireJobLock => exact .inl (rows_acquireJobLock _ _ _)
  | heartbeatJob =>
    refine .inl (rows_of_update _ fun i r hp ↦ ?_)
    rw [Bool.and_eq_true, beq_iff_eq] at hp
    obtain ⟨rfl, hp⟩ := hp
    exact .heartbeatJob hp
  | updateHeartbeats =>
    refine .inl (rows_of_update _ fun i r hp ↦ ?_)
    rw [Bool.and_eq_true, beq_iff_eq, List.contains_iff_mem] at hp
    exact .updateHeartbeats hp.1 hp.2
  | handleTimeout =>
    refine .inl (rows_of_update _ fun i r hp ↦ ?_)
    rw [Bool.and_eq_true, beq_iff_eq] at hp
    obtain ⟨rfl, hp⟩ := hp
    exact .handleTimeout hp
  | clearWorkerOwnership =>
    refine .inl (rows_of_update _ fun i r hp ↦ ?_)
    rw [Bool.and_eq_true, beq_iff_eq, beq_iff_eq] at hp
    obtain ⟨rfl, hp⟩ := hp
    exact .clearWorkerOwnership hp
  | finalizeJob _ h =>
    obtain ⟨s₁, hw, h⟩ := bind_eq_ok.mp h
    cases h
    exact .inl (rows_of_row (Store.get?_write hw) (fun _ _ ↦ .finalizeJob) (fun _ ↦ rfl)
      (cascadesTo_cascadeSuccessToDependents w.now s₁ _))
  | @handleException a exc traceback _ _ h =>
    left
    cases hr : w.store.get? a.job with
    | none =>
      rw [handleException_of_absent hr] at h
      cases h
      exact hrefl _
    | some r =>
      obtain ⟨s₁, hw, hc⟩ := cascadesTo_handleException h hr
      refine rows_of_row (Store.get?_write hw) (fun q hq ↦ ?_)
        (fun q ↦ isWaiting_handledRow _ _ _ q) hc
      obtain rfl : r = q := Option.some.inj (hr.symm.trans hq)
      exact .handleException
  | @runNow job run s' raised _ h =>
    left
    refine rows_of_writesTo ?_
    cases runEffect h with
    | returned _ hw =>
      exact (written_write hw List.mem_cons_self fun _ ↦ ⟨rfl, by simp [ranRow], rfl, rfl⟩).trans
        (cascadesTo_cascadeSuccessToDependents run.finish _ job).written
    | postponed _ _ hw =>
      exact written_write hw List.mem_cons_self fun _ ↦ ⟨rfl, by simp [postponedRow], rfl, rfl⟩
    | crashed _ _ hw =>
      exact (written_write hw List.mem_cons_self fun _ ↦
        ⟨rfl, by simp [crashedRow], rfl, rfl⟩).trans
          (cascadesTo_cascadeFailureToDependents run.finish _ job).written
  | buttonSetToDone _ h => exact .inl (rows_of_writesTo (written_buttonSetToDone h))
  | buttonSetToFailed _ h => exact .inl (rows_of_writesTo (written_buttonSetToFailed h))
  | buttonRequeue _ h => exact .inl (rows_of_writesTo (written_buttonRequeue h fun _ ↦ id))
  | buttonCancelled _ h => exact .inl (rows_of_writesTo (written_buttonCancelled h))

/-- A row behind an event. -/
theorem Commits.row (h : w.Commits e s') (hr : w.store.get? i = some r) :
    ∃ r', s'.get? i = some r' ∧ RowEffect w e i r r' := by
  rcases h.rows with hrows | ⟨env, args, eta, j, rfl, hcreate⟩
  · exact hrows.row hr
  · exact ⟨r, Store.get?_create_of_some hcreate hr, .cascaded .kept⟩

/-- A row before an event, or the values of the new row. -/
theorem Commits.row_before (h : w.Commits e s') (hr' : s'.get? i = some r') :
    (∃ r, w.store.get? i = some r ∧ RowEffect w e i r r') ∨
      w.store.get? i = none ∧ ∃ env args eta, e = .enqueue env args ∧
        r' = enqueueVals env w.now args eta := by
  cases hr : w.store.get? i with
  | some r =>
    obtain ⟨q, hq, heffect⟩ := h.row hr
    obtain rfl : q = r' := Option.some.inj (hq.symm.trans hr')
    exact .inl ⟨r, rfl, heffect⟩
  | none =>
    rcases h.rows with hrows | ⟨env, args, eta, j, rfl, hcreate⟩
    · rw [hrows.none hr] at hr'
      cases hr'
    · rcases Store.get?_create_cases hcreate hr' with ⟨_, hvals⟩ | hr'
      · exact .inr ⟨rfl, env, args, eta, rfl, hvals⟩
      · cases hr.symm.trans hr'

/-- The lasting columns stay. -/
theorem RowEffect.terms (h : RowEffect w e i r r') : r'.terms = r.terms := by
  cases h with
  | cascaded hc => exact hc.terms
  | called _ hw => exact hw.terms
  | acquired =>
    unfold WorkerConfig.acquiredRow
    split <;> rfl
  | @handleException a exc =>
    cases dispositionOf a.cfg w.now exc r <;> rfl
  | workerDied | heartbeatJob | updateHeartbeats | handleTimeout | clearWorkerOwnership
  | finalizeJob => rfl

/-- A row that is written at all is dated then. -/
theorem RowEffect.writeDate (h : RowEffect w e i r r') :
    r'.writeDate = r.writeDate ∨ r'.writeDate = w.writeTime e := by
  cases h with
  | cascaded hc =>
    cases hc with
    | kept => exact .inl rfl
    | written => exact .inr rfl
  | called _ hw => exact .inr hw.writeDate
  | acquired =>
    unfold WorkerConfig.acquiredRow
    right
    split <;> rfl
  | @handleException a exc =>
    right
    cases dispositionOf a.cfg w.now exc r <;> rfl
  | heartbeatJob | updateHeartbeats | clearWorkerOwnership => exact .inl rfl
  | workerDied | handleTimeout | finalizeJob => exact .inr rfl

/-- A row that waits behind an event waited before, under the same worker. -/
theorem RowEffect.workerId (h : RowEffect w e i r r') (hw : r'.isWaiting = true) :
    r.isWaiting = true ∧ (r'.workerId = r.workerId ∨ r'.workerId = none) := by
  cases h with
  | cascaded hc =>
    refine ⟨hc.isWaiting hw, .inl ?_⟩
    cases hc <;> rfl
  | called _ hr => rw [hr.notWaiting] at hw; cases hw
  | acquired =>
    unfold WorkerConfig.acquiredRow at hw
    split at hw <;> cases hw
  | @handleException a exc =>
    revert hw
    cases dispositionOf a.cfg w.now exc r <;> exact fun hw ↦ by cases hw
  | heartbeatJob | updateHeartbeats | handleTimeout => exact ⟨hw, .inl rfl⟩
  | clearWorkerOwnership => exact ⟨hw, .inr rfl⟩
  | workerDied | finalizeJob => cases hw

/-- A job that waits has no worker. -/
theorem Reachable.workerId_of_waiting {guard : World → Event → Prop} (h : Reachable guard w)
    (hr : w.store.get? i = some r) (hw : r.isWaiting = true) : r.workerId = none := by
  refine h.invariant (P := fun w ↦ ∀ i r, w.store.get? i = some r → r.isWaiting = true →
    r.workerId = none) (fun now i r hr ↦ ?_) (fun w e s' ih _ hc i r' hr' hw' ↦ ?_) i r hr hw
  · have hnone := (Store.get?_empty i).symm.trans hr
    cases hnone
  · rcases hc.row_before hr' with ⟨r, hr, heffect⟩ | ⟨_, _, _, _, _, rfl⟩
    · obtain ⟨hw, hworker⟩ := heffect.workerId hw'
      exact hworker.elim (fun h ↦ h.trans (ih i r hr hw)) id
    · rfl

end RowEffect

end World
end JobWorker
