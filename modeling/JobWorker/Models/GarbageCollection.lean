import JobWorker.Models.Cascade

/-!
# Deletion of old jobs

`_gc_old_jobs` deletes finished jobs in chunks (`job_worker/models/queue_job.py:1056–1090`).
A job is old by the stamp of its state, `completed_at` or `cancelled_at`; SQL finds no row
whose stamp is NULL. The foreign key of `parent_id` is set to NULL behind a deletion
(`models/queue_job.py:166–174`).
-/

namespace JobWorker

open Relational

/-- `datetime.timedelta(days=1)`. -/
def day : Time := 86400 * second

/-- The stamp of a finished job. -/
def Job.stamp (r : Job) : Option Time :=
  match r.state with
  | .done | .failed => r.completedAt
  | .cancelled => r.cancelledAt
  | .waiting | .pending | .started => none

/-- A finished job is stamped. -/
def Job.Dated (r : Job) : Prop := r.state.isTerminal = true → r.stamp.isSome = true

/-- The search domain; `models/queue_job.py:1070–1078`. -/
def Job.isOld (cutoff : Time) (r : Job) : Bool :=
  (r.state == .done || r.state == .failed) && r.completedAt.any (fun t ↦ decide (t ≤ cutoff)) ||
    r.state == .cancelled && r.cancelledAt.any fun t ↦ decide (t ≤ cutoff)

/-- A job is old by its stamp. -/
theorem Job.isOld_iff {cutoff : Time} {r : Job} :
    r.isOld cutoff = true ↔ ∃ t, r.stamp = some t ∧ t ≤ cutoff := by
  cases hs : r.state <;> simp [isOld, stamp, hs, Option.any_eq_true]

/-- Only a finished job is stamped. -/
theorem Job.isTerminal_of_stamp {r : Job} {t : Time} (h : r.stamp = some t) :
    r.state.isTerminal = true := by
  unfold stamp at h
  split at h
  · next hs => rw [hs]; rfl
  · next hs => rw [hs]; rfl
  · next hs => rw [hs]; rfl
  all_goals cases h

namespace Store

/-- The row that a deletion of `ids` leaves of another. -/
def orphanRow (ids : List JobId) (r : Job) : Job :=
  if r.parentId.any (ids.contains ·) then { r with parentId := none } else r

/-- An orphan is as old as it was. -/
@[simp] theorem isOld_orphanRow (ids : List JobId) (r : Job) (cutoff : Time) :
    (orphanRow ids r).isOld cutoff = r.isOld cutoff := by
  unfold orphanRow
  split <;> rfl

/-- `DELETE … WHERE id IN ids` under `ON DELETE SET NULL`. -/
def rowsWithout (s : Store) (ids : List JobId) : Table JobId Job :=
  (s.jobs.deleteWhere fun i _ ↦ ids.contains i).updateWhere (fun _ _ ↦ true) fun _ ↦ orphanRow ids

/-- What is left. -/
theorem getElem?_rowsWithout (s : Store) (ids : List JobId) (i : JobId) :
    (s.rowsWithout ids)[i]? = if i ∈ ids then none else (s.get? i).map (orphanRow ids) := by
  rw [rowsWithout, Table.getElem?_updateWhere, Table.getElem?_deleteWhere, get?]
  by_cases hi : i ∈ ids
  · simp [hi]
  · cases hr : s.jobs[i]? <;> simp [hi]

private theorem row_of_rowsWithout {s : Store} {ids : List JobId} {i : JobId} {r' : Job}
    (h : (s.rowsWithout ids)[i]? = some r') : ∃ r, s.jobs[i]? = some r ∧ orphanRow ids r = r' := by
  rw [getElem?_rowsWithout] at h
  split at h
  · cases h
  · exact Option.map_eq_some_iff.mp h

/-- `jobs.unlink()`. -/
def unlink (s : Store) (ids : List JobId) : Store where
  jobs := s.rowsWithout ids
  nextId := s.nextId
  lt_nextId i r' h := by
    obtain ⟨r, hr, _⟩ := row_of_rowsWithout h
    exact s.lt_nextId i r hr
  identityKeyActiveUniq i j a' b' hi hj hc := by
    have hsame (r : Job) : (orphanRow ids r).identityKey = r.identityKey ∧
        (orphanRow ids r).state = r.state := by
      unfold orphanRow
      split <;> exact ⟨rfl, rfl⟩
    obtain ⟨a, ha, rfl⟩ := row_of_rowsWithout hi
    obtain ⟨b, hb, rfl⟩ := row_of_rowsWithout hj
    refine s.identityKeyActiveUniq i j a b ha hb ?_
    simpa only [Job.Collide, hsame] using hc

/-- A row behind a deletion. -/
theorem get?_unlink (s : Store) (ids : List JobId) (i : JobId) :
    (s.unlink ids).get? i = if i ∈ ids then none else (s.get? i).map (orphanRow ids) :=
  getElem?_rowsWithout s ids i

/-- `self.search(domain, limit=chunk_size)`; `models/queue_job.py:1069–1080`. -/
def oldJobs (s : Store) (cutoff : Time) : List JobId :=
  (s.jobs.selectBy (fun _ r ↦ r.isOld cutoff) RowOrder).take 1000

/-- A found job is old. -/
theorem isOld_of_mem_oldJobs {s : Store} {cutoff : Time} {i : JobId} (h : i ∈ s.oldJobs cutoff) :
    ∃ r, s.get? i = some r ∧ r.isOld cutoff = true :=
  Table.mem_selectBy.mp (List.mem_of_mem_take h)

/-- A search that finds less than a chunk finds every old job. -/
theorem mem_oldJobs {s : Store} {cutoff : Time} {i : JobId} {r : Job}
    (hlen : (s.oldJobs cutoff).length < 1000) (hr : s.get? i = some r)
    (ho : r.isOld cutoff = true) : i ∈ s.oldJobs cutoff := by
  have hmem : i ∈ s.jobs.selectBy (fun _ r ↦ r.isOld cutoff) RowOrder :=
    Table.mem_selectBy.mpr ⟨r, hr, ho⟩
  rw [oldJobs, List.length_take] at hlen
  rwa [oldJobs, List.take_of_length_le (by omega)]

/-- A chunk that is not empty leaves fewer old jobs. -/
theorem count_unlink_lt (s : Store) (cutoff : Time) (h : s.oldJobs cutoff ≠ []) :
    (s.unlink (s.oldJobs cutoff)).jobs.count (fun _ r ↦ r.isOld cutoff) <
      s.jobs.count fun _ r ↦ r.isOld cutoff := by
  obtain ⟨j, hj⟩ := List.exists_mem_of_ne_nil _ h
  have hleft {i : JobId} (hi : i ∈ (s.unlink (s.oldJobs cutoff)).jobs.select
      fun _ r ↦ r.isOld cutoff) : i ∉ s.oldJobs cutoff ∧
        ∃ r, s.get? i = some r ∧ r.isOld cutoff = true := by
    obtain ⟨r', hr', ho⟩ := Table.mem_select.mp hi
    have hrow := (get?_unlink s (s.oldJobs cutoff) i).symm.trans hr'
    split at hrow
    · cases hrow
    · next hn =>
      obtain ⟨r, hr, rfl⟩ := Option.map_eq_some_iff.mp hrow
      exact ⟨hn, r, hr, isOld_orphanRow _ r cutoff ▸ ho⟩
  have hnodup := List.nodup_cons.mpr
    ⟨fun hmem ↦ (hleft hmem).1 hj, Table.nodup_select _ fun _ (r : Job) ↦ r.isOld cutoff⟩
  refine Table.length_le_count hnodup fun i hi ↦ ?_
  rcases List.mem_cons.mp hi with rfl | hi
  · exact isOld_of_mem_oldJobs hj
  · exact (hleft hi).2

/-- The loop over chunks; `models/queue_job.py:1068–1090`. -/
def deleteOldJobs (s : Store) (cutoff : Time) : Store :=
  if _h : s.oldJobs cutoff = [] then s
  else if (s.oldJobs cutoff).length < 1000 then s.unlink (s.oldJobs cutoff)
  else deleteOldJobs (s.unlink (s.oldJobs cutoff)) cutoff
termination_by s.jobs.count fun _ r ↦ r.isOld cutoff
decreasing_by exact count_unlink_lt s cutoff _h

end Store

/-- `_gc_old_jobs` with the value of `job_worker.done_job_retention_days`;
`models/queue_job.py:1056–1090`. -/
def gcOldJobs (now : Time) (retentionDays : Int) (s : Store) : Store :=
  s.deleteOldJobs (datetimeNow now - retentionDays * day)

namespace Store

variable {s : Store} {cutoff : Time} {i : JobId} {r : Job}

/-- No old job is left. -/
theorem get?_deleteOldJobs_of_isOld (hr : s.get? i = some r) (ho : r.isOld cutoff = true) :
    (s.deleteOldJobs cutoff).get? i = none := by
  have hnone {s : Store} (hn : s.get? i = none) : (s.deleteOldJobs cutoff).get? i = none := by
    induction s using deleteOldJobs.induct cutoff with
    | case1 s h => rwa [deleteOldJobs, dif_pos h]
    | case2 s h hlt => rw [deleteOldJobs, dif_neg h, if_pos hlt, get?_unlink, hn]; simp
    | case3 s h hlt ih =>
      rw [deleteOldJobs, dif_neg h, if_neg hlt]
      exact ih (by rw [get?_unlink, hn]; simp)
  induction s using deleteOldJobs.induct cutoff generalizing r with
  | case1 s h =>
    have hmem := mem_oldJobs (by simp [h]) hr ho
    rw [h] at hmem
    cases hmem
  | case2 s h hlt =>
    rw [deleteOldJobs, dif_neg h, if_pos hlt, get?_unlink, if_pos (mem_oldJobs hlt hr ho)]
  | case3 s h hlt ih =>
    rw [deleteOldJobs, dif_neg h, if_neg hlt]
    by_cases hi : i ∈ s.oldJobs cutoff
    · exact hnone (by rw [get?_unlink, if_pos hi])
    · refine ih (r := orphanRow (s.oldJobs cutoff) r) ?_ (by simp [ho])
      rw [get?_unlink, if_neg hi, hr, Option.map_some]

/-- Every other job is left, at most without its parent. -/
theorem get?_deleteOldJobs_of_not_isOld (hr : s.get? i = some r) (ho : r.isOld cutoff = false) :
    ∃ parentId, (s.deleteOldJobs cutoff).get? i = some { r with parentId } := by
  have hunlink {s : Store} {r : Job} (hr : s.get? i = some r) (ho : r.isOld cutoff = false) :
      (s.unlink (s.oldJobs cutoff)).get? i = some (orphanRow (s.oldJobs cutoff) r) := by
    rw [get?_unlink, if_neg, hr, Option.map_some]
    intro hi
    obtain ⟨q, hq, hold⟩ := isOld_of_mem_oldJobs hi
    obtain rfl : q = r := Option.some.inj (hq.symm.trans hr)
    rw [ho] at hold
    cases hold
  have horphan (ids : List JobId) (r : Job) :
      ∃ parentId, orphanRow ids r = { r with parentId } := by
    unfold orphanRow
    split
    · exact ⟨none, rfl⟩
    · exact ⟨r.parentId, rfl⟩
  induction s using deleteOldJobs.induct cutoff generalizing r with
  | case1 s h => exact ⟨r.parentId, by rwa [deleteOldJobs, dif_pos h]⟩
  | case2 s h hlt =>
    rw [deleteOldJobs, dif_neg h, if_pos hlt, hunlink hr ho]
    obtain ⟨parentId, heq⟩ := horphan (s.oldJobs cutoff) r
    exact ⟨parentId, congrArg some heq⟩
  | case3 s h hlt ih =>
    rw [deleteOldJobs, dif_neg h, if_neg hlt]
    obtain ⟨p, hp⟩ := ih (hunlink hr ho) (by simp [ho])
    obtain ⟨q, heq⟩ := horphan (s.oldJobs cutoff) r
    rw [heq] at hp
    exact ⟨p, hp⟩

end Store
end JobWorker
