import JobWorker.Cascades.Rows
import JobWorker.Models.GarbageCollection

/-!
# Stamps of finished jobs

Whoever writes `done`, `failed` or `cancelled` stamps the row, `completed_at` or `cancelled_at`,
except the three cascades of a permanent failure, which write `failed` alone
(`job_worker/models/queue_job.py:587–614,774–803`, `job_worker/cli/worker.py:712–739`).
-/

namespace JobWorker

open Relational Store

/-- What a transaction leaves of the stamps of a row: all as it was, a row that does not wait
and is stamped if it is finished, or, where jobs fail for good, a waiting on_done row that has
failed without a stamp. -/
inductive Stamped (fails : Prop) (r r' : Job) : Prop
  | kept : r'.state = r.state → r'.runOnFailure = r.runOnFailure →
      r'.completedAt = r.completedAt → r'.cancelledAt = r.cancelledAt → Stamped fails r r'
  | moved : r'.isWaiting = false → r'.Dated → Stamped fails r r'
  | failed : fails → r.isWaiting = true → r.runOnFailure = false → r'.state = .failed →
      r'.completedAt = r.completedAt → Stamped fails r r'

section Row

variable {fails : Prop} {now : Time} {r r' r'' : Job} {q : JobId}

/-- A row that is not finished is dated. -/
theorem dated_of_not_terminal (h : r.state.isTerminal = false) : r.Dated := by
  intro ht
  rw [h] at ht
  cases ht

/-- The state and the stamps of a row decide whether it is dated. -/
theorem Job.Dated.congr (h : r.Dated) (hs : r'.state = r.state)
    (hcompleted : r'.completedAt = r.completedAt) (hcancelled : r'.cancelledAt = r.cancelledAt) :
    r'.Dated := by
  intro ht
  have hstamp : r'.stamp = r.stamp := by rw [Job.stamp, Job.stamp, hs, hcompleted, hcancelled]
  rw [hstamp]
  exact h (hs ▸ ht)

/-- Equal states wait alike. -/
theorem isWaiting_of_state (h : r'.state = r.state) : r'.isWaiting = r.isWaiting := by
  rw [Job.isWaiting, Job.isWaiting, h]

/-- A row that does not wait and is dated stays so. -/
theorem Stamped.dated (h : Stamped fails r r') (hw : r.isWaiting = false) (hd : r.Dated) :
    r'.isWaiting = false ∧ r'.Dated := by
  cases h with
  | kept hs _ hcompleted hcancelled =>
    exact ⟨isWaiting_of_state hs ▸ hw, hd.congr hs hcompleted hcancelled⟩
  | moved hw' hd' => exact ⟨hw', hd'⟩
  | failed _ hw' => cases hw.symm.trans hw'

instance (fails : Prop) : IsPreorder Job (Stamped fails) where
  refl _ := .kept rfl rfl rfl rfl
  trans a b c h h' := by
    cases h' with
    | kept hs hrun hcompleted hcancelled =>
      cases h with
      | kept hs₀ hrun₀ hcompleted₀ hcancelled₀ =>
        exact .kept (hs.trans hs₀) (hrun.trans hrun₀) (hcompleted.trans hcompleted₀)
          (hcancelled.trans hcancelled₀)
      | moved hw hd => exact .moved (isWaiting_of_state hs ▸ hw) (hd.congr hs hcompleted hcancelled)
      | failed hf hw hrun hs₀ hcompleted₀ =>
        exact .failed hf hw hrun (hs.trans hs₀) (hcompleted.trans hcompleted₀)
    | moved hw hd => exact .moved hw hd
    | failed hf hw hrun hs hcompleted =>
      cases h with
      | kept hs₀ hrun₀ hcompleted₀ =>
        exact .failed hf (isWaiting_of_state hs₀ ▸ hw) (hrun₀ ▸ hrun) hs
          (hcompleted.trans hcompleted₀)
      | moved hw' => cases hw'.symm.trans hw
      | failed _ _ _ hs₀ =>
        rw [Job.isWaiting, hs₀] at hw
        cases hw

/-- A row that waits behind a transaction waited before. -/
theorem Stamped.waitedBefore (h : Stamped fails r r') (hw : r'.isWaiting = true) :
    r.isWaiting = true := by
  cases h with
  | kept hs => exact isWaiting_of_state hs ▸ hw
  | moved hw' => cases hw'.symm.trans hw
  | failed _ hw => exact hw

/-- Fewer failures. -/
theorem Stamped.mono {fails' : Prop} (h : Stamped fails r r') (himp : fails → fails') :
    Stamped fails' r r' := by
  cases h with
  | kept hs hrun hcompleted hcancelled => exact .kept hs hrun hcompleted hcancelled
  | moved hw hd => exact .moved hw hd
  | failed hf hw hrun hs hcompleted => exact .failed (himp hf) hw hrun hs hcompleted

/-- The success walk stamps what it cancels. -/
theorem stamped_successRule : Stamped fails r ((successRule now).write q r) := by
  simp only [successRule]
  split
  · exact .moved rfl fun _ ↦ rfl
  · exact .moved rfl (dated_of_not_terminal rfl)

/-- The release of a dependent stamps what it cancels. -/
theorem stamped_releaseRow (hw : r.isWaiting = true) : Stamped fails r (releaseRow now r) := by
  have hs := Job.isWaiting_iff.mp hw
  by_cases hcount : r.pendingDependencyCount - 1 ≤ 0
  · cases hrun : r.runOnFailure with
    | true =>
      refine .moved ?_ fun _ ↦ ?_ <;>
        simp [releaseRow, hcount, hrun, Job.isWaiting, Job.stamp]
    | false =>
      refine .moved ?_ (dated_of_not_terminal ?_) <;>
        simp [releaseRow, hcount, hrun, Job.isWaiting, JobState.isTerminal, JobState.isActive]
  · exact .kept (by simp [releaseRow, hcount]) rfl rfl (by simp [releaseRow, hcount])

/-- The three failure cascades promote a waiting row or fail it without a stamp. -/
theorem stamped_of_disposition (hw : r.isWaiting = true)
    (hs : r'.state = if r.runOnFailure then .pending else .failed)
    (hcompleted : r'.completedAt = r.completedAt) : Stamped True r r' := by
  cases hrun : r.runOnFailure with
  | true =>
    rw [hrun] at hs
    refine .moved ?_ (dated_of_not_terminal ?_)
    · rw [Job.isWaiting, hs]
      rfl
    · rw [hs]
      rfl
  | false =>
    rw [hrun] at hs
    exact .failed trivial hw hrun hs hcompleted

/-- A cancellation stamps the row. -/
theorem allowsCancellation_stamped (now : Time) : AllowsCancellation now (Stamped fails) where
  statement _ _ := .moved rfl fun _ ↦ rfl
  queued _ _ _ _ := .moved rfl fun _ ↦ rfl
  waiting _ _ := Stamped.waitedBefore

end Row

/-- Row by row, `s'` comes from `s` by a transaction that stamps. -/
abbrev Store.StampsTo (fails : Prop) (s s' : Store) : Prop :=
  s.Rowwise (fun _ ↦ Stamped fails) s'

section Transactions

variable {fails : Prop} {now : Time} {s s' s₁ : Store} {self : List JobId} {job i : JobId}
  {r : Job}

/-- The write of one row. -/
theorem stampsTo_write {f : Job → Job} {hk : ∀ r, (f r).identityKey = r.identityKey}
    (h : s.write job f hk = .ok s') (hw : ∀ r, (f r).isWaiting = false)
    (hd : ∀ r, (f r).Dated) : s.StampsTo fails s' :=
  rowwise_write h (fun _ ↦ refl_of (Stamped fails)) fun r _ ↦ .moved (hw r) (hd r)

/-- A statement on the locked row of an acquire. -/
theorem stampsTo_updateLocked {f : Job → Job} (hr : s.get? job = some r)
    (ha : r.state.isActive = true) (hk : (f r).identityKey = r.identityKey)
    (hw : (f r).isWaiting = false) (hd : (f r).Dated) :
    s.StampsTo fails (s.updateLocked job r hr ha f hk) := by
  refine rowwise_of_row (fun i q hq ↦ ?_) fun i hq ↦ ?_
  · rw [get?_updateLocked]
    split
    · exact ⟨f r, rfl, .moved hw hd⟩
    · exact ⟨q, hq, refl_of (Stamped fails) q⟩
  · rw [get?_updateLocked, if_neg, hq]
    rintro rfl
    cases hq.symm.trans hr

/-- A statement that keeps states and stamps. -/
theorem stampsTo_update {p : JobId → Job → Bool} {f : JobId → Job → Job} (hk : s.Keeps p f)
    (hf : ∀ i r, Stamped fails r (f i r)) : s.StampsTo fails (s.update p f hk) :=
  rowwise_statement hk fun i r _ ↦ hf i r

/-- The success cascades stamp what they cancel. -/
theorem stampsTo_cascadeSuccessToDependents (now : Time) (s : Store) (job : JobId) :
    s.StampsTo fails (cascadeSuccessToDependents now s job) :=
  rowwise_cascadeSuccessToDependents (fun _ _ _ ↦ stamped_successRule)
    (fun _ _ _ ↦ .moved rfl fun _ ↦ rfl) (fun _ ↦ stamped_releaseRow) s job

/-- The failure walk. -/
theorem stamped_failureRule (q : JobId) (hw : r.isWaiting = true) :
    Stamped True r ((failureRule now).write q r) := by
  refine stamped_of_disposition hw ?_ ?_ <;> simp only [failureRule] <;> split <;> rfl

/-- `_cascade_children_on_parent_failure` fails rows without a stamp. -/
theorem stampsTo_cascadeChildrenOnParentFailure (now : Time) (s : Store) (job : JobId) :
    s.StampsTo True (cascadeChildrenOnParentFailure now s job) :=
  rowwise_cascadeChildrenOnParentFailure (fun q _ ↦ stamped_failureRule q) s job

/-- `_fail_dependents` as well. -/
theorem stampsTo_failDependents (now : Time) (s : Store) (self : List JobId) :
    s.StampsTo True (failDependents now s self) :=
  rowwise_failDependents (fun _ _ hw ↦ stamped_of_disposition hw rfl rfl) s self

/-- Both failure cascades. -/
theorem stampsTo_cascadeFailureToDependents (now : Time) (s : Store) (job : JobId) :
    s.StampsTo True (cascadeFailureToDependents now s job) :=
  (stampsTo_cascadeChildrenOnParentFailure now s job).then (stampsTo_failDependents now _ [job])

/-- The raw-SQL failure cascade. -/
theorem stampsTo_cascadeWorkerDied (now : Time) (s : Store) (job : JobId) :
    s.StampsTo True (cascadeWorkerDied now s job) :=
  rowwise_cascadeWorkerDied (fun _ _ hw ↦ stamped_of_disposition hw rfl rfl) s job

/-- A handled row does not wait and is stamped when the job has failed. -/
theorem dated_handledRow (now : Time) (traceback : String) (d : Disposition) (r : Job) :
    (handledRow now traceback d r).Dated := by
  cases d with
  | retry => exact dated_of_not_terminal rfl
  | fail => exact fun _ ↦ rfl

/-- A row that does not wait and is dated stays so. -/
theorem Store.Rowwise.dated (h : s.StampsTo fails s') (hr : s.get? i = some r)
    (hw : r.isWaiting = false) (hd : r.Dated) :
    ∃ r', s'.get? i = some r' ∧ r'.isWaiting = false ∧ r'.Dated := by
  obtain ⟨r', hr', hstamped⟩ := h.row hr
  exact ⟨r', hr', hstamped.dated hw hd⟩

/-- Where the jobs that fail for good are stamped themselves, only other rows fail without a
stamp. -/
theorem Store.Rowwise.outside (h : s.StampsTo True s')
    (hself : ∀ i ∈ self, ∀ r, s.get? i = some r →
      ∃ r', s'.get? i = some r' ∧ r'.isWaiting = false ∧ r'.Dated) :
    s.Rowwise (fun i ↦ Stamped (i ∉ self)) s' := by
  refine rowwise_of_row (fun i r hr ↦ ?_) fun i ↦ h.none
  by_cases hi : i ∈ self
  · obtain ⟨r', hr', hw, hd⟩ := hself i hi r hr
    exact ⟨r', hr', .moved hw hd⟩
  · obtain ⟨r', hr', hstamped⟩ := h.row hr
    exact ⟨r', hr', hstamped.mono fun _ ↦ hi⟩

/-- A write that fails one job for good, with a cascade behind it. -/
theorem stampsTo_failed {f : Job → Job} (hwrite : s.StampsTo True s₁)
    (hrow : s₁.get? job = (s.get? job).map f) (hw : ∀ r, (f r).isWaiting = false)
    (hd : ∀ r, (f r).Dated) (hc : s₁.StampsTo True s') :
    s.Rowwise (fun i ↦ Stamped (i ∉ [job])) s' := by
  refine (hwrite.then hc).outside fun i hi r hr ↦ ?_
  obtain rfl := List.mem_singleton.mp hi
  exact hc.dated (by rw [hrow, hr, Option.map_some]) (hw r) (hd r)

/-- The loop of `button_set_to_failed` stamps its records. -/
theorem stampsTo_failEach {f : Job → Job} {hk : ∀ r, (f r).identityKey = r.identityKey}
    (hw : ∀ r, (f r).isWaiting = false) (hd : ∀ r, (f r).Dated)
    (h : failEach now f hk s self = .ok s') : s.StampsTo True s' ∧
      ∀ i ∈ self, ∀ r, s.get? i = some r →
        ∃ r', s'.get? i = some r' ∧ r'.isWaiting = false ∧ r'.Dated := by
  induction self generalizing s with
  | nil => cases h; exact ⟨.same _, nofun⟩
  | cons j self ih =>
    rw [failEach, List.foldlM_cons] at h
    obtain ⟨s₂, h₂, h⟩ := bind_eq_ok.mp h
    obtain ⟨s₁, h₁, h₂⟩ := bind_eq_ok.mp h₂
    cases h₂
    obtain ⟨hrest, hself⟩ := ih h
    have hcascade := (stampsTo_cascadeChildrenOnParentFailure now s₁ j).then hrest
    refine ⟨(stampsTo_write h₁ hw hd).then hcascade, fun i hi r hr ↦ ?_⟩
    rcases List.mem_cons.mp hi with rfl | hi
    · refine hcascade.dated (r := f r) ?_ (hw r) (hd r)
      rw [get?_write h₁, if_pos rfl, hr, Option.map_some]
    · have hwritten : s.StampsTo True s₁ := stampsTo_write h₁ hw hd
      obtain ⟨q, hq, _⟩ := hwritten.row hr
      obtain ⟨q', hq', _⟩ := (stampsTo_cascadeChildrenOnParentFailure now s₁ j).row hq
      exact hself i hi q' hq'

/-- `button_requeue` leaves no record finished that it writes. -/
theorem stampsTo_buttonRequeue (h : buttonRequeue now s self = .ok s') : s.StampsTo fails s' := by
  induction self generalizing s with
  | nil => cases h; exact .same _
  | cons j self ih =>
    rw [buttonRequeue] at h
    split at h
    · exact ih h
    · obtain ⟨s₁, hw, h⟩ := bind_eq_ok.mp h
      exact (stampsTo_write hw (fun _ ↦ rfl) fun _ ↦ dated_of_not_terminal rfl).then (ih h)

end Transactions

end JobWorker
