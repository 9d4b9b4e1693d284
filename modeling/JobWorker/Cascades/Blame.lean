import JobWorker.Cascades.Rows
import JobWorker.Cascades.WorkerDied

/-!
# Whom a failed job blames

A failure cascade writes the id of the failed parent into `exc_info` of every job that it fails
(`job_worker/models/queue_job.py:587–614,774–803`, `job_worker/cli/worker.py:709–739`), so that
the ids lead from job to job to the one that has failed by itself.
-/

namespace JobWorker

open Reachability Relation

/-- Row `i` has failed, and its diagnosis names job `k`. -/
def NamesParent (s : Store) (i k : JobId) : Prop :=
  ∃ r, s.get? i = some r ∧ r.state = .failed ∧
    (r.excInfo = some s!"Parent job {k} failed" ∨
      r.excInfo = some s!"Parent job {k} failed (worker died)")

/-- Row `i` waited for job `k`, and names it behind the cascade. -/
structure Blames (s s' : Store) (i k : JobId) : Prop where
  waited : ∃ r, s.get? i = some r ∧ r.isWaiting = true ∧ r.WaitsOn k
  names : NamesParent s' i k

/-- The first failed job that a row lists is the one that the row names. -/
theorem rowEach_failRow (now : Time) {self : List JobId} {r : Job} (hw : r.isWaiting = true)
    (h : ∃ j ∈ self, r.dependsOn j = true) :
    ∃ j ∈ self, r.dependsOn j = true ∧
      Store.rowEach isWaitingDependent (failRow now) self r = failRow now j r := by
  induction self with
  | nil => simp at h
  | cons j self ih =>
    rw [Store.rowEach, List.foldl_cons]
    by_cases hj : isWaitingDependent j r = true
    · have hn : (failRow now j r).isWaiting = false := by
        simp only [failRow, Job.isWaiting]
        split <;> rfl
      rw [if_pos hj]
      exact ⟨j, List.mem_cons_self, (Bool.and_eq_true_iff.mp hj).2,
        rowEach_of_not_waiting isWaiting_of_dependent self hn⟩
    · rw [if_neg hj]
      obtain ⟨k, hk, hd⟩ := h
      rcases List.mem_cons.mp hk with rfl | hk
      · exact absurd (Bool.and_eq_true_iff.mpr ⟨hw, hd⟩) hj
      · obtain ⟨m, hm, hdm, heq⟩ := ih ⟨k, hk, hd⟩
        exact ⟨m, List.mem_cons_of_mem _ hm, hdm, heq⟩

section Failure

variable {now : Time} {f : Job → Job} {hk : ∀ r, (f r).identityKey = r.identityKey}
  {s s₁ s' : Store} {i j q : JobId} {js : List JobId} {r : Job}

/-- A job that fails below names its parent. -/
private theorem blames_of_below (hf : ∀ r, (f r).state = .failed)
    (hwire : ∀ r, (f r).wiring = r.wiring) (h : failEach now f hk s js = .ok s₁)
    (hb : s.FailureBelow js i) (hdone : s.OnDone i) (hc : s.ChildOf q i) :
    Blames s (failDependents now s₁ js) i q := by
  obtain ⟨r, hr, hq⟩ := hc
  obtain ⟨r', hr', hrun⟩ := hdone
  obtain rfl : r = r' := Option.some.inj (hr.symm.trans hr')
  have hentered := hb.entered
  obtain ⟨k, hk', hrow⟩ := (get?_failEach hf hwire h hentered.2 hr).1 hb
  obtain rfl : k = q := Option.some.inj (hk'.symm.trans hq)
  have hwrite : (failureRule now).write k r =
      { r with
        state := .failed
        excInfo := some s!"Parent job {k} failed"
        writeDate := now } := by
    simp only [failureRule, hrun, Bool.false_eq_true, if_false]
  rw [hwrite] at hrow
  refine ⟨⟨r, hr, (Store.waiting_iff hr).mp hentered.1, .inl hq⟩, _,
    get?_failDependents_of_not_dependent now hrow ?_, rfl, .inl rfl⟩
  rintro ⟨hw, _⟩
  cases hw

/-- A job that fails as a dependent names one of the failed jobs. -/
private theorem blames_of_dependent (hf : ∀ r, (f r).state = .failed)
    (hwire : ∀ r, (f r).wiring = r.wiring) (h : failEach now f hk s js = .ok s₁) (hi : i ∉ js)
    (hr : s.get? i = some r) (hn : ¬ s.FailureBelow js i) (hw : r.isWaiting = true)
    (hrun : r.runOnFailure = false) (hd : ∃ j ∈ js, r.dependsOn j = true) :
    ∃ j ∈ js, Blames s (failDependents now s₁ js) i j := by
  obtain ⟨j, hj, hdj, heq⟩ := rowEach_failRow now hw hd
  have hrow : (failDependents now s₁ js).get? i = some (failRow now j r) := by
    rw [get?_failDependents, (get?_failEach hf hwire h hi hr).2 hn, Option.map_some, heq]
  refine ⟨j, hj, ⟨r, hr, hw, .inr hdj⟩, _, hrow, ?_, .inl ?_⟩
  · simp [failRow, hrun]
  · simp [failRow, hrun]

/-- **A cascade of failures names its way back**: from every job that the permanent failure of
`js` fails along with them, the names in the diagnoses lead over parents and dependencies that
it waited for to one of `js`. -/
theorem FailsPermanently.blames_trail (h : FailsPermanently s js s') (hi : i ∉ js)
    (hs : s.stateOf i ≠ some .failed) (hs' : s'.stateOf i = some .failed) :
    ∃ j ∈ js, TransGen (Blames s s') i j := by
  obtain ⟨r', hr', _⟩ := Option.map_eq_some_iff.mp hs'
  obtain ⟨r, hr, _⟩ := h.sameWiring.row_before hr'
  have hit : s.FailureHit js i := by
    by_contra hn
    rw [(h.stateOf hi hr).2 hn] at hs'
    rw [Store.stateOf, hr, Option.map_some] at hs
    exact hs hs'
  have hrun : r.runOnFailure = false := by
    rw [(h.stateOf hi hr).1 hit, Option.some.injEq] at hs'
    by_contra hrun
    rw [Bool.not_eq_false] at hrun
    rw [hrun] at hs'
    cases hs'
  obtain ⟨now, f, hk, s₁, hf, hwire, h₁, rfl⟩ := h.failEach
  -- Down the chain, by the walk: every link is one more name.
  have htrail {b : JobId} (hb : s.FailureBelow js b) :
      s.OnDone b → ∃ j ∈ js, TransGen (Blames s (failDependents now s₁ js)) b j := by
    induction hb with
    | seed hseed hw =>
      intro hdone
      obtain ⟨j, hj, hc⟩ := hseed
      exact ⟨j, hj, .single (blames_of_below hf hwire h₁ (.seed ⟨j, hj, hc⟩ hw) hdone hc)⟩
    | step ha hdone' he hw ih =>
      intro hdone
      obtain ⟨j, hj, htrail⟩ := ih hdone'
      exact ⟨j, hj, .head (blames_of_below hf hwire h₁ (.step ha hdone' he hw) hdone he) htrail⟩
  by_cases hb : s.FailureBelow js i
  · exact htrail hb ⟨r, hr, hrun⟩
  · obtain ⟨hw, j, hj, hd⟩ := hit.resolve_left hb
    obtain ⟨k, hk', hblames⟩ := blames_of_dependent hf hwire h₁ hi hr hb
      ((Store.waiting_iff hr).mp hw.1) hrun ⟨j, hj, (Store.dependsOn_iff hr).mp hd⟩
    exact ⟨k, hk', .single hblames⟩

/-- Every job of the loop has failed behind it, and a failed one stays so. -/
private theorem failed_failEach (hf : ∀ r, (f r).state = .failed)
    (h : failEach now f hk s js = .ok s') (hr : s.get? j = some r)
    (hj : j ∈ js ∨ r.state = .failed) : ∃ r', s'.get? j = some r' ∧ r'.state = .failed := by
  induction js generalizing s r with
  | nil =>
    cases h
    exact ⟨r, hr, hj.resolve_left List.not_mem_nil⟩
  | cons k js ih =>
    rw [failEach, List.foldlM_cons] at h
    obtain ⟨s₂, h₂, h⟩ := bind_eq_ok.mp h
    obtain ⟨s₁, h₁, h₂⟩ := bind_eq_ok.mp h₂
    cases h₂
    have hcascade := cascadesTo_cascadeChildrenOnParentFailure now s₁ k
    have hrow : ∃ q, s₁.get? j = some q ∧ (j ∈ js ∨ q.state = .failed) := by
      rw [Store.get?_write h₁]
      by_cases hjk : j = k
      · rw [if_pos hjk, hr]
        exact ⟨f r, rfl, .inr (hf r)⟩
      · rw [if_neg hjk]
        exact ⟨r, hr, hj.imp_left fun hj ↦ (List.mem_cons.mp hj).resolve_left hjk⟩
    obtain ⟨q, hq, hjq⟩ := hrow
    obtain ⟨q', hq', hc⟩ := hcascade.row hq
    apply ih h hq'
    rcases hjq with hj | hq
    · exact .inl hj
    · rw [hc.eq (by rw [Job.isWaiting, hq]; rfl)]
      exact .inr hq

/-- The jobs that fail for good have failed. -/
theorem FailsPermanently.stateOf_self (h : FailsPermanently s js s') (hj : j ∈ js)
    (hr : s.get? j = some r) : s'.stateOf j = some .failed := by
  obtain ⟨now, f, hk, s₁, hf, _, h₁, rfl⟩ := h.failEach
  obtain ⟨q, hq, hfailed⟩ := failed_failEach hf h₁ hr (.inl hj)
  obtain ⟨q', hq', hc⟩ := (cascadesTo_failDependents now s₁ js).row hq
  rw [hc.eq (by rw [Job.isWaiting, hfailed]; rfl)] at hq'
  rw [Store.stateOf, hq', Option.map_some, hfailed]

end Failure

section Reclaim

variable {cfg : WorkerConfig} {limits : QueueLimits} {locked : JobId → Bool} {now : Time}
  {s : Store} {i j : JobId} {r : Job}

/-- A job that fails with an exhausted reclaim names the reclaimed job. -/
theorem ReclaimExhausts.blames (h : ReclaimExhausts cfg limits locked now s j r) (hi : i ≠ j)
    (hs : s.stateOf i ≠ some .failed)
    (hs' : (cascadeWorkerDied now h.failed j).stateOf i = some .failed) :
    Blames s (cascadeWorkerDied now h.failed j) i j := by
  obtain ⟨r', hr', hfailed⟩ := Option.map_eq_some_iff.mp hs'
  obtain ⟨q, hq, _⟩ := (cascadesTo_cascadeWorkerDied now h.failed j).row_before hr'
  have hrow := hq
  rw [h.get? i, if_neg hi] at hrow
  rw [get?_cascadeWorkerDied hq, Option.some.injEq] at hr'
  split at hr'
  · next hwaits =>
    subst hr'
    have hrun : q.runOnFailure = false := by
      by_contra hrun
      rw [Bool.not_eq_false] at hrun
      simp [workerDiedDependentRow, hrun] at hfailed
    refine ⟨⟨q, hrow, hwaits⟩, _, (get?_cascadeWorkerDied hq).trans (by rw [if_pos hwaits]),
      hfailed, .inr ?_⟩
    simp [workerDiedDependentRow, hrun]
  · subst hr'
    rw [Store.stateOf, hrow, Option.map_some] at hs
    exact absurd (congrArg some hfailed) hs

/-- The job of an exhausted reclaim has failed. -/
theorem ReclaimExhausts.stateOf_self (h : ReclaimExhausts cfg limits locked now s j r) :
    (cascadeWorkerDied now h.failed j).stateOf j = some .failed := by
  have hrow : h.failed.get? j = some (workerDiedRow now r) := by rw [h.get? j, if_pos rfl]
  rw [Store.stateOf, get?_cascadeWorkerDied hrow, if_neg fun hw ↦ by cases hw.1]
  rfl

end Reclaim

end JobWorker
