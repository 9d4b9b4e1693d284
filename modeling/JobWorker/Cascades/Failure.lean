import JobWorker.Cli.Worker

/-!
# Closure of the failure cascade

Which rows a permanent failure changes. The walk of
`_cascade_children_on_parent_failure` reaches the jobs `FailureBelow` the failed ones, the
statement of `_fail_dependents` the direct dependents of the failed ones. The two are not
composed further (`job_worker/models/queue_job.py:587–614,731–741,774–803`,
`job_worker/cli/worker.py:1299–1313`), so the cascade is closed exactly when no waiting
job hangs on a cascade-failed one in a way that neither of them sees.
-/

namespace JobWorker

open Reachability

namespace Store

/-- The waiting jobs outside `js` that are below `js` through children that fail. -/
def FailureBelow (s : Store) (js : List JobId) : JobId → Prop :=
  Below (fun i ↦ ∃ j ∈ js, s.ChildOf j i) s.OnDone (fun i ↦ s.Waiting i ∧ i ∉ js) s.ChildOf

/-- The waiting jobs outside `js` that the failure of `js` moves. -/
def FailureHit (s : Store) (js : List JobId) (i : JobId) : Prop :=
  s.FailureBelow js i ∨ (s.Waiting i ∧ i ∉ js) ∧ ∃ j ∈ js, s.DependsOn j i

/-- Every waiting job that has as parent or dependency an on_done job failing along
with `js` is itself moved: it is below `js` through failing children, or it lists one
of `js`. -/
def FailureClosedBelow (s : Store) (js : List JobId) : Prop :=
  ∀ i r, s.get? i = some r → r.isWaiting = true → i ∉ js →
    ∀ k, s.FailureHit js k → s.OnDone k → r.WaitsOn k → s.FailureHit js i

end Store

/-- The writes of `button_set_to_failed` before `_fail_dependents`. -/
def failEach (now : Time) (f : Job → Job) (hk : ∀ r, (f r).identityKey = r.identityKey)
    (s : Store) (js : List JobId) : Except OrmError Store :=
  js.foldlM (fun s job ↦ do
    let s ← s.write job f hk
    return cascadeChildrenOnParentFailure now s job) s

/-- The two halves of the child cascade are one walk from the failed job. -/
theorem cascadeChildrenOnParentFailure_eq_walk (now : Time) (s : Store) (job : JobId) :
    cascadeChildrenOnParentFailure now s job = s.walk (failureRule now) [job] := by
  rw [Store.walk]
  rfl

/-- The failure cascades leave a row that does not wait. -/
theorem get?_cascadeFailureToDependents_of_not_waiting (now : Time) {s : Store} {job i : JobId}
    {r : Job} (hr : s.get? i = some r) (hn : r.isWaiting = false) :
    (cascadeFailureToDependents now s job).get? i = some r := by
  have hwalk : (s.walk (failureRule now) [job]).get? i = some r := by
    refine (Store.get?_walk_of_not_reached _ _ _ fun hreach ↦ ?_).trans hr
    rw [Store.waiting_iff hr |>.mp hreach.entered] at hn
    cases hn
  rw [cascadeFailureToDependents, cascadeChildrenOnParentFailure_eq_walk]
  exact get?_failDependents_of_not_dependent now hwalk (by simp [hn])

section Handled

variable {cfg : WorkerConfig} {now : Time} {exc : JobException} {traceback : String}
  {s s' : Store} {job i : JobId} {r q : Job}

/-- A handled row does not wait. -/
theorem isWaiting_handledRow (now : Time) (traceback : String) (d : Disposition) (r : Job) :
    (handledRow now traceback d r).isWaiting = false := by
  cases d <;> rfl

/-- The row that `handle_exception` leaves of its own job. -/
theorem get?_handleException_self (h : handleException cfg now exc traceback s job = .ok s')
    (hr : s.get? job = some r) :
    s'.get? job = some (handledRow now traceback (dispositionOf cfg now exc r) r) := by
  obtain ⟨s₁, hw, rfl⟩ := handleException_eq h hr
  have hrow : s₁.get? job = some (handledRow now traceback (dispositionOf cfg now exc r) r) := by
    rw [Store.get?_write hw, if_pos rfl, hr, Option.map_some]
  split
  · exact hrow
  · exact get?_cascadeFailureToDependents_of_not_waiting now hrow
      (isWaiting_handledRow now traceback _ r)

/-- `handle_exception` leaves the row of another job that does not wait. -/
theorem get?_handleException_of_not_waiting
    (h : handleException cfg now exc traceback s job = .ok s') (hr : s.get? job = some r)
    (hi : i ≠ job) (hq : s.get? i = some q) (hn : q.isWaiting = false) :
    s'.get? i = some q := by
  obtain ⟨s₁, hw, rfl⟩ := handleException_eq h hr
  have hrow : s₁.get? i = some q := by rw [Store.get?_write hw, if_neg hi, hq]
  split
  · exact hrow
  · exact get?_cascadeFailureToDependents_of_not_waiting now hrow hn

end Handled

section Loop

variable {now : Time} {f : Job → Job} {hk : ∀ r, (f r).identityKey = r.identityKey}
  {s s₁ s₂ s' : Store} {j i : JobId} {js : List JobId}

private theorem failEach_cons (h : failEach now f hk s (j :: js) = .ok s') :
    ∃ s₁, s.write j f hk = .ok s₁ ∧
      failEach now f hk (s₁.walk (failureRule now) [j]) js = .ok s' := by
  unfold failEach at h
  rw [List.foldlM_cons] at h
  obtain ⟨s₂, h₂, h⟩ := bind_eq_ok.mp h
  obtain ⟨s₁, h₁, h₂⟩ := bind_eq_ok.mp h₂
  cases h₂
  rw [cascadeChildrenOnParentFailure_eq_walk] at h
  exact ⟨s₁, h₁, h⟩

private theorem waiting_write_failed (h : s.write j f hk = .ok s₁)
    (hf : ∀ r, (f r).state = .failed) (a : JobId) :
    s₁.Waiting a ↔ s.Waiting a ∧ a ≠ j := by
  simp only [Store.Waiting, Store.get?_write h]
  by_cases ha : a = j
  · simp [ha, Job.isWaiting, hf]
  · simp [ha]

private theorem follows_iff (a : JobId) :
    s.Follows (failureRule now) a ↔ s.OnDone a := by
  simp [Store.Follows, Store.OnDone, failureRule]

/-- What fails below `j :: js` is reached from `j` now or below `js` later. -/
private theorem failureBelow_cons (h₁ : s.write j f hk = .ok s₁)
    (hf : ∀ r, (f r).state = .failed) (hwire : ∀ r, (f r).wiring = r.wiring)
    (hi : i ∉ j :: js) :
    s.FailureBelow (j :: js) i ↔ s₁.Reached (failureRule now) [j] i ∨
      (s₁.walk (failureRule now) [j]).FailureBelow js i := by
  have hsame₁ := Store.sameColumn_write h₁ hwire
  have hsame := hsame₁.trans (Store.sameWiring_walk (failureRule now) s₁ [j])
  have hwait (a : JobId) : (s₁.walk (failureRule now) [j]).Waiting a ↔
      (s.Waiting a ∧ a ≠ j) ∧ ¬ s₁.Reached (failureRule now) [j] a := by
    rw [Store.waiting_walk, waiting_write_failed h₁ hf]
  constructor
  · intro h
    induction h with
    | @seed b hs hb =>
      obtain ⟨m, hm, hc⟩ := hs
      have hbj : b ≠ j := fun he ↦ hb.2 (he ▸ List.mem_cons_self)
      by_cases hr : s₁.Reached (failureRule now) [j] b
      · exact .inl hr
      rcases List.mem_cons.mp hm with rfl | hm
      · exact .inl (.seed ⟨m, List.mem_singleton_self m, hsame₁.childOf.mpr hc⟩
          ((waiting_write_failed h₁ hf b).mpr ⟨hb.1, hbj⟩))
      · exact .inr (.seed ⟨m, hm, hsame.childOf.mpr hc⟩
          ⟨(hwait b).mpr ⟨⟨hb.1, hbj⟩, hr⟩, fun hmem ↦ hb.2 (List.mem_cons_of_mem _ hmem)⟩)
    | @step a b ha ht he hb ih =>
      have hbj : b ≠ j := fun he ↦ hb.2 (he ▸ List.mem_cons_self)
      by_cases hr : s₁.Reached (failureRule now) [j] b
      · exact .inl hr
      rcases ih ha.entered.2 with ha' | ha'
      · exact .inl (.step ha' ((follows_iff a).mpr (hsame₁.onDone.mpr ht))
          (hsame₁.childOf.mpr he) ((waiting_write_failed h₁ hf b).mpr ⟨hb.1, hbj⟩))
      · exact .inr (.step ha' (hsame.onDone.mpr ht) (hsame.childOf.mpr he)
          ⟨(hwait b).mpr ⟨⟨hb.1, hbj⟩, hr⟩, fun hmem ↦ hb.2 (List.mem_cons_of_mem _ hmem)⟩)
  · rintro (h | h)
    · -- A path through a later member of the list starts afresh below that member.
      have := h.least (P := fun b ↦ b ∈ j :: js ∨ s.FailureBelow (j :: js) b) ?_ ?_
      · exact this.resolve_left hi
      · rintro b ⟨q, hq, hc⟩ hb
        by_cases hmem : b ∈ j :: js
        · exact .inl hmem
        · rw [List.mem_singleton] at hq
          exact .inr (.seed ⟨j, List.mem_cons_self, hq ▸ hsame₁.childOf.mp hc⟩
            ⟨((waiting_write_failed h₁ hf b).mp hb).1, hmem⟩)
      · intro a b ha ht he hb
        by_cases hmem : b ∈ j :: js
        · exact .inl hmem
        have hw := ((waiting_write_failed h₁ hf b).mp hb).1
        rcases ha with ha | ha
        · exact .inr (.seed ⟨a, ha, hsame₁.childOf.mp he⟩ ⟨hw, hmem⟩)
        · exact .inr (.step ha (hsame₁.onDone.mp ((follows_iff a).mp ht))
            (hsame₁.childOf.mp he) ⟨hw, hmem⟩)
    · refine h.least (fun b hs hb ↦ ?_) (fun a b ha ht he hb ↦ ?_)
      all_goals
        have hw := (hwait b).mp hb.1
        have hmem : b ∉ j :: js := by
          rw [List.mem_cons, not_or]
          exact ⟨hw.1.2, hb.2⟩
      · obtain ⟨m, hm, hc⟩ := hs
        exact .seed ⟨m, List.mem_cons_of_mem _ hm, hsame.childOf.mp hc⟩ ⟨hw.1.1, hmem⟩
      · exact .step ha (hsame.onDone.mp ht) (hsame.childOf.mp he) ⟨hw.1.1, hmem⟩

/-- The loop keeps the wiring of the store. -/
theorem sameWiring_failEach (hwire : ∀ r, (f r).wiring = r.wiring)
    (h : failEach now f hk s js = .ok s') : s.SameWiring s' := by
  induction js generalizing s with
  | nil => cases h; exact .refl _
  | cons j js ih =>
    obtain ⟨s₁, h₁, h₂⟩ := failEach_cons h
    exact ((Store.sameColumn_write h₁ hwire).trans (Store.sameWiring_walk _ _ _)).trans (ih h₂)

/-- The loop writes every row below `js` once and leaves the others. -/
theorem get?_failEach (hf : ∀ r, (f r).state = .failed)
    (hwire : ∀ r, (f r).wiring = r.wiring) (h : failEach now f hk s js = .ok s')
    (hi : i ∉ js) {r : Job} (hr : s.get? i = some r) :
    (s.FailureBelow js i →
      ∃ q, r.parentId = some q ∧ s'.get? i = some ((failureRule now).write q r)) ∧
      (¬ s.FailureBelow js i → s'.get? i = some r) := by
  induction js generalizing s r with
  | nil =>
    cases h
    exact ⟨fun hb ↦ absurd hb (not_below_of_no_seed (by simp)), fun _ ↦ hr⟩
  | cons j js ih =>
    obtain ⟨s₁, h₁, h₂⟩ := failEach_cons h
    have hi' := hi
    rw [List.mem_cons, not_or] at hi'
    have hr₁ : s₁.get? i = some r := by rw [Store.get?_write h₁, if_neg hi'.1, hr]
    rw [failureBelow_cons h₁ hf hwire hi]
    by_cases hreach : s₁.Reached (failureRule now) [j] i
    · obtain ⟨q, r', hr', hq⟩ := hreach.childOf
      rw [hr₁] at hr'
      cases hr'
      have hr₂ := Store.get?_walk_of_reached (failureRule now) s₁ [j] hr₁ hq hreach
      -- A row written by the walk is no longer waiting, so the rest of the loop leaves it.
      have hn : ¬ (s₁.walk (failureRule now) [j]).FailureBelow js i := fun hb ↦
        (((Store.waiting_walk _ _ _ _).mp hb.entered.1).2 hreach)
      refine ⟨fun _ ↦ ⟨q, hq, ?_⟩, fun hno ↦ absurd (.inl hreach) hno⟩
      exact (ih h₂ hi'.2 hr₂).2 hn
    · have hr₂ : (s₁.walk (failureRule now) [j]).get? i = some r := by
        rw [Store.get?_walk_of_not_reached _ _ _ hreach, hr₁]
      simp only [hreach, false_or]
      exact ih h₂ hi'.2 hr₂

/-- A row that the failure of `js` does not move is left as it was. -/
theorem get?_failure_of_not_hit (hf : ∀ r, (f r).state = .failed)
    (hwire : ∀ r, (f r).wiring = r.wiring) (h : failEach now f hk s js = .ok s')
    (hi : i ∉ js) {r : Job} (hr : s.get? i = some r) (hn : ¬ s.FailureHit js i) :
    (failDependents now s' js).get? i = some r := by
  rw [Store.FailureHit, not_or] at hn
  refine get?_failDependents_of_not_dependent now
    ((get?_failEach hf hwire h hi hr).2 hn.1) fun hd ↦ hn.2 ⟨⟨?_, hi⟩, ?_⟩
  · exact (Store.waiting_iff hr).mpr hd.1
  · exact hd.2.imp fun j hj ↦ ⟨hj.1, (Store.dependsOn_iff hr).mpr hj.2⟩

/-- A row that the failure of `js` moves takes the state of its disposition. -/
theorem stateOf_failure_of_hit (hf : ∀ r, (f r).state = .failed)
    (hwire : ∀ r, (f r).wiring = r.wiring) (h : failEach now f hk s js = .ok s')
    (hi : i ∉ js) {r : Job} (hr : s.get? i = some r) (hit : s.FailureHit js i) :
    (failDependents now s' js).stateOf i =
      some (if r.runOnFailure then .pending else .failed) := by
  by_cases hb : s.FailureBelow js i
  · obtain ⟨q, _, hrow⟩ := (get?_failEach hf hwire h hi hr).1 hb
    have hn : ((failureRule now).write q r).isWaiting = false :=
      (failureRule now).not_waiting_write q r
    rw [Store.stateOf, get?_failDependents_of_not_dependent now hrow (by simp [hn])]
    simp only [failureRule, Option.map_some]
    split <;> rfl
  · obtain ⟨hw, j, hj, hd⟩ := hit.resolve_left hb
    exact stateOf_failDependents now ((get?_failEach hf hwire h hi hr).2 hb)
      ((Store.waiting_iff hr).mp hw.1) ⟨j, hj, (Store.dependsOn_iff hr).mp hd⟩

end Loop

/-! ### The three paths of a permanent failure -/

/-- `js` fail for good and their cascades have run: through `handle_exception`, through
`run_now`, or through `button_set_to_failed`. -/
inductive FailsPermanently (s : Store) : List JobId → Store → Prop
  | handleException {cfg : WorkerConfig} {now : Time} {exc : JobException}
      {traceback : String} {j : JobId} {r : Job} {counted : Bool} {s' : Store} :
      s.get? j = some r → dispositionOf cfg now exc r = .fail counted →
      handleException cfg now exc traceback s j = .ok s' → FailsPermanently s [j] s'
  | runNow {run : Execution} {j : JobId} {s' : Store} :
      runJob run s j = .ok (s', true) → FailsPermanently s [j] s'
  | buttonSetToFailed {now : Time} {js : List JobId} {s' : Store} :
      buttonSetToFailed now s js = .ok s' → FailsPermanently s js s'

private theorem failEach_singleton {now : Time} {f : Job → Job}
    {hk : ∀ r, (f r).identityKey = r.identityKey} {s s₁ : Store} {j : JobId}
    (h : s.write j f hk = .ok s₁) :
    failEach now f hk s [j] = .ok (cascadeChildrenOnParentFailure now s₁ j) := by
  simp only [failEach, List.foldlM_cons, List.foldlM_nil, h]
  rfl

/-- All three paths are the same loop with their own row, then `_fail_dependents`. -/
theorem FailsPermanently.failEach {s s' : Store} {js : List JobId}
    (h : FailsPermanently s js s') :
    ∃ (now : Time) (f : Job → Job) (hk : ∀ r, (f r).identityKey = r.identityKey) (s₁ : Store),
      (∀ r, (f r).state = .failed) ∧ (∀ r, (f r).wiring = r.wiring) ∧
        failEach now f hk s js = .ok s₁ ∧ s' = failDependents now s₁ js := by
  cases h with
  | @handleException cfg now exc traceback j r counted s' hr hd h =>
    obtain ⟨s₁, hw, rfl⟩ := handleException_eq h hr
    rw [hd] at hw ⊢
    exact ⟨now, handledRow now traceback (.fail counted), _, _, fun _ ↦ rfl, fun _ ↦ rfl,
      failEach_singleton hw, rfl⟩
  | @runNow run j s' h =>
    cases runEffect h with
    | crashed _ _ hw =>
      exact ⟨run.finish, crashedRow run _, _, _, fun _ ↦ rfl, fun _ ↦ rfl,
        failEach_singleton hw, rfl⟩
  | @buttonSetToFailed now js s' h =>
    obtain ⟨s₁, hw, h⟩ := bind_eq_ok.mp h
    cases h
    exact ⟨now, completedRow now .failed, _, s₁, fun _ ↦ rfl, fun _ ↦ rfl, hw, rfl⟩

/-! ### Closure -/

/-- `k` is one of the failed jobs or a job that their cascade failed. -/
def FailedBy (s s' : Store) (js : List JobId) (k : JobId) : Prop :=
  k ∈ js ∨ s.Waiting k ∧ s'.stateOf k = some .failed

/-- Row `i` was waiting for a job that has failed now. -/
def HangsOnFailed (s s' : Store) (js : List JobId) (i : JobId) (r : Job) : Prop :=
  s.get? i = some r ∧ i ∉ js ∧ r.isWaiting = true ∧ ∃ k, FailedBy s s' js k ∧ r.WaitsOn k

/-- Every job that waited for a failed one is settled by its disposition, and no other
job's state changes. -/
structure FailureClosed (s s' : Store) (js : List JobId) : Prop where
  onDone : ∀ i r, HangsOnFailed s s' js i r → r.runOnFailure = false →
    s'.stateOf i = some .failed
  onError : ∀ i r, HangsOnFailed s s' js i r → r.runOnFailure = true →
    s'.stateOf i = some .pending
  frame : ∀ i, i ∉ js → (∀ r, ¬ HangsOnFailed s s' js i r) → s'.stateOf i = s.stateOf i

section Closure

variable {s s' : Store} {js : List JobId} {i k : JobId} {r : Job}

/-- The effect of a permanent failure on a row outside `js`. -/
theorem FailsPermanently.stateOf (h : FailsPermanently s js s') (hi : i ∉ js)
    (hr : s.get? i = some r) :
    (s.FailureHit js i →
      s'.stateOf i = some (if r.runOnFailure then .pending else .failed)) ∧
      (¬ s.FailureHit js i → s'.stateOf i = some r.state) := by
  obtain ⟨now, f, hk, s₁, hf, hwire, h₁, rfl⟩ := h.failEach
  refine ⟨stateOf_failure_of_hit hf hwire h₁ hi hr, fun hn ↦ ?_⟩
  rw [Store.stateOf, get?_failure_of_not_hit hf hwire h₁ hi hr hn]
  rfl

/-- A permanent failure keeps the wiring of the store. -/
theorem FailsPermanently.sameWiring (h : FailsPermanently s js s') : s.SameWiring s' := by
  obtain ⟨now, f, hk, s₁, _, hwire, h₁, rfl⟩ := h.failEach
  exact (sameWiring_failEach hwire h₁).trans (sameWiring_failDependents now s₁ js)

/-- What a failure moves was waiting outside the failed jobs. -/
theorem FailureHit.entered (h : s.FailureHit js i) : s.Waiting i ∧ i ∉ js := by
  rcases h with h | h
  · exact h.entered
  · exact h.1

/-- The jobs failed by the cascade are the on_done jobs that it moves. -/
theorem FailsPermanently.failedBy_iff (h : FailsPermanently s js s') :
    FailedBy s s' js k ↔ k ∈ js ∨ s.FailureHit js k ∧ s.OnDone k := by
  by_cases hk : k ∈ js
  · simp [FailedBy, hk]
  simp only [FailedBy, hk, false_or]
  constructor
  · rintro ⟨⟨r, hr, hw⟩, hs⟩
    by_cases hit : s.FailureHit js k
    · rw [(h.stateOf hk hr).1 hit] at hs
      refine ⟨hit, r, hr, ?_⟩
      cases hd : r.runOnFailure with
      | false => rfl
      | true => rw [hd] at hs; cases hs
    · rw [(h.stateOf hk hr).2 hit, Job.isWaiting_iff.mp hw] at hs
      cases hs
  · rintro ⟨hit, r, hr, hd⟩
    refine ⟨(FailureHit.entered hit).1, ?_⟩
    rw [(h.stateOf hk hr).1 hit, hd]
    rfl

/-- A waiting job on a failed one is moved. -/
theorem hit_of_waitsOn (hr : s.get? i = some r) (hw : r.isWaiting = true)
    (hi : i ∉ js) (hk : k ∈ js) (h : r.WaitsOn k) : s.FailureHit js i := by
  have hwi : s.Waiting i ∧ i ∉ js := ⟨(Store.waiting_iff hr).mpr hw, hi⟩
  rcases h with hp | hd
  · exact .inl (.seed ⟨k, hk, (Store.childOf_iff hr).mpr hp⟩ hwi)
  · exact .inr ⟨hwi, k, hk, (Store.dependsOn_iff hr).mpr hd⟩

/-- What a failure moves waits on a failed job. -/
theorem waitsOn_of_hit (hr : s.get? i = some r) (h : s.FailureHit js i) :
    ∃ k, (k ∈ js ∨ s.FailureHit js k ∧ s.OnDone k) ∧ r.WaitsOn k := by
  rcases h with h | ⟨_, k, hk, hd⟩
  · cases h with
    | seed hs _ =>
      obtain ⟨k, hk, hc⟩ := hs
      exact ⟨k, .inl hk, .inl ((Store.childOf_iff hr).mp hc)⟩
    | @step a _ ha ht he _ =>
      exact ⟨a, .inr ⟨.inl ha, ht⟩, .inl ((Store.childOf_iff hr).mp he)⟩
  · exact ⟨k, .inl hk, .inr ((Store.dependsOn_iff hr).mp hd)⟩

end Closure

/-- The failure cascade is closed exactly when every waiting job behind a failing one is
itself below the failed jobs through failing children or lists one of them. -/
theorem failureClosed_iff {s s' : Store} {js : List JobId} (h : FailsPermanently s js s') :
    FailureClosed s s' js ↔ s.FailureClosedBelow js := by
  constructor
  · intro hc i r hr hw hi k hit hd hwait
    by_contra hn
    have hang : HangsOnFailed s s' js i r :=
      ⟨hr, hi, hw, k, h.failedBy_iff.mpr (.inr ⟨hit, hd⟩), hwait⟩
    have hs := (h.stateOf hi hr).2 hn
    rw [Job.isWaiting_iff.mp hw] at hs
    cases hr' : r.runOnFailure with
    | false => rw [hc.onDone i r hang hr'] at hs; cases hs
    | true => rw [hc.onError i r hang hr'] at hs; cases hs
  · intro hc
    have hits {i : JobId} {r : Job} (hang : HangsOnFailed s s' js i r) : s.FailureHit js i := by
      obtain ⟨hr, hi, hw, k, hk, hwait⟩ := hang
      rcases h.failedBy_iff.mp hk with hk | ⟨hit, hd⟩
      · exact hit_of_waitsOn hr hw hi hk hwait
      · exact hc i r hr hw hi k hit hd hwait
    refine ⟨fun i r hang hd ↦ ?_, fun i r hang hd ↦ ?_, fun i hi hno ↦ ?_⟩
    · rw [(h.stateOf hang.2.1 hang.1).1 (hits hang), hd]
      rfl
    · rw [(h.stateOf hang.2.1 hang.1).1 (hits hang), hd]
      rfl
    · cases hr : s.get? i with
      | none =>
        rw [Store.stateOf, Store.stateOf, h.sameWiring.none hr, hr]
      | some r =>
        have hn : ¬ s.FailureHit js i := by
          intro hit
          obtain ⟨k, hk, hwait⟩ := waitsOn_of_hit hr hit
          exact hno r ⟨hr, hi, (Store.waiting_iff hr).mp (FailureHit.entered hit).1, k,
            h.failedBy_iff.mpr hk, hwait⟩
        rw [(h.stateOf hi hr).2 hn, Store.stateOf, hr]
        rfl

/-- A running job, a barrier on it, and a chain link behind the barrier. -/
def chainBehindBarrier : Store := .ofRows [
  { payload := .ping, state := .started },
  { payload := .ping, state := .waiting, dependencyJobIds := some [1],
    pendingDependencyCount := 1 },
  { payload := .ping, state := .waiting, parentId := some 2 }]

/-- The equivalence at the barrier with a chain link behind it. -/
theorem failureClosed_iff_chainBehindBarrier :
    ∃ s', buttonSetToFailed 0 chainBehindBarrier [1] = .ok s' ∧
      (FailureClosed chainBehindBarrier s' [1] ↔
        chainBehindBarrier.FailureClosedBelow [1]) := by
  cases h : buttonSetToFailed 0 chainBehindBarrier [1] with
  | error e =>
    have hok : (buttonSetToFailed 0 chainBehindBarrier [1]).toOption.isSome = true := by
      decide +kernel
    rw [h] at hok
    cases hok
  | ok s' => exact ⟨s', rfl, failureClosed_iff (.buttonSetToFailed h)⟩

/-- The barrier fails and the chain link behind it is left waiting. -/
theorem not_failureClosed_chainBehindBarrier :
    ¬ ∀ (s s' : Store) (js : List JobId), FailsPermanently s js s' → FailureClosed s s' js := by
  intro hclaim
  have hlink : (buttonSetToFailed 0 chainBehindBarrier [1]).toOption.bind (·.stateOf 3) =
      some .waiting := by decide +kernel
  have hbarrier : (buttonSetToFailed 0 chainBehindBarrier [1]).toOption.bind (·.stateOf 2) =
      some .failed := by decide +kernel
  cases h : buttonSetToFailed 0 chainBehindBarrier [1] with
  | error e => rw [h] at hlink; cases hlink
  | ok s' =>
    rw [h] at hlink hbarrier
    have hfails : FailedBy chainBehindBarrier s' [1] 2 :=
      .inr ⟨⟨_, rfl, rfl⟩, hbarrier⟩
    have hang : HangsOnFailed chainBehindBarrier s' [1] 3
        { payload := .ping, state := .waiting, parentId := some 2 } :=
      ⟨rfl, by decide, rfl, 2, hfails, .inl rfl⟩
    have hs := (hclaim _ _ _ (.buttonSetToFailed h)).onDone 3 _ hang rfl
    rw [show s'.stateOf 3 = some .waiting from hlink] at hs
    cases hs

end JobWorker
