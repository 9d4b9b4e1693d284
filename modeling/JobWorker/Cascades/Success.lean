import JobWorker.Cascades.Failure

/-!
# Closure of the success cascade

Which rows a successful completion changes. `_cascade_children_on_parent_success` cancels
the on_error children and everything waiting below them on the parent axis, and
`_release_dependents` cancels the fully released on_error barriers
(`job_worker/models/queue_job.py:551–585,743–772`). Nothing is swept behind a cancelled
barrier, nor along the dependencies of a cancelled child.
-/

namespace JobWorker

open Reachability

namespace Store

/-- The waiting jobs that the child cascade of `j` cancels. -/
def CancelledBelow (s : Store) (j : JobId) : JobId → Prop :=
  Below (fun i ↦ s.ChildOf j i ∧ s.OnError i) (fun _ ↦ True) (fun i ↦ s.Waiting i ∧ i ≠ j)
    s.ChildOf

/-- The on_error barriers that the completion of `j` releases in full. -/
def CancelledBarrier (s : Store) (j i : JobId) : Prop :=
  i ≠ j ∧ ∃ r, s.get? i = some r ∧ r.isWaiting = true ∧ r.runOnFailure = true ∧
    r.dependsOn j = true ∧ r.pendingDependencyCount ≤ 1

/-- The jobs that the success of `j` cancels. -/
def SuccessCancels (s : Store) (j i : JobId) : Prop :=
  s.CancelledBelow j i ∨ s.CancelledBarrier j i

/-- Every waiting job that has as parent or dependency a job cancelled by the success of
`j` is itself cancelled by it. -/
def SuccessClosedBelow (s : Store) (j : JobId) : Prop :=
  ∀ i r, s.get? i = some r → r.isWaiting = true → i ≠ j →
    ∀ k, s.SuccessCancels j k → r.WaitsOn k → s.SuccessCancels j i

end Store

section Walk

variable {now : Time} {s : Store} {j i : JobId} {r : Job}

private theorem touched_waiting (now : Time) (i : JobId) :
    (s.touchChildren (successRule now) j).Waiting i ↔ s.Waiting i ∧ ¬ s.ChildOf j i :=
  Store.waiting_touchChildren _ _ _ _

private theorem mem_queue (a : JobId) : a ∈ s.followed (successRule now) j ↔
    s.ChildOf j a ∧ s.Waiting a ∧ s.OnError a :=
  Store.mem_followed

/-- The child cascade cancels the on_error children and what its walk reaches. -/
theorem cancelledBelow_iff (now : Time) (hj : ¬ s.Waiting j) :
    s.CancelledBelow j i ↔ (s.ChildOf j i ∧ s.Waiting i ∧ s.OnError i) ∨
      (s.touchChildren (successRule now) j).Reached (cancelRule now)
        (s.followed (successRule now) j) i := by
  have hsame := Store.sameColumn_touchChildren (successRule now) (successRule now).wiring_write s j
  constructor
  · intro h
    induction h with
    | seed hs hb => exact .inl ⟨hs.1, hb.1, hs.2⟩
    | @step a b ha _ he hb ih =>
      -- A row has one parent, so what is below another job is no child of `j`.
      have hnc : ¬ s.ChildOf j b := by
        rintro ⟨r, hr, hp⟩
        have hpa := (Store.childOf_iff hr).mp he
        rw [hp, Option.some.injEq] at hpa
        exact ha.entered.2 hpa.symm
      have hb' := (touched_waiting now b).mpr ⟨hb.1, hnc⟩
      rcases ih with ih | ih
      · exact .inr (.seed ⟨a, (mem_queue a).mpr ih, hsame.childOf.mpr he⟩ hb')
      · exact .inr (.step ih ⟨_, (ih.entered.choose_spec).1, rfl⟩ (hsame.childOf.mpr he) hb')
  · have hne {b : JobId} (hb : s.Waiting b) : b ≠ j := fun he ↦ hj (he ▸ hb)
    rintro (⟨hc, hw, he⟩ | h)
    · exact .seed ⟨hc, he⟩ ⟨hw, hne hw⟩
    · refine h.least (fun b hs hb ↦ ?_) (fun a b ha _ he hb ↦ ?_)
      · obtain ⟨q, hq, hc⟩ := hs
        obtain ⟨hqc, hqw, hqe⟩ := (mem_queue q).mp hq
        have hbw := ((touched_waiting now b).mp hb).1
        exact .step (.seed ⟨hqc, hqe⟩ ⟨hqw, hne hqw⟩) trivial (hsame.childOf.mp hc)
          ⟨hbw, hne hbw⟩
      · have hbw := ((touched_waiting now b).mp hb).1
        exact .step ha trivial (hsame.childOf.mp he) ⟨hbw, hne hbw⟩

/-- A row after the child cascade of a success. -/
theorem get?_cascadeChildrenOnParentSuccess (now : Time) (hj : ¬ s.Waiting j)
    (hr : s.get? i = some r) :
    (s.CancelledBelow j i → (cascadeChildrenOnParentSuccess now s j).get? i =
      some ((cancelRule now).write j r)) ∧
    (¬ s.CancelledBelow j i → (cascadeChildrenOnParentSuccess now s j).get? i =
      some (if Store.isWaitingChild j r then { r with state := .pending, writeDate := now }
        else r)) := by
  have htouch := Store.get?_touchChildren (successRule now) s j i
  rw [hr, Option.map_some] at htouch
  rw [cancelledBelow_iff now hj]
  unfold cascadeChildrenOnParentSuccess
  by_cases hreach : (s.touchChildren (successRule now) j).Reached (cancelRule now)
      (s.followed (successRule now) j) i
  · have hnc : Store.isWaitingChild j r = false := by
      rw [Bool.eq_false_iff, ne_eq, Store.isWaitingChild_iff]
      exact fun hc ↦ ((touched_waiting now i).mp hreach.entered).2
        ((Store.childOf_iff hr).mpr hc.1)
    rw [hnc, if_neg Bool.false_ne_true] at htouch
    obtain ⟨q, r', hr', hq⟩ := hreach.childOf
    rw [htouch] at hr'
    cases hr'
    refine ⟨fun _ ↦ ?_, fun hno ↦ absurd (.inr hreach) hno⟩
    have hrow := Store.get?_walk_of_reached (cancelRule now) _ _ htouch hq hreach
    exact hrow
  · rw [Store.get?_walk_of_not_reached _ _ _ hreach, htouch]
    simp only [hreach, or_false]
    refine ⟨fun ⟨hc, hw, he⟩ ↦ ?_, fun hno ↦ ?_⟩
    · have hchild : Store.isWaitingChild j r = true := Store.isWaitingChild_iff.mpr
        ⟨(Store.childOf_iff hr).mp hc, (Store.waiting_iff hr).mp hw⟩
      simp [hchild, successRule, cancelRule, (Store.onError_iff hr).mp he]
    · split
      · next hchild =>
        obtain ⟨hp, hw⟩ := Store.isWaitingChild_iff.mp hchild
        have he : r.runOnFailure = false := by
          rw [Bool.eq_false_iff]
          exact fun he ↦ hno ⟨(Store.childOf_iff hr).mpr hp, (Store.waiting_iff hr).mpr hw,
            (Store.onError_iff hr).mpr he⟩
        simp [successRule, he]
      · rfl

/-- The child cascade of a success keeps the wiring of the store. -/
theorem sameWiring_cascadeChildrenOnParentSuccess (now : Time) (s : Store) (j : JobId) :
    s.SameWiring (cascadeChildrenOnParentSuccess now s j) :=
  (Store.sameColumn_touchChildren _ (successRule now).wiring_write _ _).trans
    (Store.sameWiring_walk _ _ _)

/-- Both success cascades keep the wiring of the store. -/
theorem sameWiring_cascadeSuccessToDependents (now : Time) (s : Store) (j : JobId) :
    s.SameWiring (cascadeSuccessToDependents now s j) :=
  (sameWiring_cascadeChildrenOnParentSuccess now s j).trans
    (sameWiring_releaseDependents now _ [j])

/-- Both success cascades activate nothing. -/
theorem deactivates_cascadeSuccessToDependents (now : Time) (s : Store) (j : JobId) :
    s.Deactivates (cascadeSuccessToDependents now s j) :=
  ((Store.deactivates_touchChildren _ _ _).trans (Store.deactivates_walk _ _ _)).trans
    (deactivates_releaseDependents now _ [j])

/-- A row after both success cascades when the child cascade does not cancel it. -/
def successRow (now : Time) (j : JobId) (r : Job) : Job :=
  if Store.isWaitingChild j r then { r with state := .pending, writeDate := now }
  else if isWaitingDependent j r then releaseRow now r
  else r

/-- State of that row, from the row before. -/
def successState (j : JobId) (r : Job) : JobState :=
  if Store.isWaitingChild j r then .pending
  else if isWaitingDependent j r ∧ r.pendingDependencyCount ≤ 1 then
    (if r.runOnFailure then .cancelled else .pending)
  else r.state

/-- The state column of `successRow`. -/
theorem state_successRow : (successRow now j r).state = successState j r := by
  have hle : r.pendingDependencyCount - 1 ≤ 0 ↔ r.pendingDependencyCount ≤ 1 := by omega
  rw [successRow, successState]
  split
  · rfl
  · by_cases hd : isWaitingDependent j r = true
    · by_cases hcount : r.pendingDependencyCount ≤ 1
      · simp [releaseRow, hd, hle, hcount]
      · simp [releaseRow, hd, hle, hcount]
    · simp [hd]

/-- A row that still waits is no child of the completed job and not released by it; its
counter has gone down if it lists the job. -/
theorem successRow_of_waiting (h : (successRow now j r).isWaiting = true) :
    r.parentId ≠ some j ∧ ¬ r.ReleasedBy [j] ∧ (successRow now j r).wiring = r.wiring ∧
      (successRow now j r).pendingDependencyCount =
        r.pendingDependencyCount - r.listed [j] := by
  have hlisted : r.listed [j] = if r.dependsOn j then 1 else 0 := by
    simp [Job.listed, List.countP_cons]
  rw [Job.ReleasedBy, hlisted]
  unfold successRow at h ⊢
  by_cases hc : Store.isWaitingChild j r = true
  · rw [if_pos hc] at h
    cases h
  rw [if_neg hc] at h ⊢
  have hp (hw : r.isWaiting = true) : r.parentId ≠ some j :=
    fun hp ↦ hc (Store.isWaitingChild_iff.mpr ⟨hp, hw⟩)
  by_cases hd : isWaitingDependent j r = true
  · obtain ⟨hw, hdep⟩ := Bool.and_eq_true_iff.mp hd
    rw [if_pos hd] at h ⊢
    refine ⟨hp hw, ?_, rfl, by rw [if_pos hdep]; rfl⟩
    rw [if_pos hdep]
    rintro ⟨_, hle⟩
    have hz : r.pendingDependencyCount - 1 ≤ 0 := by omega
    simp only [Job.isWaiting, releaseRow, hz, true_and, if_true] at h
    split at h <;> cases h
  · rw [if_neg hd] at h ⊢
    have hdep : r.dependsOn j = false := by simpa [isWaitingDependent, h] using hd
    exact ⟨hp h, by simp [hdep], rfl, by simp [hdep]⟩

/-- A row after both success cascades. -/
theorem get?_cascadeSuccessToDependents (now : Time) (hj : ¬ s.Waiting j)
    (hr : s.get? i = some r) :
    (s.CancelledBelow j i →
      (cascadeSuccessToDependents now s j).stateOf i = some .cancelled) ∧
    (¬ s.CancelledBelow j i →
      (cascadeSuccessToDependents now s j).get? i = some (successRow now j r)) := by
  obtain ⟨hin, hout⟩ := get?_cascadeChildrenOnParentSuccess now hj hr
  have hrow (q : Job) (hq : (cascadeChildrenOnParentSuccess now s j).get? i = some q) :
      (cascadeSuccessToDependents now s j).get? i =
        some (if isWaitingDependent j q then releaseRow now q else q) := by
    rw [cascadeSuccessToDependents, get?_releaseDependents, hq]
    rfl
  refine ⟨fun hb ↦ ?_, fun hb ↦ ?_⟩
  · rw [Store.stateOf, hrow _ (hin hb)]
    rfl
  · rw [hrow _ (hout hb), successRow]
    by_cases hc : Store.isWaitingChild j r = true
    · simp [hc, isWaitingDependent, Job.isWaiting]
    · simp [hc]

/-- The success cascades leave their own job. -/
theorem get?_cascadeSuccessToDependents_self (now : Time) (hr : s.get? j = some r)
    (hn : r.isWaiting = false) : (cascadeSuccessToDependents now s j).get? j = some r := by
  have hj : ¬ s.Waiting j := fun hw ↦ by
    rw [(Store.waiting_iff hr).mp hw] at hn
    cases hn
  rw [(get?_cascadeSuccessToDependents now hj hr).2 fun hb ↦ hb.entered.2 rfl]
  simp [successRow, Store.isWaitingChild, isWaitingDependent, hn]

end Walk

/-! ### The two paths of a successful completion -/

/-- `j` completes and its cascades run: through `finalize_job` or through `run_now`. -/
inductive CompletesSuccessfully (s : Store) (j : JobId) : Store → Prop
  | finalizeJob {now : Time} {serialized : Option String} {s' : Store} :
      finalizeJob now serialized s j = .ok s' → CompletesSuccessfully s j s'
  | runNow {run : Execution} {serialized : Option (Option String)} {s' : Store} :
      run.outcome = .returns serialized → runJob run s j = .ok (s', false) →
      CompletesSuccessfully s j s'

/-- Both paths write their own row and run the same cascades. -/
theorem CompletesSuccessfully.write {s s' : Store} {j : JobId}
    (h : CompletesSuccessfully s j s') :
    ∃ (now : Time) (f : Job → Job) (hk : ∀ r, (f r).identityKey = r.identityKey) (s₁ : Store),
      (∀ r, (f r).state = .done) ∧ (∀ r, (f r).wiring = r.wiring) ∧
        s.write j f hk = .ok s₁ ∧ s' = cascadeSuccessToDependents now s₁ j := by
  cases h with
  | @finalizeJob now serialized s' h =>
    obtain ⟨s₁, hw, h⟩ := bind_eq_ok.mp h
    cases h
    exact ⟨now, finalizedRow now serialized, _, s₁, fun _ ↦ rfl, fun _ ↦ rfl, hw, rfl⟩
  | @runNow run serialized s' ho h =>
    cases runEffect h with
    | returned _ hw =>
      exact ⟨run.finish, ranRow run _, _, _, fun _ ↦ rfl, fun _ ↦ rfl, hw, rfl⟩
    | postponed ho' => cases ho.symm.trans ho'

/-! ### Closure -/

/-- `k` was waiting and has been cancelled by the success of `j`. -/
def CancelledBy (s s' : Store) (j k : JobId) : Prop :=
  k ≠ j ∧ s.Waiting k ∧ s'.stateOf k = some .cancelled

/-- Row `i`, other than `j`, was waiting. -/
def WasWaiting (s : Store) (j i : JobId) (r : Job) : Prop :=
  s.get? i = some r ∧ r.isWaiting = true ∧ i ≠ j

/-- The success of `j` leaves nothing waiting on what it cancelled, settles its own
children and released barriers, and changes the state of no other row. -/
structure SuccessClosed (s s' : Store) (j : JobId) : Prop where
  noneWaits : ∀ i r k, s'.get? i = some r → r.isWaiting = true → CancelledBy s s' j k →
    ¬ r.WaitsOn k
  onErrorChild : ∀ i r, WasWaiting s j i r → r.parentId = some j → r.runOnFailure = true →
    s'.stateOf i = some .cancelled
  onErrorBarrier : ∀ i r, WasWaiting s j i r → r.dependsOn j = true →
    r.pendingDependencyCount ≤ 1 → r.runOnFailure = true → s'.stateOf i = some .cancelled
  propagates : ∀ i r k, WasWaiting s j i r → CancelledBy s s' j k → r.WaitsOn k →
    s'.stateOf i = some .cancelled
  onDoneChild : ∀ i r, WasWaiting s j i r → r.parentId = some j → r.runOnFailure = false →
    r.dependencies = [] → s'.stateOf i = some .pending
  frame : ∀ i, i ≠ j →
    (∀ r, WasWaiting s j i r → ¬ r.WaitsOn j ∧ ∀ k, CancelledBy s s' j k → ¬ r.WaitsOn k) →
    s'.stateOf i = s.stateOf i

section Closure

variable {s s' s₁ : Store} {j i k : JobId} {r : Job} {f : Job → Job}
  {hk : ∀ r, (f r).identityKey = r.identityKey}

private theorem waiting_write_done (h : s.write j f hk = .ok s₁)
    (hf : ∀ r, (f r).state = .done) (a : JobId) :
    s₁.Waiting a ↔ s.Waiting a ∧ a ≠ j := by
  simp only [Store.Waiting, Store.get?_write h]
  by_cases ha : a = j
  · simp [ha, Job.isWaiting, hf]
  · simp [ha]

private theorem cancelledBelow_write (h : s.write j f hk = .ok s₁)
    (hf : ∀ r, (f r).state = .done) (hwire : ∀ r, (f r).wiring = r.wiring) :
    s₁.CancelledBelow j i ↔ s.CancelledBelow j i := by
  have hsame := Store.sameColumn_write h hwire
  apply below_congr
  · exact fun a ↦ and_congr hsame.childOf hsame.onError
  · exact fun a ↦ Iff.rfl
  · intro a
    rw [waiting_write_done h hf]
    tauto
  · exact fun a b ↦ hsame.childOf

/-- The effect of a successful completion on another row. -/
theorem CompletesSuccessfully.row (h : CompletesSuccessfully s j s') (hi : i ≠ j)
    (hr : s.get? i = some r) :
    (s.CancelledBelow j i → s'.stateOf i = some .cancelled) ∧
      (¬ s.CancelledBelow j i → ∃ now, s'.get? i = some (successRow now j r)) := by
  obtain ⟨now, f, hk, s₁, hf, hwire, hw, rfl⟩ := h.write
  have hr₁ : s₁.get? i = some r := by rw [Store.get?_write hw, if_neg hi, hr]
  have hj : ¬ s₁.Waiting j := fun hwj ↦ ((waiting_write_done hw hf j).mp hwj).2 rfl
  rw [← cancelledBelow_write hw hf hwire]
  obtain ⟨hin, hout⟩ := get?_cascadeSuccessToDependents _ hj hr₁
  exact ⟨hin, fun hb ↦ ⟨now, hout hb⟩⟩

/-- The state of another row after a successful completion. -/
theorem CompletesSuccessfully.stateOf (h : CompletesSuccessfully s j s') (hi : i ≠ j)
    (hr : s.get? i = some r) :
    (s.CancelledBelow j i → s'.stateOf i = some .cancelled) ∧
      (¬ s.CancelledBelow j i → s'.stateOf i = some (successState j r)) := by
  obtain ⟨hin, hout⟩ := h.row hi hr
  refine ⟨hin, fun hb ↦ ?_⟩
  obtain ⟨now, hrow⟩ := hout hb
  rw [Store.stateOf, hrow, Option.map_some, state_successRow]

/-- What one completion does to another waiting row: it cancels the row below its on_error
children, it settles the row as its own child or by the counter, or it counts down. -/
theorem CompletesSuccessfully.waiting_cases (h : CompletesSuccessfully s j s') (hi : i ≠ j)
    (hr : s.get? i = some r) (hw : r.isWaiting = true) :
    (s.CancelledBelow j i ∧ s'.stateOf i = some .cancelled) ∨
    (¬ s.CancelledBelow j i ∧ (r.parentId = some j ∨ r.ReleasedBy [j]) ∧
      s'.stateOf i = some (if r.runOnFailure then .cancelled else .pending)) ∨
    (∃ r₁, s'.get? i = some r₁ ∧ r₁.isWaiting = true ∧ r₁.wiring = r.wiring ∧
      r.parentId ≠ some j ∧ ¬ r.ReleasedBy [j] ∧
      r₁.pendingDependencyCount = r.pendingDependencyCount - r.listed [j]) := by
  by_cases hb : s.CancelledBelow j i
  · exact .inl ⟨hb, (h.row hi hr).1 hb⟩
  right
  obtain ⟨now, hrow⟩ := (h.row hi hr).2 hb
  by_cases hwait : (successRow now j r).isWaiting = true
  · obtain ⟨hp, hrel, hwire, hcount⟩ := successRow_of_waiting hwait
    exact .inr ⟨_, hrow, hwait, hwire, hp, hrel, hcount⟩
  left
  rw [Job.isWaiting_iff, state_successRow] at hwait
  have hlisted : r.dependsOn j = true → r.listed [j] = 1 := fun hd ↦ by
    simp [Job.listed, hd]
  rw [(h.stateOf hi hr).2 hb]
  unfold successState at hwait ⊢
  by_cases hc : Store.isWaitingChild j r = true
  · have hp := (Store.isWaitingChild_iff.mp hc).1
    -- An on_error child of `j` would be below it.
    have he : r.runOnFailure = false := by
      rw [Bool.eq_false_iff]
      exact fun he ↦ hb (.seed ⟨(Store.childOf_iff hr).mpr hp, (Store.onError_iff hr).mpr he⟩
        ⟨(Store.waiting_iff hr).mpr hw, hi⟩)
    exact ⟨hb, .inl hp, by simp [hc, he]⟩
  rw [if_neg hc] at hwait ⊢
  by_cases hd : isWaitingDependent j r = true ∧ r.pendingDependencyCount ≤ 1
  · have hdep := (Bool.and_eq_true_iff.mp hd.1).2
    rw [if_pos hd]
    refine ⟨hb, .inr ⟨?_, ?_⟩, rfl⟩
    · rw [hlisted hdep]
    · rw [hlisted hdep]
      exact hd.2
  · rw [if_neg hd] at hwait
    exact absurd (Job.isWaiting_iff.mp hw) hwait

/-- A successful completion activates no row. -/
theorem CompletesSuccessfully.deactivates (h : CompletesSuccessfully s j s') :
    s.Deactivates s' := by
  obtain ⟨now, f, hk, s₁, hf, _, hw, rfl⟩ := h.write
  exact (Store.deactivates_write hw fun r ↦ by rw [hf]; rfl).trans
    (deactivates_cascadeSuccessToDependents now s₁ j)

/-- A successful completion keeps the wiring of the store. -/
theorem CompletesSuccessfully.sameWiring (h : CompletesSuccessfully s j s') :
    s.SameWiring s' := by
  obtain ⟨now, f, hk, s₁, _, hwire, hw, rfl⟩ := h.write
  exact (Store.sameColumn_write hw hwire).trans (sameWiring_cascadeSuccessToDependents _ _ _)

/-- The completed job itself is done. -/
theorem CompletesSuccessfully.stateOf_self (h : CompletesSuccessfully s j s')
    (hr : s.get? j = some r) : s'.stateOf j = some .done := by
  obtain ⟨now, f, hk, s₁, hf, hwire, hw, rfl⟩ := h.write
  have hr₁ : s₁.get? j = some (f r) := by rw [Store.get?_write hw, if_pos rfl, hr]; rfl
  have hn : (f r).isWaiting = false := by simp [Job.isWaiting, hf]
  rw [Store.stateOf, get?_cascadeSuccessToDependents_self _ hr₁ hn, Option.map_some, hf]

/-- Among the waiting jobs, exactly the ones in `SuccessCancels` end up cancelled. -/
theorem CompletesSuccessfully.cancelled_iff (h : CompletesSuccessfully s j s')
    (hr : WasWaiting s j i r) :
    s'.stateOf i = some .cancelled ↔ s.SuccessCancels j i := by
  obtain ⟨hr, hw, hi⟩ := hr
  by_cases hb : s.CancelledBelow j i
  · simp [(h.stateOf hi hr).1 hb, Store.SuccessCancels, hb]
  have hbarrier : s.CancelledBarrier j i ↔ r.runOnFailure = true ∧ r.dependsOn j = true ∧
      r.pendingDependencyCount ≤ 1 := by
    simp [Store.CancelledBarrier, hi, hr, hw]
  rw [(h.stateOf hi hr).2 hb, Store.SuccessCancels, hbarrier, successState]
  simp only [hb, false_or, isWaitingDependent, hw, Bool.true_and, Option.some.injEq]
  by_cases hc : Store.isWaitingChild j r = true
  · -- An on_error child of `j` would be below it, so this child is an on_done one.
    have he : r.runOnFailure = false := by
      rw [Bool.eq_false_iff]
      exact fun he ↦ hb (.seed ⟨(Store.childOf_iff hr).mpr (Store.isWaitingChild_iff.mp hc).1,
        (Store.onError_iff hr).mpr he⟩ ⟨(Store.waiting_iff hr).mpr hw, hi⟩)
    simp [hc, he]
  · rw [if_neg hc, Job.isWaiting_iff.mp hw]
    by_cases hd : r.dependsOn j = true ∧ r.pendingDependencyCount ≤ 1
    · rw [if_pos hd]
      cases he : r.runOnFailure <;> simp [hd]
    · rw [if_neg hd]
      simp only [reduceCtorEq, false_iff]
      exact fun hall ↦ hd hall.2

/-- The jobs cancelled by a completion, in terms of the store before. -/
theorem CompletesSuccessfully.cancelledBy_iff (h : CompletesSuccessfully s j s') :
    CancelledBy s s' j k ↔ s.SuccessCancels j k := by
  constructor
  · rintro ⟨hkj, ⟨r, hr, hw⟩, hs⟩
    exact (h.cancelled_iff ⟨hr, hw, hkj⟩).mp hs
  · intro hc
    have hw : s.Waiting k ∧ k ≠ j := by
      rcases hc with hb | ⟨hkj, r, hr, hw, _⟩
      · exact hb.entered
      · exact ⟨⟨r, hr, hw⟩, hkj⟩
    obtain ⟨⟨r, hr, hwr⟩, hkj⟩ := hw
    exact ⟨hkj, ⟨r, hr, hwr⟩, (h.cancelled_iff ⟨hr, hwr, hkj⟩).mpr hc⟩

/-- A row that waits after a completion waited before it, outside the cancelled chains. -/
theorem CompletesSuccessfully.waiting_before (h : CompletesSuccessfully s j s') (hi : i ≠ j)
    (hr : s.get? i = some r) (hs : s'.stateOf i = some .waiting) :
    r.isWaiting = true ∧ ¬ s.CancelledBelow j i := by
  by_cases hb : s.CancelledBelow j i
  · rw [(h.stateOf hi hr).1 hb] at hs
    cases hs
  · rw [(h.stateOf hi hr).2 hb, Option.some.injEq, successState] at hs
    refine ⟨?_, hb⟩
    split at hs
    · cases hs
    split at hs
    · split at hs <;> cases hs
    · exact Job.isWaiting_iff.mpr hs

private theorem waitsOn_of_cancels (hr : s.get? i = some r) (h : s.SuccessCancels j i) :
    r.WaitsOn j ∨ ∃ k, s.SuccessCancels j k ∧ r.WaitsOn k := by
  rcases h with hb | ⟨_, r', hr', _, _, hd, _⟩
  · cases hb with
    | seed hs _ => exact .inl (.inl ((Store.childOf_iff hr).mp hs.1))
    | @step a _ ha _ he _ => exact .inr ⟨a, .inl ha, .inl ((Store.childOf_iff hr).mp he)⟩
  · rw [hr] at hr'
    cases hr'
    exact .inl (.inr hd)

end Closure

/-- The success cascade is closed exactly when every waiting job behind a job that it
cancels is itself cancelled by it. -/
theorem successClosed_iff {s s' : Store} {j : JobId} (h : CompletesSuccessfully s j s') :
    SuccessClosed s s' j ↔ s.SuccessClosedBelow j := by
  constructor
  · intro hc i r hr hw hi k hk hwait
    exact (h.cancelled_iff ⟨hr, hw, hi⟩).mp
      (hc.propagates i r k ⟨hr, hw, hi⟩ (h.cancelledBy_iff.mpr hk) hwait)
  · intro hc
    have hprop (i : JobId) (r : Job) (k : JobId) (hr : WasWaiting s j i r)
        (hk : CancelledBy s s' j k) (hwait : r.WaitsOn k) : s'.stateOf i = some .cancelled :=
      (h.cancelled_iff hr).mpr
        (hc i r hr.1 hr.2.1 hr.2.2 k (h.cancelledBy_iff.mp hk) hwait)
    have hnotBelow {i : JobId} {r : Job} (hr : WasWaiting s j i r)
        (hp : r.parentId = some j) (hd : r.runOnFailure = false) : ¬ s.CancelledBelow j i := by
      intro hb
      cases hb with
      | seed hs _ =>
        rw [(Store.onError_iff hr.1).mp hs.2] at hd
        cases hd
      | step ha _ he _ =>
        have hpa := (Store.childOf_iff hr.1).mp he
        rw [hp, Option.some.injEq] at hpa
        exact ha.entered.2 hpa.symm
    refine ⟨?_, ?_, ?_, hprop, ?_, ?_⟩
    · intro i r' k hr' hw' hk hwait
      have hstate : s'.stateOf i = some .waiting := by
        rw [Store.stateOf, hr', Option.map_some, Job.isWaiting_iff.mp hw']
      cases hr : s.get? i with
      | none => rw [h.sameWiring.none hr] at hr'; cases hr'
      | some r =>
        have hij : i ≠ j := by
          rintro rfl
          rw [h.stateOf_self hr] at hstate
          cases hstate
        obtain ⟨hw, hb⟩ := h.waiting_before hij hr hstate
        obtain ⟨q, hq, hwire⟩ := h.sameWiring.row hr
        rw [hr'] at hq
        cases hq
        rw [Job.waitsOn_of_wiring hwire] at hwait
        rw [hprop i r k ⟨hr, hw, hij⟩ hk hwait] at hstate
        cases hstate
    · intro i r hr hp he
      refine (h.cancelled_iff hr).mpr (.inl (.seed ⟨?_, ?_⟩ ⟨?_, hr.2.2⟩))
      · exact (Store.childOf_iff hr.1).mpr hp
      · exact (Store.onError_iff hr.1).mpr he
      · exact (Store.waiting_iff hr.1).mpr hr.2.1
    · intro i r hr hd hcount he
      exact (h.cancelled_iff hr).mpr (.inr ⟨hr.2.2, r, hr.1, hr.2.1, he, hd, hcount⟩)
    · intro i r hr hp hd _
      rw [(h.stateOf hr.2.2 hr.1).2 (hnotBelow hr hp hd), successState,
        if_pos (Store.isWaitingChild_iff.mpr ⟨hp, hr.2.1⟩)]
    · intro i hi hno
      cases hr : s.get? i with
      | none => rw [Store.stateOf, Store.stateOf, h.sameWiring.none hr, hr]
      | some r =>
        by_cases hw : r.isWaiting = true
        · obtain ⟨hnj, hnk⟩ := hno r ⟨hr, hw, hi⟩
          have hn : ¬ s.SuccessCancels j i := by
            intro hc
            rcases waitsOn_of_cancels hr hc with hwj | ⟨k, hk, hwk⟩
            · exact hnj hwj
            · exact hnk k (h.cancelledBy_iff.mpr hk) hwk
          rw [Job.WaitsOn, not_or] at hnj
          rw [(h.stateOf hi hr).2 fun hb ↦ hn (.inl hb), Store.stateOf, hr, successState]
          simp [Store.isWaitingChild, isWaitingDependent, hnj]
        · have hb : ¬ s.CancelledBelow j i := fun hb ↦
            hw ((Store.waiting_iff hr).mp hb.entered.1)
          rw [(h.stateOf hi hr).2 hb, Store.stateOf, hr, successState]
          simp [Store.isWaitingChild, isWaitingDependent, hw]

/-- A running job, an on_error barrier on it, and a chain link behind the barrier. -/
def linkBehindHandler : Store := .ofRows [
  { payload := .ping, state := .started },
  { payload := .ping, state := .waiting, dependencyJobIds := some [1],
    pendingDependencyCount := 1, runOnFailure := true },
  { payload := .ping, state := .waiting, parentId := some 2 }]

/-- The equivalence at the on_error barrier with a chain link behind it. -/
theorem successClosed_iff_linkBehindHandler :
    ∃ s', finalizeJob 0 none linkBehindHandler 1 = .ok s' ∧
      (SuccessClosed linkBehindHandler s' 1 ↔ linkBehindHandler.SuccessClosedBelow 1) := by
  cases h : finalizeJob 0 none linkBehindHandler 1 with
  | error e =>
    have hok : (finalizeJob 0 none linkBehindHandler 1).toOption.isSome = true := by
      decide +kernel
    rw [h] at hok
    cases hok
  | ok s' => exact ⟨s', rfl, successClosed_iff (.finalizeJob h)⟩

/-- The on_error barrier is cancelled and the chain link behind it is left waiting. -/
theorem not_successClosed_linkBehindHandler :
    ¬ ∀ (s s' : Store) (j : JobId), CompletesSuccessfully s j s' → SuccessClosed s s' j := by
  intro hclaim
  have hlink : (finalizeJob 0 none linkBehindHandler 1).toOption.bind (·.get? 3) =
      some { payload := .ping, state := .waiting, parentId := some 2 } := by decide +kernel
  have hbarrier : (finalizeJob 0 none linkBehindHandler 1).toOption.bind (·.stateOf 2) =
      some .cancelled := by decide +kernel
  cases h : finalizeJob 0 none linkBehindHandler 1 with
  | error e => rw [h] at hlink; cases hlink
  | ok s' =>
    rw [h] at hlink hbarrier
    have hcancelled : CancelledBy linkBehindHandler s' 1 2 :=
      ⟨by decide, ⟨_, rfl, rfl⟩, hbarrier⟩
    exact (hclaim _ _ _ (.finalizeJob h)).noneWaits 3 _ 2 hlink rfl hcancelled (.inl rfl)

end JobWorker
