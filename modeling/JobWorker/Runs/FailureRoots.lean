import JobWorker.Base.Tokens
import JobWorker.Cascades.Blame
import JobWorker.RowEffects
import JobWorker.Runs.WorkerRuns

/-!
# Every failure has a root

A job fails by its own last attempt, by a call on it, by a reclaim that finds it out of retries,
or along with a parent or dependency. In the last case its diagnosis leads back to a job that has
failed in one of the other ways, in the same transaction.
-/

namespace JobWorker

open Relation Transition

/-- A row that fails has failed before, and one that waits has waited. -/
def NotFailing (r r' : Job) : Prop :=
  (r'.state = .failed → r.state = .failed) ∧ (r'.isWaiting = true → r.isWaiting = true)

instance : IsPreorder Job NotFailing where
  refl _ := ⟨id, id⟩
  trans _ _ _ h h' := ⟨h.1 ∘ h'.1, h.2 ∘ h'.2⟩

section NotFailing

variable {now : Time} {s s' : Store} {self : List JobId} {r : Job}

/-- A row that neither fails nor waits. -/
theorem notFailing_of_state {r' : Job} (hs : r'.state ≠ .failed) (hw : r'.isWaiting = false) :
    NotFailing r r' :=
  ⟨fun h ↦ absurd h hs, fun h ↦ by rw [hw] at h; cases h⟩

/-- A row whose state stays. -/
theorem notFailing_of_same {r' : Job} (hs : r'.state = r.state) : NotFailing r r' :=
  ⟨fun h ↦ hs.symm.trans h, fun h ↦ by rwa [Job.isWaiting, hs] at h⟩

/-- A job that has not failed behind a transaction without failures. -/
theorem not_failed_of_notFailing {i : JobId} (h : s.Rowwise (fun _ ↦ NotFailing) s')
    (hs : s.stateOf i ≠ some .failed) : s'.stateOf i ≠ some .failed := by
  intro hs'
  obtain ⟨r', hr', hf⟩ := Store.stateOf_eq_some.mp hs'
  obtain ⟨r, hr, hnot⟩ := h.row_before hr'
  exact hs (Store.stateOf_eq_some.mpr ⟨r, hr, hnot.1 hf⟩)

/-- `_release_dependents` fails nothing. -/
theorem notFailing_releaseRow (hw : r.isWaiting = true) : NotFailing r (releaseRow now r) := by
  refine ⟨fun h ↦ ?_, fun _ ↦ hw⟩
  simp only [releaseRow] at h
  split at h
  · cases h
  · split at h
    · cases h
    · exact h

/-- The success cascades fail nothing. -/
theorem notFailing_cascadeSuccessToDependents (s : Store) (job : JobId) :
    s.Rowwise (fun _ ↦ NotFailing) (cascadeSuccessToDependents now s job) := by
  refine rowwise_cascadeSuccessToDependents (fun q r hw ↦ ?_) (fun q r hw ↦ ?_)
    (fun _ ↦ notFailing_releaseRow) s job
  · simp only [successRule]
    split <;> exact notFailing_of_state (by simp) rfl
  · exact notFailing_of_state (by simp [cancelRule]) rfl

/-- A cancellation fails nothing. -/
theorem allowsCancellation_notFailing (now : Time) : AllowsCancellation now NotFailing where
  statement _ _ := notFailing_of_state (fun h ↦ by cases h) rfl
  queued _ _ _ _ := notFailing_of_state (fun h ↦ by cases h) rfl
  waiting _ _ h hw := h.2 hw

/-- `button_requeue` fails nothing. -/
theorem notFailing_buttonRequeue (h : buttonRequeue now s self = .ok s') :
    s.Rowwise (fun _ ↦ NotFailing) s' := by
  induction self generalizing s with
  | nil => cases h; exact .same _
  | cons j self ih =>
    rw [buttonRequeue] at h
    split at h
    · exact ih h
    · obtain ⟨s₁, h₁, h⟩ := bind_eq_ok.mp h
      refine Store.Rowwise.then ?_ (ih h)
      exact Store.rowwise_write h₁ (fun _ _ ↦ ⟨id, id⟩)
        fun r _ ↦ notFailing_of_state (by simp [requeueRow]) rfl

end NotFailing

namespace World

/-- Job `j` fails by the event itself. -/
def FailsItself (w : World) (j : JobId) : Event → Prop
  | .handleException a _ _ => j = a.job
  | .runNow job _ => j = job
  | .buttonSetToFailed self => j ∈ self
  | .acquireJobLock cfg limits locked =>
    ∃ r, ReclaimExhausts cfg limits locked w.now w.store j r
  | _ => False

section Step

variable {w w' : World} {e : Event} {s' : Store} {i : JobId}

/-- A job that an event fails is one that it fails by itself, or its diagnosis leads to one. -/
theorem exists_failsItself (h : w.Commits e s') (hs : w.store.stateOf i ≠ some .failed)
    (hs' : s'.stateOf i = some .failed) :
    ∃ j, w.FailsItself j e ∧ s'.stateOf j = some .failed ∧
      ReflTransGen (Blames w.store s') i j := by
  have hnone (hrows : w.store.Rowwise (fun _ ↦ NotFailing) s') :
      ∃ j, w.FailsItself j e ∧ s'.stateOf j = some .failed ∧
        ReflTransGen (Blames w.store s') i j :=
    absurd hs' (not_failed_of_notFailing hrows hs)
  have hcascade {js : List JobId} (hf : FailsPermanently w.store js s') (hexist : w.Exist js)
      (hjs : ∀ j ∈ js, w.FailsItself j e) :
      ∃ j, w.FailsItself j e ∧ s'.stateOf j = some .failed ∧
        ReflTransGen (Blames w.store s') i j := by
    by_cases hi : i ∈ js
    · exact ⟨i, hjs i hi, hs', .refl⟩
    · obtain ⟨j, hj, htrail⟩ := hf.blames_trail hi hs hs'
      obtain ⟨r, hr⟩ := hexist j hj
      exact ⟨j, hjs j hj, hf.stateOf_self hj hr, htrail.to_reflTransGen⟩
  have hstatement {p : JobId → Job → Bool} {f : JobId → Job → Job} {hk : w.store.Keeps p f}
      (hf : ∀ i r, (f i r).state = r.state) :
      w.store.Rowwise (fun _ ↦ NotFailing) (w.store.update p f hk) :=
    Store.rowwise_statement hk fun i r _ ↦ notFailing_of_same (hf i r)
  cases h with
  | tick | die => exact absurd hs' hs
  | enqueue h =>
    rcases enqueue_cases h with ⟨rfl, _⟩ | ⟨eta, _, _, hcreate⟩
    · exact absurd hs' hs
    · obtain ⟨r', hr', hf⟩ := Store.stateOf_eq_some.mp hs'
      rcases Store.get?_create_cases hcreate hr' with ⟨_, rfl⟩ | hr
      · rcases state_enqueueVals _ w.now _ eta with h | h <;> cases h.symm.trans hf
      · exact absurd (Store.stateOf_eq_some.mpr ⟨r', hr, hf⟩) hs
  | @acquireJobLock cfg limits locked =>
    cases hf : (cfg.candidates limits w.now w.store).find? fun i ↦ !locked i with
    | none =>
      unfold JobWorker.acquireJobLock at hs'
      rw [hf] at hs'
      exact absurd hs' hs
    | some j =>
      obtain ⟨r, hr, _⟩ := Relational.Table.mem_selectBy.mp (List.mem_of_find?_eq_some hf)
      by_cases hre : r.state = .started ∧ exhausted r = true
      · have hre : ReclaimExhausts cfg limits locked w.now w.store j r := ⟨hf, hr, hre.1, hre.2⟩
        refine ⟨j, ⟨r, hre⟩, ?_⟩
        rw [hre.acquire] at hs' ⊢
        refine ⟨hre.stateOf_self, ?_⟩
        by_cases hi : i = j
        · rw [hi]
        · exact .single (hre.blames hi hs hs')
      · have hsome : (JobWorker.acquireJobLock cfg limits locked w.now w.store).2 = some j := by
          rw [acquireJobLock_of_find hf hr]
          unfold acquireRow
          by_cases hst : r.state = .started
          · rw [if_neg (not_not.mpr hst), if_neg fun he ↦ hre ⟨hst, he⟩]
          · rw [if_pos hst]
        obtain ⟨_, _, _, _, _, hrow⟩ := acquireJobLock_eq_some hsome
        obtain ⟨r', hr', hfailed⟩ := Store.stateOf_eq_some.mp hs'
        rw [hrow] at hr'
        split at hr'
        · cases hr'
          unfold WorkerConfig.acquiredRow at hfailed
          split at hfailed <;> cases hfailed
        · exact absurd (Store.stateOf_eq_some.mpr ⟨r', hr', hfailed⟩) hs
  | heartbeatJob | updateHeartbeats | handleTimeout | clearWorkerOwnership =>
    exact hnone (hstatement fun _ _ ↦ rfl)
  | finalizeJob _ h =>
    obtain ⟨s₁, hw, h⟩ := bind_eq_ok.mp h
    cases h
    refine hnone (Store.Rowwise.then ?_ (notFailing_cascadeSuccessToDependents s₁ _))
    exact Store.rowwise_write hw (fun _ _ ↦ ⟨id, id⟩)
      fun r _ ↦ notFailing_of_state (by simp [finalizedRow]) rfl
  | @handleException a exc traceback _ _ h =>
    cases hr : w.store.get? a.job with
    | none =>
      rw [handleException_of_absent hr] at h
      cases h
      exact absurd hs' hs
    | some r =>
      cases hd : dispositionOf a.cfg w.now exc r with
      | fail counted =>
        exact hcascade (.handleException hr hd h)
          (fun j hj ↦ List.mem_singleton.mp hj ▸ ⟨r, hr⟩) fun j hj ↦ List.mem_singleton.mp hj
      | retry delaySeconds counted =>
        obtain ⟨s₁, hw, rfl⟩ := handleException_eq h hr
        rw [hd] at hw
        refine hnone ?_
        rw [hd]
        exact (Store.rowwise_write hw (fun _ _ ↦ ⟨id, id⟩)
          fun r _ ↦ notFailing_of_state (by simp [handledRow]) rfl)
  | @runNow job run _ raised hexist h =>
    cases raised with
    | true => exact hcascade (.runNow h) hexist fun j hj ↦ List.mem_singleton.mp hj
    | false =>
      cases runEffect h with
      | returned _ hw =>
        refine hnone (Store.Rowwise.then ?_ (notFailing_cascadeSuccessToDependents _ job))
        exact Store.rowwise_write hw (fun _ _ ↦ ⟨id, id⟩)
          fun r _ ↦ notFailing_of_state (by simp [ranRow]) rfl
      | postponed _ _ hw =>
        exact hnone (Store.rowwise_write hw (fun _ _ ↦ ⟨id, id⟩)
          fun r _ ↦ notFailing_of_state (by simp [postponedRow]) rfl)
  | buttonSetToDone _ h =>
    obtain ⟨s₁, h₁, h₂⟩ := bind_eq_ok.mp h
    cases h₂
    refine hnone (Store.Rowwise.then ?_
      (rowwise_releaseDependents (fun _ ↦ notFailing_releaseRow) s₁ _))
    exact Store.rowwise_writeEach h₁ fun r ↦ notFailing_of_state (by simp [completedRow]) rfl
  | buttonSetToFailed hexist h => exact hcascade (.buttonSetToFailed h) hexist fun j hj ↦ hj
  | buttonRequeue _ h => exact hnone (notFailing_buttonRequeue h)
  | buttonCancelled _ h =>
    obtain ⟨s₁, h₁, hc⟩ := (allowsCancellation_notFailing w.now).buttonCancelled h
    refine hnone (Store.Rowwise.then ?_ hc)
    exact Store.rowwise_writeEach h₁ fun r ↦ notFailing_of_state (by simp [cancelledRow]) rfl

end Step

/-- **Every failure has a root**: when a job is failed in a run of the system, there was a
transaction since which it is, and that transaction failed it by itself, or it failed some job by
itself to which the diagnoses that it wrote lead, over parents and dependencies that were waited
for. -/
theorem exists_root {past : List (World × Event)} {w : World} {i : JobId}
    (h : Transition.Run (fun w ↦ ∃ now, w = World.init now) World.Step past w)
    (hs : w.store.stateOf i = some .failed) :
    ∃ later u e earlier s', past = later ++ (u, e) :: earlier ∧ u.Commits e s' ∧
      (∀ p ∈ later, p.1.store.stateOf i = some .failed) ∧
        ∃ j, u.FailsItself j e ∧ s'.stateOf j = some .failed ∧
          ReflTransGen (Blames u.store s') i j := by
  obtain ⟨later, u, e, earlier, _, heq, hu, ⟨s', hc, rfl⟩, hs', hlater⟩ :=
    h.exists_turn (P := fun w ↦ w.store.stateOf i = some .failed)
      (fun _ ⟨now, hnow⟩ hd ↦ by subst hnow; cases hd) hs
  exact ⟨later, u, e, earlier, s', heq, hc, hlater, exists_failsItself hc hu hs'⟩

/-- The first job of a chain of three fails at its second attempt. -/
def failsChain : List Event := [
  .enqueue {} { modelName := "res.partner", methodName := "ping", maxRetries := some 1 },
  .enqueue {} { modelName := "res.partner", methodName := "ping", parentId := some 1 },
  .enqueue {} { modelName := "res.partner", methodName := "ping", parentId := some 2 },
  .acquireJobLock { workerUuid := 0 } (fun _ ↦ none) fun _ ↦ false,
  .handleException ⟨3, { workerUuid := 0 }, 1⟩ .exception "", .tick 20000000,
  .acquireJobLock { workerUuid := 0 } (fun _ ↦ none) fun _ ↦ false,
  .handleException ⟨6, { workerUuid := 0 }, 1⟩ .exception "", .tick 1]

/-- The last job of the chain has a root. -/
theorem exists_root_failsChain : ∃ past w,
    Transition.Run (fun w ↦ ∃ now, w = World.init now) World.Step past w ∧
      w.store.stateOf 3 = some .failed ∧
        ∃ later u e earlier s', past = later ++ (u, e) :: earlier ∧ u.Commits e s' ∧
          ∃ j, u.FailsItself j e ∧ s'.stateOf j = some .failed ∧
            ReflTransGen (Blames u.store s') 3 j := by
  have hrun : (replay World.next (init 0) failsChain).map (fun r ↦ r.2.store.stateOf 3) =
      some (some .failed) := by decide +kernel
  obtain ⟨⟨past, w⟩, hs, hw⟩ := Option.map_eq_some_iff.mp hrun
  have hrun : Transition.Run (fun w ↦ ∃ now, w = World.init now) World.Step past w :=
    .of_replay step_of_next ⟨0, rfl⟩ hs
  obtain ⟨later, u, e, earlier, s', heq, hc, _, hroot⟩ := exists_root hrun hw
  exact ⟨past, w, hrun, hw, later, u, e, earlier, s', heq, hc, hroot⟩

end World
end JobWorker
