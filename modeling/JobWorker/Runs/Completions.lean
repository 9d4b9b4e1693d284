import JobWorker.Base.Tokens
import JobWorker.Runs.WorkerRuns

/-!
# A job completes once

Several attempts of a job may have begun when one of them reaches `finalize_job`
(`job_worker/cli/worker.py:1103–1130`). `acquire_job_lock` returns no finished job
(`cli/worker.py:597–762`), so a completion is the last one until somebody calls a public method
on the job.
-/

namespace JobWorker

open Transition

namespace World

/-- An outcome is recorded by an attempt that holds its row. -/
def RecordsWhileHeld (w : World) : Event → Prop
  | .finalizeJob a _ | .handleException a _ _ => Holds w.store a
  | _ => True

instance (w : World) : ∀ e, Decidable (w.RecordsWhileHeld e)
  | .finalizeJob a _ | .handleException a _ _ => inferInstanceAs (Decidable (Holds w.store a))
  | .runNow _ _ | .buttonSetToDone _ | .buttonSetToFailed _ | .buttonRequeue _
  | .buttonCancelled _ | .tick _ | .enqueue _ _ | .acquireJobLock _ _ _ | .heartbeatJob _
  | .updateHeartbeats _ | .handleTimeout _ _ | .clearWorkerOwnership _ | .die _ => isTrue trivial

/-- A worker completes job `j`. -/
def finalizes (j : JobId) : Event → Bool
  | .finalizeJob a _ => a.job == j
  | _ => false

/-- A public method is called on job `j`. -/
def callsOn (j : JobId) (e : Event) : Bool := (calledOn e).contains j

/-- Job `j` has not finished, or is not there yet. -/
def isOpen (j : JobId) (w : World) : Bool := (w.store.get? j).all fun r ↦ r.state.isActive

section Step

variable {w w' : World} {e : Event} {s' : Store} {j : JobId} {r r' : Job}

/-- A finished job is not open. -/
theorem isOpen_eq_false_iff : isOpen j w = false ↔
    ∃ r, w.store.get? j = some r ∧ r.state.isTerminal = true := by
  unfold isOpen JobState.isTerminal
  cases w.store.get? j <;> simp

/-- Nobody else reopens a finished job. -/
theorem state_of_terminal_of_not_called (hg : w.RecordsWhileHeld e) (hn : callsOn j e = false)
    (h : w.Commits e s') (hr : w.store.get? j = some r) (ht : r.state.isTerminal = true) :
    ∃ r', s'.get? j = some r' ∧ r'.state = r.state := by
  obtain ⟨r', hr', heffect⟩ := h.row hr
  refine ⟨r', hr', ?_⟩
  have hstarted (hs : r.state = .started) : False := by
    rw [hs] at ht
    cases ht
  cases heffect with
  | cascaded hc =>
    rw [hc.eq]
    rw [Job.isWaiting, beq_eq_false_iff_ne]
    intro hs
    rw [hs] at ht
    cases ht
  | acquired _ ha =>
    have hact := WorkerConfig.isActive_of_acquirable ha
    rw [JobState.isTerminal, hact] at ht
    cases ht
  | workerDied _ hs => exact (hstarted hs).elim
  | finalizeJob | handleException => exact (hstarted (started_of_holds hg hr)).elim
  | called hi =>
    rw [callsOn, List.contains_iff_mem.mpr hi] at hn
    cases hn
  | heartbeatJob | updateHeartbeats | handleTimeout | clearWorkerOwnership => rfl

/-- A completion takes a started job. -/
theorem isOpen_of_finalizes (hg : w.RecordsWhileHeld e) (hs : w.Step e w')
    (hf : finalizes j e = true) : isOpen j w = true ∧ w'.store.stateOf j = some .done := by
  obtain ⟨s', hc, rfl⟩ := hs
  cases hc with
  | @finalizeJob a _ _ _ h =>
    obtain rfl : a.job = j := beq_iff_eq.mp hf
    obtain ⟨r, hr, _⟩ := id hg
    have hstarted := started_of_holds hg hr
    refine ⟨?_, (CompletesSuccessfully.finalizeJob h).stateOf_self hr⟩
    rw [isOpen, hr, Option.all_some, hstarted]
    rfl
  | _ => cases hf

/-- A job opens by a call. -/
theorem callsOn_of_isOpen (hg : w.RecordsWhileHeld e) (hs : w.Step e w')
    (hopen : isOpen j w = false) (hopen' : isOpen j w' = true) : callsOn j e = true := by
  obtain ⟨s', hc, rfl⟩ := hs
  obtain ⟨r, hr, ht⟩ := isOpen_eq_false_iff.mp hopen
  by_contra hn
  rw [Bool.not_eq_true] at hn
  obtain ⟨r', hr', hstate⟩ := state_of_terminal_of_not_called hg hn hc hr ht
  have hclosed : isOpen j (w.after e s') = false :=
    isOpen_eq_false_iff.mpr ⟨r', hr', hstate ▸ ht⟩
  rw [hopen'] at hclosed
  cases hclosed

/-- A job that nobody calls a method on becomes `done` by a completion. -/
theorem finalizes_of_done (hn : callsOn j e = false) (h : w.Commits e s')
    (hs : w.store.stateOf j ≠ some .done) (hs' : s'.stateOf j = some .done) :
    finalizes j e = true := by
  obtain ⟨r', hr', hd⟩ := Store.stateOf_eq_some.mp hs'
  rcases h.row_before hr' with ⟨r, hr, heffect⟩ | ⟨_, env, args, eta, _, rfl⟩
  · rw [Store.stateOf_of_get? hr] at hs
    cases heffect with
    | cascaded hc =>
      cases hc with
      | kept => exact absurd (congrArg some hd) hs
      | written _ _ _ _ _ hdone => exact absurd hd hdone
    | acquired =>
      unfold WorkerConfig.acquiredRow at hd
      split at hd <;> cases hd
    | workerDied => cases hd
    | finalizeJob => exact beq_self_eq_true _
    | @handleException a exc =>
      revert hd
      cases dispositionOf a.cfg w.now exc r <;> exact fun hd ↦ by cases hd
    | called hi =>
      rw [callsOn, List.contains_iff_mem.mpr hi] at hn
      cases hn
    | heartbeatJob | updateHeartbeats | handleTimeout | clearWorkerOwnership =>
      exact absurd (congrArg some hd) hs
  · rcases state_enqueueVals env w.now args eta with h | h <;> cases h.symm.trans hd

end Step

section Completions

variable {past : List (World × Event)} {w : World} (j : JobId)

/-- Completions of job `j` by workers. -/
def completions (past : List (World × Event)) : Nat := past.countP fun p ↦ finalizes j p.2

/-- Calls on job `j`. -/
def calls (past : List (World × Event)) : Nat := past.countP fun p ↦ callsOn j p.2

variable {j}

/-- **A job completes once**: while outcomes are recorded by attempts that hold their row, the
workers complete a job at most once more than public methods have been called on it, and if
none has been, then the job is `done` exactly when one attempt has completed it. -/
theorem completions_le_calls
    (h : Transition.Run (fun w ↦ ∃ now, w = World.init now) World.Step past w)
    (hg : Guarded World.RecordsWhileHeld past) :
    completions j past ≤ calls j past + 1 ∧
      (calls j past = 0 → (w.store.stateOf j = some .done ↔ completions j past = 1)) := by
  have hle : completions j past + (isOpen j w).toNat ≤ calls j past + 1 := by
    apply h.takes_add_le
    · intro p hp s' hs hf
      obtain ⟨hopen, hdone⟩ := isOpen_of_finalizes (hg p hp) hs hf
      obtain ⟨r, hr, hd⟩ := Store.stateOf_eq_some.mp hdone
      exact ⟨hopen, isOpen_eq_false_iff.mpr ⟨r, hr, by rw [hd]; rfl⟩⟩
    · exact fun p hp s' hs ↦ callsOn_of_isOpen (hg p hp) hs
  refine ⟨by omega, fun hcalls ↦ ?_⟩
  have hnone : ∀ p ∈ past, callsOn j p.2 = false := by
    simpa [calls, List.countP_eq_zero] using hcalls
  have hdone : w.store.stateOf j = some .done ↔ 0 < completions j past := by
    refine h.latched_iff (P := fun w ↦ w.store.stateOf j = some .done) ?_ ?_ ?_
    · rintro _ ⟨now, rfl⟩ hd
      cases hd
    · rintro p hp w' ⟨s', hc, rfl⟩ hd
      obtain ⟨r, hr, hd⟩ := Store.stateOf_eq_some.mp hd
      obtain ⟨r', hr', hstate⟩ :=
        state_of_terminal_of_not_called (hg p hp) (hnone p hp) hc hr (by rw [hd]; rfl)
      exact Store.stateOf_eq_some.mpr ⟨r', hr', hstate.trans hd⟩
    · intro p hp w' hs hopen
      constructor
      · obtain ⟨s', hc, rfl⟩ := hs
        exact finalizes_of_done (hnone p hp) hc hopen
      · exact fun hf ↦ (isOpen_of_finalizes (hg p hp) hs hf).2
  rw [hdone]
  omega

/-- A job runs, is requeued, and runs again. -/
def runsTwice : List Event := [
  .enqueue {} { modelName := "res.partner", methodName := "ping" },
  .acquireJobLock { workerUuid := 0 } (fun _ ↦ none) fun _ ↦ false,
  .finalizeJob ⟨1, { workerUuid := 0 }, 1⟩ none, .buttonRequeue [1],
  .acquireJobLock { workerUuid := 0 } (fun _ ↦ none) fun _ ↦ false,
  .finalizeJob ⟨4, { workerUuid := 0 }, 1⟩ none]

/-- Two completions with a call between. -/
theorem completions_le_calls_requeued : ∃ past w,
    Transition.Run (fun w ↦ ∃ now, w = World.init now) World.Step past w ∧
      completions 1 past = 2 ∧ completions 1 past ≤ calls 1 past + 1 := by
  have hrun : (replay World.next (init 0) runsTwice).map (fun r ↦
      (completions 1 r.1, r.1.all fun p ↦ decide (p.1.RecordsWhileHeld p.2))) =
      some (2, true) := by decide +kernel
  obtain ⟨⟨past, w⟩, hs, hw⟩ := Option.map_eq_some_iff.mp hrun
  simp only [Prod.mk.injEq, List.all_eq_true, decide_eq_true_eq] at hw
  have hrun : Transition.Run (fun w ↦ ∃ now, w = World.init now) World.Step past w :=
    .of_replay step_of_next ⟨0, rfl⟩ hs
  exact ⟨past, w, hrun, hw.1, (completions_le_calls hrun hw.2).1⟩

end Completions

end World
end JobWorker
