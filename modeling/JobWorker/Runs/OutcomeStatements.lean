import JobWorker.Cascades.Cancellation
import JobWorker.Cascades.Success
import JobWorker.Cascades.WorkerDied

/-!
# An outcome, statement by statement

The transactions that record the outcome of a job and cascade it. `finalize_job` and an
exhausted reclaim run under READ COMMITTED, where every statement sees the rows committed
before it (`job_worker/cli/worker.py:597–746,1103–1130`). `handle_exception` and
`button_cancelled` run on a default cursor, where one snapshot serves all statements, so
they are one step (`cli/worker.py:1176–1313`, `models/queue_job.py:805–843`). The rest of a
transaction, from any of its points on, settles and finishes the rows that it sees
according to `Work.Settles` and `Work.Ends`.
-/

namespace JobWorker

open Reachability Fuel Relation

/-- The outcomes of a job with the transactions that record them. -/
inductive Outcome
  | done (serialized : Option String)
  | failed (cfg : WorkerConfig) (exc : JobException) (traceback : String)
  | workerDied (cfg : WorkerConfig) (limits : QueueLimits) (locked : JobId → Bool)
  | cancelled (selected : List JobId)

/-- What such a transaction has still to do. -/
inductive Work
  | start (o : Outcome)
  | children
  | walk (queue : List JobId)
  | diedChildren
  | diedDependents
  | commit

/-- One statement of the transaction about job `d`, on the rows that it sees. -/
inductive Statement (now : Time) (d : JobId) : Work × Store → Work × Store → Prop
  | finalized {serialized : Option String} {s s' : Store} :
      s.write d (finalizedRow now serialized) (fun _ ↦ rfl) = .ok s' →
      Statement now d (.start (.done serialized), s) (.children, s')
  | children {s : Store} : Statement now d (.children, s)
      (.walk (s.followed (successRule now) d), s.touchChildren (successRule now) d)
  | grandchildren {job : JobId} {queue : List JobId} {s : Store} :
      Statement now d (.walk (job :: queue), s)
        (.walk (queue ++ s.followed (cancelRule now) job), s.touchChildren (cancelRule now) job)
  | releaseDependents {s : Store} :
      Statement now d (.walk [], s) (.commit, JobWorker.releaseDependents now s [d])
  | handleException {cfg : WorkerConfig} {exc : JobException} {traceback : String} {r : Job}
      {counted : Bool} {s s' : Store} : s.get? d = some r →
      dispositionOf cfg now exc r = .fail counted →
      JobWorker.handleException cfg now exc traceback s d = .ok s' →
      Statement now d (.start (.failed cfg exc traceback), s) (.commit, s')
  | workerDied {cfg : WorkerConfig} {limits : QueueLimits} {locked : JobId → Bool} {r : Job}
      {s : Store} (h : ReclaimExhausts cfg limits locked now s d r) :
      Statement now d (.start (.workerDied cfg limits locked), s) (.diedChildren, h.failed)
  | diedChildren {s : Store} :
      Statement now d (.diedChildren, s) (.diedDependents, workerDiedChildren now s d)
  | diedDependents {s : Store} :
      Statement now d (.diedDependents, s) (.commit, workerDiedDependents now s d)
  | buttonCancelled {selected : List JobId} {s s' : Store} : d ∈ selected →
      Computes (fun fuel ↦ JobWorker.buttonCancelled now fuel s selected) (.ok s') →
      Statement now d (.start (.cancelled selected), s) (.commit, s')

/-- Statements one after another. -/
abbrev Executes (now : Time) (d : JobId) : Work × Store → Work × Store → Prop :=
  ReflTransGen (Statement now d)

/-- The effect of what a transaction has still to do when nothing comes in between. -/
def Work.Rest (now : Time) (d : JobId) : Work → Store → Store → Prop
  | .start (.done serialized), s, s' => finalizeJob now serialized s d = .ok s'
  | .start (.failed cfg exc traceback), s, s' => ∃ r counted, s.get? d = some r ∧
      dispositionOf cfg now exc r = .fail counted ∧
      handleException cfg now exc traceback s d = .ok s'
  | .start (.workerDied cfg limits locked), s, s' => ∃ r,
      ReclaimExhausts cfg limits locked now s d r ∧
      s' = (acquireJobLock cfg limits locked now s).1
  | .start (.cancelled selected), s, s' => d ∈ selected ∧
      Computes (fun fuel ↦ buttonCancelled now fuel s selected) (.ok s')
  | .children, s, s' => s' = cascadeSuccessToDependents now s d
  | .walk queue, s, s' => s' = releaseDependents now (s.walk (cancelRule now) queue) [d]
  | .diedChildren, s, s' => s' = cascadeWorkerDied now s d
  | .diedDependents, s, s' => s' = workerDiedDependents now s d
  | .commit, s, s' => s' = s

section Executes

variable {now : Time} {d : JobId} {work : Work} {s s' : Store}

/-- A statement and the rest behind it. -/
theorem rest_of_statement {p q : Work × Store} (h : Statement now d p q)
    (hrest : q.1.Rest now d q.2 s') : p.1.Rest now d p.2 s' := by
  cases h with
  | finalized hw => exact bind_eq_ok.mpr ⟨_, hw, congrArg Except.ok hrest.symm⟩
  | children => exact hrest
  | grandchildren =>
    refine hrest.trans ?_
    rw [Store.walk]
  | releaseDependents =>
    refine hrest.trans ?_
    rw [Store.walk]
  | handleException hr hd h => exact ⟨_, _, hr, hd, hrest ▸ h⟩
  | workerDied h =>
    refine ⟨_, h, hrest.trans ?_⟩
    rw [h.acquire]
  | diedChildren => exact hrest
  | diedDependents => exact hrest
  | buttonCancelled hd h => exact ⟨hd, hrest ▸ h⟩

/-- A walk queue is worked off, and the dependents are released behind it. -/
theorem executes_walk (queue : List JobId) :
    Executes now d (.walk queue, s)
      (.commit, releaseDependents now (s.walk (cancelRule now) queue) [d]) := by
  induction s, queue using Store.walk.induct (cancelRule now) with
  | case1 s =>
    rw [Store.walk]
    exact .single .releaseDependents
  | case2 s job queue ih =>
    rw [Store.walk]
    exact .head .grandchildren ih

/-- Executing the statements that are left has the effect of the functions that they make
up. -/
theorem executes_iff : Executes now d (work, s) (.commit, s') ↔ work.Rest now d s s' := by
  constructor
  · intro h
    have hrest : ∀ p : Work × Store, Executes now d p (.commit, s') →
        p.1.Rest now d p.2 s' := by
      intro p hp
      induction hp using ReflTransGen.head_induction_on with
      | refl => rfl
      | head hstep _ ih => exact rest_of_statement hstep ih
    exact hrest _ h
  · intro h
    cases work with
    | start o =>
      cases o with
      | done serialized =>
        obtain ⟨s₁, hw, hs⟩ := bind_eq_ok.mp h
        cases hs
        exact .head (.finalized hw) (.head .children (executes_walk _))
      | failed cfg exc traceback =>
        obtain ⟨r, counted, hr, hd, hs⟩ := h
        exact .single (.handleException hr hd hs)
      | workerDied cfg limits locked =>
        obtain ⟨r, hr, rfl⟩ := h
        rw [hr.acquire]
        exact .head (.workerDied hr) (.head .diedChildren (.single .diedDependents))
      | cancelled selected => exact .single (.buttonCancelled h.1 h.2)
    | children =>
      cases h
      exact .head .children (executes_walk _)
    | walk queue =>
      cases h
      exact executes_walk queue
    | diedChildren =>
      cases h
      exact .head .diedChildren (.single .diedDependents)
    | diedDependents =>
      cases h
      exact .single .diedDependents
    | commit =>
      cases h
      exact .refl

end Executes

/-! ### Which rows settle and which finish -/

namespace Store

/-- Row `i` is done, failed or cancelled. -/
def Finished (s : Store) (i : JobId) : Prop :=
  ∃ r, s.get? i = some r ∧ r.state.isTerminal = true

/-- The waiting descendants of the jobs in a walk queue. -/
def WalkedBelow (s : Store) (queue : List JobId) : JobId → Prop :=
  Below (fun i ↦ ∃ q ∈ queue, s.ChildOf q i) (fun _ ↦ True) s.Waiting s.ChildOf

/-- The completion of `d` takes the counter of row `i` to zero. -/
def ReleasedBy (s : Store) (d i : JobId) : Prop :=
  ∃ r, s.get? i = some r ∧ r.ReleasedBy [d]

/-- From `s` to `s'` the rows in `settles` stop waiting, the rows in `ends` finish, and no
other row stops waiting or finishes. -/
structure Effect (s s' : Store) (settles ends : JobId → Prop) : Prop where
  sameWiring : s.SameWiring s'
  waiting : ∀ i, s'.Waiting i ↔ s.Waiting i ∧ ¬ settles i
  finished : ∀ i, s'.Finished i ↔ s.Finished i ∨ ends i

end Store

/-- The rows that stop waiting when the rest of a transaction about `d` sees `s`. -/
def Work.Settles (d : JobId) (s : Store) : Work → JobId → Prop
  | .start (.done _), i | .children, i =>
    i = d ∨ s.CancelledBelow d i ∨ s.ChildOf d i ∨ s.ReleasedBy d i
  | .walk queue, i => s.WalkedBelow queue i ∨ s.ReleasedBy d i
  | .start (.failed _ _ _), i => i = d ∨ s.FailureHit [d] i
  | .start (.workerDied _ _ _), i | .diedChildren, i => i = d ∨ s.Waiting i ∧ s.WaitsOn d i
  | .diedDependents, i => i = d ∨ s.Waiting i ∧ s.DependsOn d i
  | .start (.cancelled selected), i => i ∈ selected ∨ s.CancelClosure selected i
  | .commit, _ => False

/-- The rows that finish when the rest of a transaction about `d` sees `s`. -/
def Work.Ends (d : JobId) (s : Store) : Work → JobId → Prop
  | .start (.done _), i | .children, i => i = d ∨ s.SuccessCancels d i
  | .walk queue, i => s.WalkedBelow queue i ∨ s.CancelledBarrier d i
  | .start (.failed _ _ _), i => i = d ∨ s.FailureHit [d] i ∧ s.OnDone i
  | .start (.workerDied _ _ _), i | .diedChildren, i =>
    i = d ∨ (s.Waiting i ∧ s.WaitsOn d i) ∧ s.OnDone i
  | .diedDependents, i => i = d ∨ (s.Waiting i ∧ s.DependsOn d i) ∧ s.OnDone i
  | .start (.cancelled selected), i =>
    (∃ r, s.get? i = some r) ∧ (i ∈ selected ∨ s.CancelClosure selected i)
  | .commit, _ => False

/-- Before its first statement the transaction is about an active job, behind it about a
finished one. -/
def Work.Recorded (d : JobId) (s : Store) : Work → Prop
  | .start _ => ∃ r, s.get? d = some r ∧ r.state.isActive = true
  | .commit => True
  | _ => s.Finished d

section Effect

variable {now : Time} {d i : JobId} {s s' : Store} {settles ends moved : JobId → Prop} {r : Job}

/-- An effect on the states, row by row. -/
theorem Store.Effect.of_stateOf (hsame : s.SameWiring s')
    (hends : ∀ i, ends i → ∃ r, s.get? i = some r)
    (hrow : ∀ i r, s.get? i = some r → ∃ state, s'.stateOf i = some state ∧
      (state = .waiting ↔ r.state = .waiting ∧ ¬ settles i) ∧
      (state.isTerminal = true ↔ r.state.isTerminal = true ∨ ends i)) :
    s.Effect s' settles ends where
  sameWiring := hsame
  waiting i := by
    rw [waiting_iff_stateOf, waiting_iff_stateOf]
    cases hr : s.get? i with
    | none => simp [stateOf, hr, hsame.none hr]
    | some r =>
      obtain ⟨state, hs, hw, _⟩ := hrow i r hr
      rw [hs, Option.some.injEq, hw, stateOf, hr, Option.map_some, Option.some.injEq]
  finished i := by
    cases hr : s.get? i with
    | none =>
      have hn : ¬ ends i := fun he ↦ by
        obtain ⟨r, h⟩ := hends i he
        rw [hr] at h
        cases h
      simp [Finished, hr, hsame.none hr, hn]
    | some r =>
      obtain ⟨state, hs, _, ht⟩ := hrow i r hr
      obtain ⟨r', hr', rfl⟩ := Option.map_eq_some_iff.mp hs
      simp [Finished, hr, hr', ht]

/-- A terminal state is not waiting. -/
theorem not_waiting_of_terminal {state : JobState} (ht : state.isTerminal = true) :
    state ≠ .waiting := by
  rintro rfl
  cases ht

/-- The row of a finished job does not wait. -/
theorem Store.Finished.row (h : s.Finished i) :
    ∃ r, s.get? i = some r ∧ r.state.isTerminal = true ∧ r.isWaiting = false := by
  obtain ⟨r, hr, ht⟩ := h
  refine ⟨r, hr, ht, ?_⟩
  rw [Bool.eq_false_iff]
  exact mt Job.isWaiting_iff.mp (not_waiting_of_terminal ht)

/-- A finished job does not wait. -/
theorem Store.Finished.not_waiting (h : s.Finished i) : ¬ s.Waiting i := by
  obtain ⟨r, hr, _, hn⟩ := h.row
  rw [waiting_iff hr, hn]
  exact Bool.false_ne_true

/-- An effect about `d`, whose row has finished at the end. -/
theorem Store.Effect.of_finished (hsame : s.SameWiring s') (hd : ∃ r, s.get? d = some r)
    (hself : s'.Finished d) (hends : ∀ i, ends i → ∃ r, s.get? i = some r)
    (hrow : ∀ i r, i ≠ d → s.get? i = some r → ∃ state, s'.stateOf i = some state ∧
      (state = .waiting ↔ r.state = .waiting ∧ ¬ settles i) ∧
      (state.isTerminal = true ↔ r.state.isTerminal = true ∨ ends i)) :
    s.Effect s' (fun i ↦ i = d ∨ settles i) fun i ↦ i = d ∨ ends i := by
  apply of_stateOf hsame
  · rintro i (rfl | he)
    · exact hd
    · exact hends i he
  · intro i r hr
    by_cases hi : i = d
    · subst hi
      obtain ⟨r', hr', ht⟩ := hself
      refine ⟨r'.state, by rw [stateOf, hr']; rfl, ?_, by simp [ht]⟩
      simp [not_waiting_of_terminal ht]
    · simpa [hi] using hrow i r hi hr

/-- One completion releases a row that lists it with a counter of at most one. -/
theorem Job.releasedBy_singleton : r.ReleasedBy [d] ↔
    r.dependsOn d = true ∧ r.pendingDependencyCount ≤ 1 := by
  have hlisted : r.listed [d] = if r.dependsOn d then 1 else 0 := by
    simp [Job.listed, List.countP_cons]
  rw [Job.ReleasedBy, hlisted]
  split
  · next h => simp [h]
  · next h => simp [h]

/-- A failure settles what it moves and ends the on_done rows among it. -/
theorem effect_of_failure (hsame : s.SameWiring s') (hd : ∃ r, s.get? d = some r)
    (hself : s'.Finished d) (hmoved : ∀ i, moved i → s.Waiting i)
    (hrows : ∀ i r, i ≠ d → s.get? i = some r →
      (moved i → s'.stateOf i = some (if r.runOnFailure then .pending else .failed)) ∧
      (¬ moved i → s'.stateOf i = some r.state)) :
    s.Effect s' (fun i ↦ i = d ∨ moved i) fun i ↦ i = d ∨ moved i ∧ s.OnDone i := by
  apply Store.Effect.of_finished hsame hd hself
  · exact fun i he ↦ (hmoved i he.1).imp fun _ h ↦ h.1
  intro i r hi hr
  obtain ⟨hin, hout⟩ := hrows i r hi hr
  by_cases hm : moved i
  · have hw := Job.isWaiting_iff.mp ((Store.waiting_iff hr).mp (hmoved i hm))
    refine ⟨_, hin hm, ?_, ?_⟩
    · simp only [hm, not_true_eq_false, and_false, iff_false]
      split <;> exact nofun
    · rw [hw, Store.onDone_iff hr]
      cases r.runOnFailure <;> simp [hm, JobState.isTerminal, JobState.isActive]
  · exact ⟨_, hout hm, by simp [hm], by simp [hm]⟩

/-- The success cascades of `d`, whose row has finished at the end. -/
theorem effect_of_success (hsame : s.SameWiring s') (hd : ∃ r, s.get? d = some r)
    (hself : s'.Finished d)
    (hrows : ∀ i r, i ≠ d → s.get? i = some r →
      (s.CancelledBelow d i → s'.stateOf i = some .cancelled) ∧
      (¬ s.CancelledBelow d i → s'.stateOf i = some (successState d r))) :
    s.Effect s' (fun i ↦ i = d ∨ s.CancelledBelow d i ∨ s.ChildOf d i ∨ s.ReleasedBy d i)
      fun i ↦ i = d ∨ s.SuccessCancels d i := by
  apply Store.Effect.of_finished hsame hd hself
  · rintro i (hb | ⟨_, r, hr, _⟩)
    · exact hb.entered.1.imp fun _ h ↦ h.1
    · exact ⟨r, hr⟩
  intro i r hi hr
  obtain ⟨hin, hout⟩ := hrows i r hi hr
  by_cases hb : s.CancelledBelow d i
  · have hw := Job.isWaiting_iff.mp ((Store.waiting_iff hr).mp hb.entered.1)
    refine ⟨_, hin hb, by simp [hb], ?_⟩
    simp [Store.SuccessCancels, hb, JobState.isTerminal, JobState.isActive]
  refine ⟨_, hout hb, ?_⟩
  have hreleased : s.ReleasedBy d i ↔ r.dependsOn d = true ∧ r.pendingDependencyCount ≤ 1 := by
    simp [Store.ReleasedBy, hr, Job.releasedBy_singleton]
  have hbarrier : s.CancelledBarrier d i ↔ r.state = .waiting ∧ r.runOnFailure = true ∧
      r.dependsOn d = true ∧ r.pendingDependencyCount ≤ 1 := by
    simp [Store.CancelledBarrier, hi, hr, Job.isWaiting_iff]
  simp only [Store.SuccessCancels, hb, false_or, hreleased, hbarrier, Store.childOf_iff hr,
    successState, Store.isWaitingChild_iff, isWaitingDependent, Bool.and_eq_true,
    Job.isWaiting_iff]
  by_cases hw : r.state = .waiting
  · by_cases hc : r.parentId = some d
    · -- An on_error child would be below `d`.
      have he : r.runOnFailure = false := by
        rw [Bool.eq_false_iff]
        exact fun he ↦ hb (.seed ⟨(Store.childOf_iff hr).mpr hc, (Store.onError_iff hr).mpr he⟩
          ⟨(Store.waiting_iff hr).mpr (Job.isWaiting_iff.mpr hw), hi⟩)
      simp [hw, hc, he, JobState.isTerminal, JobState.isActive]
    · by_cases hrel : r.dependsOn d = true ∧ r.pendingDependencyCount ≤ 1
      · cases he : r.runOnFailure <;>
          simp [hw, hc, hrel, JobState.isTerminal, JobState.isActive]
      · simp only [hw, hc, hrel, and_true, true_and, if_false, or_self,
          not_false_eq_true, and_false, or_false]
  · simp [hw]

/-- A walk that cancels everything below its queue. -/
theorem reached_cancelRule (now : Time) {queue : List JobId} :
    s.Reached (cancelRule now) queue i ↔ s.WalkedBelow queue i := by
  constructor
  · exact fun h ↦ h.mono (fun _ hs ↦ hs) (fun _ _ _ ↦ trivial) (fun _ ha ↦ ha) fun _ _ he ↦ he
  · intro h
    refine h.least (fun a hs ha ↦ .seed hs ha) fun a b hreach _ he hb ↦ ?_
    exact .step hreach (hreach.entered.imp fun r hr ↦ ⟨hr.1, rfl⟩) he hb

/-- The rest of a success walk, and the release behind it. -/
theorem effect_of_walk (queue : List JobId) (hd : ¬ s.Waiting d) :
    s.Effect (releaseDependents now (s.walk (cancelRule now) queue) [d])
      (fun i ↦ s.WalkedBelow queue i ∨ s.ReleasedBy d i)
      fun i ↦ s.WalkedBelow queue i ∨ s.CancelledBarrier d i := by
  refine .of_stateOf ((Store.sameWiring_walk _ _ _).trans (sameWiring_releaseDependents _ _ _))
    (fun i he ↦ ?_) fun i r hr ↦ ?_
  · rcases he with hb | ⟨_, r, hr, _⟩
    · exact hb.entered.imp fun _ h ↦ h.1
    · exact ⟨r, hr⟩
  rw [Store.stateOf, get?_releaseDependents]
  by_cases hb : s.WalkedBelow queue i
  · have hreach := (reached_cancelRule now).mpr hb
    obtain ⟨q, r', hr', hq⟩ := hreach.childOf
    rw [hr] at hr'
    cases hr'
    rw [Store.get?_walk_of_reached _ _ _ hr hq hreach, Option.map_some,
      rowEach_of_not_waiting isWaiting_of_dependent _ ((cancelRule now).not_waiting_write q r)]
    refine ⟨.cancelled, rfl, by simp [hb], ?_⟩
    simp [hb, JobState.isTerminal, JobState.isActive]
  rw [Store.get?_walk_of_not_reached _ _ _ fun hreach ↦ hb ((reached_cancelRule now).mp hreach), hr,
    Option.map_some]
  refine ⟨_, rfl, ?_⟩
  have hreleased : s.ReleasedBy d i ↔ r.ReleasedBy [d] := by simp [Store.ReleasedBy, hr]
  by_cases hw : r.isWaiting = true
  · have hi : i ≠ d := fun he ↦ hd (he ▸ (Store.waiting_iff hr).mpr hw)
    have hbarrier : s.CancelledBarrier d i ↔ r.runOnFailure = true ∧ r.ReleasedBy [d] := by
      simp [Store.CancelledBarrier, hi, hr, hw, Job.releasedBy_singleton]
    have hstate := Job.isWaiting_iff.mp hw
    obtain ⟨hrel, hnot⟩ := rowEach_releaseRow now [d] hw
    by_cases h : r.ReleasedBy [d]
    · rw [hrel h, hreleased, hbarrier, hstate]
      cases r.runOnFailure <;> simp [hb, h, JobState.isTerminal, JobState.isActive]
    · obtain ⟨r', hr', _, hw', _⟩ := hnot h
      rw [hr', Job.isWaiting_iff.mp hw', hreleased, hbarrier, hstate]
      simp [hb, h]
  · have hn : r.isWaiting = false := Bool.eq_false_iff.mpr hw
    have hbarrier : ¬ s.CancelledBarrier d i := by
      simp [Store.CancelledBarrier, hr, hn]
    rw [rowEach_of_not_waiting isWaiting_of_dependent _ hn]
    have hstate : r.state ≠ .waiting := fun h ↦ hw (Job.isWaiting_iff.mpr h)
    simp [hb, hbarrier, hstate]

/-- A completed job that the write has finished. -/
theorem finished_of_stateOf {state : JobState} (h : s.stateOf i = some state)
    (ht : state.isTerminal = true) : s.Finished i := by
  obtain ⟨r, hr, rfl⟩ := Option.map_eq_some_iff.mp h
  exact ⟨r, hr, ht⟩

/-- Both raw-SQL statements behind an exhausted reclaim of `d`. -/
theorem effect_of_workerDied {s₁ : Store} (hsame : s.SameWiring s₁) (hd : ∃ r, s.get? d = some r)
    (hother : ∀ i, i ≠ d → s₁.get? i = s.get? i) (hself : s₁.Finished d) :
    s.Effect (cascadeWorkerDied now s₁ d) (fun i ↦ i = d ∨ s.Waiting i ∧ s.WaitsOn d i)
      fun i ↦ i = d ∨ (s.Waiting i ∧ s.WaitsOn d i) ∧ s.OnDone i := by
  apply effect_of_failure (hsame.trans (sameWiring_cascadeWorkerDied _ _ _)) hd
  · obtain ⟨r, hr, ht, hn⟩ := hself.row
    apply finished_of_stateOf (stateOf_cascadeWorkerDied hr)
    rw [hn, if_neg fun hw ↦ Bool.false_ne_true hw.1]
    exact ht
  · exact fun i hm ↦ hm.1
  · intro i q hi hq
    rw [Store.waiting_iff hq, Store.waitsOn_iff hq]
    apply stateOf_cascadeWorkerDied_cases
    rw [hother i hi, hq]

/-- The second of the raw-SQL statements. -/
theorem effect_of_workerDiedDependents (hself : s.Finished d) :
    s.Effect (workerDiedDependents now s d) (fun i ↦ i = d ∨ s.Waiting i ∧ s.DependsOn d i)
      fun i ↦ i = d ∨ (s.Waiting i ∧ s.DependsOn d i) ∧ s.OnDone i := by
  obtain ⟨r, hr, ht, hn⟩ := hself.row
  apply effect_of_failure (sameWiring_workerDiedDependents _ _ _) ⟨r, hr⟩
  · refine ⟨r, ?_, ht⟩
    simp [workerDiedDependents, hr, isWaitingDependent, hn]
  · exact fun i hm ↦ hm.1
  · intro i q _ hq
    have hmatch : isWaitingDependent d q = true ↔ q.isWaiting = true ∧ q.dependsOn d = true :=
      Bool.and_eq_true_iff
    rw [Store.waiting_iff hq, Store.dependsOn_iff hq, ← hmatch, Store.stateOf,
      workerDiedDependents, Store.get?_update, hq, Option.map_some, Option.map_some]
    constructor
    · intro hm
      rw [if_pos hm]
      rfl
    · intro hm
      rw [if_neg hm]

/-- The rest of a transaction about `d` settles and finishes what it sees. -/
theorem effect_of_rest {work : Work} (hd : work.Recorded d s) (h : work.Rest now d s s') :
    s.Effect s' (work.Settles d s) (work.Ends d s) := by
  cases work with
  | start o =>
    obtain ⟨r, hr, ha⟩ := hd
    cases o with
    | done serialized =>
      have hc : CompletesSuccessfully s d s' := .finalizeJob h
      exact effect_of_success hc.sameWiring ⟨r, hr⟩
        (finished_of_stateOf (hc.stateOf_self hr) rfl) fun i q hi hq ↦ hc.stateOf hi hq
    | failed cfg exc traceback =>
      obtain ⟨r, counted, hr, hdisp, h⟩ := h
      have hf : FailsPermanently s [d] s' := .handleException hr hdisp h
      have hself : s'.Finished d := by
        refine ⟨_, get?_handleException_self h hr, ?_⟩
        rw [hdisp]
        rfl
      refine effect_of_failure hf.sameWiring ⟨r, hr⟩ hself (fun i hm ↦ (FailureHit.entered hm).1)
        fun i q hi hq ↦ hf.stateOf ?_ hq
      rwa [List.mem_singleton]
    | workerDied cfg limits locked =>
      obtain ⟨q, hx, rfl⟩ := h
      rw [hx.acquire]
      apply effect_of_workerDied hx.sameWiring ⟨r, hr⟩
      · intro i hi
        rw [hx.get?, if_neg hi]
      · exact ⟨workerDiedRow now q, by rw [hx.get?, if_pos rfl], rfl⟩
    | cancelled selected =>
      obtain ⟨⟨_, hcancelled, hframe, _⟩, hsame⟩ := cancelExact_of_buttonCancelled h.2
      refine .of_stateOf hsame (fun i he ↦ he.1) fun i q hq ↦ ?_
      by_cases hm : i ∈ selected ∨ s.CancelClosure selected i
      · refine ⟨.cancelled, hcancelled i q hq hm, ?_, ?_⟩
        · simp [Work.Settles, hm]
        · simp [Work.Ends, hq, hm, JobState.isTerminal, JobState.isActive]
      · have hn := not_or.mp hm
        refine ⟨q.state, hframe i q hq hn.1 hn.2, ?_, ?_⟩
        · simp [Work.Settles, hn]
        · simp [Work.Ends, hn]
  | children =>
    cases h
    obtain ⟨r, hr, ht, hn⟩ := Store.Finished.row hd
    have hself := get?_cascadeSuccessToDependents_self now hr hn
    refine effect_of_success (sameWiring_cascadeSuccessToDependents _ _ _) ⟨r, hr⟩
      ⟨r, hself, ht⟩ fun i q _ hq ↦ ?_
    obtain ⟨hin, hout⟩ := get?_cascadeSuccessToDependents now (Store.Finished.not_waiting hd) hq
    refine ⟨hin, fun hb ↦ ?_⟩
    rw [Store.stateOf, hout hb, Option.map_some, state_successRow]
  | walk queue =>
    cases h
    exact effect_of_walk queue (Store.Finished.not_waiting hd)
  | diedChildren =>
    cases h
    exact effect_of_workerDied (.refl s) (hd.imp fun _ h ↦ h.1) (fun _ _ ↦ rfl) hd
  | diedDependents =>
    cases h
    exact effect_of_workerDiedDependents hd
  | commit =>
    cases h
    exact ⟨.refl s, fun i ↦ by simp [Work.Settles], fun i ↦ by simp [Work.Ends]⟩

/-- A statement on waiting rows leaves the finished ones. -/
theorem Store.Finished.update {p : JobId → Job → Bool} {f : JobId → Job → Job}
    (h : s.Finished i) (hk : s.Keeps p f) (hp : ∀ i r, p i r = true → r.isWaiting = true) :
    (s.update p f hk).Finished i := by
  obtain ⟨r, hr, ht⟩ := h
  refine ⟨r, ?_, ht⟩
  rw [get?_update, hr, Option.map_some, if_neg]
  exact fun hm ↦ not_waiting ⟨r, hr, ht⟩ ((waiting_iff hr).mpr (hp i r hm))

/-- A round of a walk leaves the finished rows. -/
theorem Store.Finished.touchChildren (h : s.Finished i) (rule : ChildRule) (job : JobId) :
    (s.touchChildren rule job).Finished i :=
  h.update _ fun _ _ hm ↦ (isWaitingChild_iff.mp hm).2

/-- The raw-SQL statement on the children leaves the finished rows. -/
theorem Store.Finished.workerDiedChildren (h : s.Finished i) :
    (workerDiedChildren now s d).Finished i :=
  h.update _ fun _ _ hm ↦ (isWaitingChild_iff.mp hm).2

/-- The first statement records the outcome, and the others keep it. -/
theorem recorded_of_statement {p q : Work × Store} (h : Statement now d p q)
    (hp : p.1.Recorded d p.2) : q.1.Recorded d q.2 := by
  cases h with
  | finalized hw =>
    obtain ⟨r, hr, _⟩ := hp
    have hrow := Store.get?_write hw d
    rw [if_pos rfl, hr, Option.map_some] at hrow
    exact ⟨_, hrow, rfl⟩
  | children => exact Store.Finished.touchChildren hp _ _
  | grandchildren => exact Store.Finished.touchChildren hp _ _
  | workerDied hx =>
    have hrow := hx.get? d
    rw [if_pos rfl] at hrow
    exact ⟨_, hrow, rfl⟩
  | diedChildren => exact Store.Finished.workerDiedChildren hp
  | releaseDependents | handleException | diedDependents | buttonCancelled => trivial

/-- A transaction about an active job has recorded its outcome behind its first
statement. -/
theorem recorded_of_executes {p q : Work × Store} (h : Executes now d p q)
    (hp : p.1.Recorded d p.2) : q.1.Recorded d q.2 := by
  induction h with
  | refl => exact hp
  | tail _ hstep ih => exact recorded_of_statement hstep ih

end Effect

end JobWorker
