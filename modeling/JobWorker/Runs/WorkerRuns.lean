import JobWorker.History
import JobWorker.RowEffects
import JobWorker.Transactions
import Mathlib.Data.Finset.Card

/-!
# Runs of the workers

Runs in which only workers write to the jobs that there are: they acquire jobs, refresh and
release their claims, and record outcomes for rows that their attempts hold. In such a run
a job leaves `waiting` for a reason that the cascades of its prerequisites give
(`job_worker/models/queue_job.py:551–614,743–803`, `job_worker/cli/worker.py:696–741,
1101–1313`), and an outcome is final.
-/

namespace JobWorker

open Reachability

namespace Store

/-- The job may run, runs, or has run to its end. -/
def Released (s : Store) (i : JobId) : Prop :=
  s.stateOf i = some .pending ∨ s.stateOf i = some .started ∨ s.stateOf i = some .done

instance (s : Store) (i : JobId) : Decidable (s.Released i) := by unfold Released; infer_instance

/-- A row and its state. -/
theorem stateOf_eq_some {s : Store} {i : JobId} {st : JobState} :
    s.stateOf i = some st ↔ ∃ r, s.get? i = some r ∧ r.state = st := by
  rw [stateOf, Option.map_eq_some_iff]

/-- The state of a row. -/
theorem stateOf_of_get? {s : Store} {i : JobId} {r : Job} (h : s.get? i = some r) :
    s.stateOf i = some r.state := by
  rw [stateOf, h, Option.map_some]

end Store

namespace World

/-- An event of a worker, an outcome for a row that its attempt holds, or a new job. -/
def ByWorkers (w : World) : Event → Prop
  | .finalizeJob a _ | .handleException a _ _ => Holds w.store a
  | .runNow _ _ | .buttonSetToDone _ | .buttonSetToFailed _ | .buttonRequeue _
  | .buttonCancelled _ => False
  | _ => True

instance (w : World) : ∀ e, Decidable (w.ByWorkers e)
  | .finalizeJob a _ | .handleException a _ _ => inferInstanceAs (Decidable (Holds w.store a))
  | .runNow _ _ | .buttonSetToDone _ | .buttonSetToFailed _ | .buttonRequeue _
  | .buttonCancelled _ => isFalse id
  | .tick _ | .enqueue _ _ | .acquireJobLock _ _ _ | .heartbeatJob _ | .updateHeartbeats _
  | .handleTimeout _ _ | .clearWorkerOwnership _ | .die _ => isTrue trivial

/-- Runs of such events from `w`. -/
inductive WorkerRun (w : World) : World → Prop
  | refl : WorkerRun w w
  | step {w₁ w₂ : World} {e : Event} : WorkerRun w w₁ → w₁.ByWorkers e → w₁.Step e w₂ →
      WorkerRun w w₂

/-- Rows and their lasting columns stay. -/
theorem WorkerRun.terms {w w' : World} {i : JobId} {r : Job} (h : WorkerRun w w')
    (hr : w.store.get? i = some r) : ∃ r', w'.store.get? i = some r' ∧ r'.terms = r.terms := by
  induction h with
  | refl => exact ⟨r, hr, rfl⟩
  | step _ _ hs ih =>
    obtain ⟨s', hc, rfl⟩ := hs
    obtain ⟨r₁, hr₁, hterms⟩ := ih
    obtain ⟨r', hr', heffect⟩ := hc.row hr₁
    exact ⟨r', hr', heffect.terms.trans hterms⟩

/-- The same with the steps of the run, the last one first: the world before, the event, and
the world behind it. -/
inductive WorkerPath (w : World) : List (World × Event × World) → World → Prop
  | refl : WorkerPath w [] w
  | step {w₁ w₂ : World} {e : Event} {steps : List (World × Event × World)} :
      WorkerPath w steps w₁ → w₁.ByWorkers e → w₁.Step e w₂ →
      WorkerPath w ((w₁, e, w₂) :: steps) w₂

section Path

variable {w₀ w w' : World} {steps steps' : List (World × Event × World)} {es : List Event}

/-- A path is a run. -/
theorem WorkerPath.run (h : WorkerPath w steps w') : WorkerRun w w' := by
  induction h with
  | refl => exact .refl
  | step _ hg hs ih => exact ih.step hg hs

/-- Every step of a path comes behind a run. -/
theorem WorkerPath.of_mem (h : WorkerPath w steps w') {w₁ w₂ : World} {e : Event}
    (hmem : (w₁, e, w₂) ∈ steps) : WorkerRun w w₁ ∧ w₁.ByWorkers e ∧ w₁.Step e w₂ := by
  induction h with
  | refl => cases hmem
  | step h hg hs ih =>
    rcases List.mem_cons.mp hmem with heq | hmem
    · cases heq
      exact ⟨h.run, hg, hs⟩
    · exact ih hmem

/-- The steps of some events of the workers, if each of them can happen in its turn. -/
def play (steps : List (World × Event × World)) (w : World) :
    List Event → Option (List (World × Event × World) × World)
  | [] => some (steps, w)
  | e :: es =>
    if w.ByWorkers e then
      (w.execute e).bind fun s' ↦ play ((w, e, w.after e s') :: steps) (w.after e s') es
    else none

/-- What is played is a path. -/
theorem workerPath_of_play (h : WorkerPath w₀ steps w)
    (hplay : play steps w es = some (steps', w')) : WorkerPath w₀ steps' w' := by
  induction es generalizing steps w with
  | nil => cases hplay; exact h
  | cons e es ih =>
    obtain ⟨hg, hplay⟩ := Option.ite_none_right_eq_some.mp hplay
    obtain ⟨s', he, hplay⟩ := Option.bind_eq_some_iff.mp hplay
    exact ih (h.step hg ⟨s', commits_of_execute he, rfl⟩) hplay

end Path

/-! ### Final states -/

section Final

variable {w : World} {e : Event} {s' : Store} {i : JobId} {r r' : Job}

/-- A held row is started. -/
theorem started_of_holds {s : Store} {a : Attempt} (h : Holds s a) (hr : s.get? a.job = some r) :
    r.state = .started := by
  obtain ⟨q, hq, hown⟩ := h
  rw [hr, Option.some.injEq] at hq
  rw [← hq, Job.ownedBy, Bool.and_eq_true, beq_iff_eq] at hown
  exact hown.1

/-- An event of the workers leaves the state of a finished row. -/
theorem state_of_terminal (hg : w.ByWorkers e) (h : w.Commits e s')
    (hr : w.store.get? i = some r) (ht : r.state.isTerminal = true) :
    s'.stateOf i = some r.state := by
  obtain ⟨r', hr', heffect⟩ := h.row hr
  rw [Store.stateOf_of_get? hr']
  have hwait : r.isWaiting = false := by
    rw [Job.isWaiting, beq_eq_false_iff_ne]
    rintro hs
    rw [hs] at ht
    cases ht
  have hstarted (hs : r.state = .started) : False := by
    rw [hs] at ht
    cases ht
  cases heffect with
  | cascaded hc => rw [hc.eq hwait]
  | acquired _ ha =>
    have hact := WorkerConfig.isActive_of_acquirable ha
    rw [JobState.isTerminal, hact] at ht
    cases ht
  | workerDied _ hs => exact (hstarted hs).elim
  | finalizeJob | handleException => exact (hstarted (started_of_holds hg hr)).elim
  | called hi =>
    cases e with
    | runNow | buttonSetToDone | buttonSetToFailed | buttonRequeue | buttonCancelled => cases hg
    | _ => cases hi
  | heartbeatJob | updateHeartbeats | handleTimeout | clearWorkerOwnership => rfl

/-- A row that an event of the workers makes `done` is the one that it completes. -/
theorem mem_completes_of_done (hg : w.ByWorkers e) (h : w.Commits e s')
    (hs : w.store.stateOf i ≠ some .done) (hs' : s'.stateOf i = some .done) :
    i ∈ completes e := by
  obtain ⟨r', hr', hd⟩ := Store.stateOf_eq_some.mp hs'
  rcases h.row_before hr' with ⟨r, hr, heffect⟩ | ⟨_, env, args, eta, _, rfl⟩
  · rw [Store.stateOf_of_get? hr] at hs
    cases heffect with
    | cascaded hc =>
      cases hc with
      | kept => exact absurd (congrArg some hd) hs
      | written _ _ _ _ _ hn => exact absurd hd hn
    | acquired =>
      unfold WorkerConfig.acquiredRow at hd
      split at hd <;> cases hd
    | workerDied => cases hd
    | finalizeJob => exact List.mem_singleton_self _
    | @handleException a exc =>
      revert hd
      cases dispositionOf a.cfg w.now exc r <;> exact fun hd ↦ by cases hd
    | called hi =>
      cases e with
      | runNow | buttonSetToDone | buttonSetToFailed | buttonRequeue | buttonCancelled => cases hg
      | _ => cases hi
    | heartbeatJob | updateHeartbeats | handleTimeout | clearWorkerOwnership =>
      exact absurd (congrArg some hd) hs
  · rcases state_enqueueVals env w.now args eta with h | h <;> cases h.symm.trans hd

/-- The job that an event of the workers completes was started, and is done. -/
theorem done_of_mem_completes (hg : w.ByWorkers e) (h : w.Commits e s') (hi : i ∈ completes e) :
    completes e = [i] ∧ w.store.stateOf i = some .started ∧ s'.stateOf i = some .done := by
  cases h with
  | finalizeJob _ h =>
    obtain rfl := List.mem_singleton.mp hi
    obtain ⟨r, hr, hown⟩ := id hg
    refine ⟨rfl, ?_, (CompletesSuccessfully.finalizeJob h).stateOf_self hr⟩
    rw [Store.stateOf_of_get? hr, started_of_holds hg hr]
  | runNow | buttonSetToDone => cases hg
  | _ => cases hi

end Final

/-! ### Waiting rows -/

/-- The completion of one job settles a row: its child, or a row whose counter it takes to
zero. -/
def SettledBy (e : Event) (r : Job) : Prop :=
  ∃ j, completes e = [j] ∧ (r.parentId = some j ∨ r.ReleasedBy [j])

/-- What an event of the workers makes of a waiting row. -/
inductive WaitingEffect (e : Event) (s s' : Store) (i : JobId) (r : Job) : Prop
  | released : r.runOnFailure = false → SettledBy e r → s'.stateOf i = some .pending →
      WaitingEffect e s s' i r
  | promoted {p : JobId} : r.runOnFailure = true → r.WaitsOn p →
      s'.stateOf p = some .failed → s'.stateOf i = some .pending → WaitingEffect e s s' i r
  | failed {p : JobId} : r.runOnFailure = false → r.WaitsOn p →
      s'.stateOf p = some .failed → s'.stateOf i = some .failed → WaitingEffect e s s' i r
  | passedOver : r.runOnFailure = true → SettledBy e r → s'.stateOf i = some .cancelled →
      WaitingEffect e s s' i r
  | cancelled {p : JobId} : r.parentId = some p → s'.stateOf p = some .cancelled →
      s'.stateOf i = some .cancelled → WaitingEffect e s s' i r
  /-- It goes on waiting: no prerequisite has recorded its outcome as a failure, its parent
  has not completed, and its counter has counted the completed job. -/
  | waits {r' : Job} : s'.get? i = some r' → r'.isWaiting = true → r'.wiring = r.wiring →
      r'.pendingDependencyCount = r.pendingDependencyCount - r.listed (completes e) →
      (∀ p, r.WaitsOn p → s.stateOf p = some .started → s'.stateOf p ≠ some .failed) →
      (∀ p, r.parentId = some p → p ∉ completes e) → WaitingEffect e s s' i r

section Waiting

variable {w : World} {e : Event} {s' : Store} {i j : JobId} {r : Job}

/-- The completion of a started job. -/
theorem waitingEffect_of_completes {serialized : Option String} {a : Attempt}
    (hheld : Holds w.store a)
    (h : JobWorker.finalizeJob w.now serialized w.store a.job = .ok s')
    (hr : w.store.get? i = some r) (hw : r.isWaiting = true) :
    WaitingEffect (.finalizeJob a serialized) w.store s' i r := by
  have hcompletes : completes (.finalizeJob a serialized) = [a.job] := rfl
  have hc : CompletesSuccessfully w.store a.job s' := .finalizeJob h
  obtain ⟨q, hq, hown⟩ := id hheld
  have hstarted := started_of_holds hheld hq
  have hi : i ≠ a.job := by
    rintro rfl
    rw [hr, Option.some.injEq] at hq
    rw [hq, Job.isWaiting, hstarted] at hw
    cases hw
  rcases hc.waiting_cases hi hr hw with ⟨hb, hs⟩ | ⟨_, hsettled, hs⟩ |
    ⟨r', hr', hw', hwire, hparent, _, hcount⟩
  · cases hb with
    | seed hseed _ =>
      exact .passedOver ((Store.onError_iff hr).mp hseed.2)
        ⟨a.job, hcompletes, .inl ((Store.childOf_iff hr).mp hseed.1)⟩ hs
    | @step p _ hp _ hchild _ =>
      obtain ⟨⟨q, hq, _⟩, hne⟩ := hp.entered
      exact .cancelled ((Store.childOf_iff hr).mp hchild) ((hc.row hne hq).1 hp) hs
  · cases hon : r.runOnFailure with
    | false =>
      rw [hon] at hs
      exact .released hon ⟨a.job, hcompletes, hsettled⟩ hs
    | true =>
      rw [hon] at hs
      exact .passedOver hon ⟨a.job, hcompletes, hsettled⟩ hs
  · refine .waits hr' hw' hwire hcount (fun p _ hsp ↦ ?_) fun p hp hmem ↦ ?_
    · by_cases hpa : p = a.job
      · rw [hpa, hc.stateOf_self hq]
        exact fun h ↦ by cases h
      · -- A started row is left by the cascades of another job.
        obtain ⟨v, hv, hvs⟩ := Store.stateOf_eq_some.mp hsp
        have hn : ¬ w.store.CancelledBelow a.job p := fun hb ↦ by
          have hwv := (Store.waiting_iff hv).mp hb.entered.1
          rw [Job.isWaiting, hvs] at hwv
          cases hwv
        rw [(hc.stateOf hpa hv).2 hn, successState]
        simp [Store.isWaitingChild, isWaitingDependent, Job.isWaiting, hvs]
    · rw [hcompletes, List.mem_singleton] at hmem
      exact hparent (hmem ▸ hp)

/-- The permanent failure of a started job. -/
theorem waitingEffect_of_fails (hf : FailsPermanently w.store [j] s')
    (hcompletes : completes e = []) (hj : w.store.stateOf j = some .started)
    (hfailed : s'.stateOf j = some .failed) (hr : w.store.get? i = some r)
    (hw : r.isWaiting = true) : WaitingEffect e w.store s' i r := by
  have hi : i ∉ [j] := by
    rw [List.mem_singleton]
    rintro rfl
    rw [Store.stateOf_of_get? hr, Job.isWaiting_iff.mp hw] at hj
    cases hj
  by_cases hit : w.store.FailureHit [j] i
  · obtain ⟨p, hp, hwaits⟩ := waitsOn_of_hit hr hit
    have hsp : s'.stateOf p = some .failed := by
      rcases hf.failedBy_iff.mpr hp with hp | ⟨_, hp⟩
      · rwa [List.mem_singleton.mp hp]
      · exact hp
    have hs := (hf.stateOf hi hr).1 hit
    cases hon : r.runOnFailure with
    | false =>
      rw [hon] at hs
      exact .failed hon hwaits hsp hs
    | true =>
      rw [hon] at hs
      exact .promoted hon hwaits hsp hs
  · obtain ⟨now, f, hk, s₁, hf', hwire, h₁, rfl⟩ := hf.failEach
    have hrow := get?_failure_of_not_hit hf' hwire h₁ hi hr hit
    refine .waits hrow hw rfl (by simp [hcompletes, Job.listed]) (fun p hp hsp hfp ↦ ?_)
      fun p _ ↦ by simp [hcompletes]
    have hpj : p ∉ [j] := fun hmem ↦ hit (hit_of_waitsOn hr hw hi hmem hp)
    obtain ⟨v, hv, hvs⟩ := Store.stateOf_eq_some.mp hsp
    have hn : ¬ w.store.FailureHit [j] p := fun hb ↦ by
      have hwv := (Store.waiting_iff hv).mp (FailureHit.entered hb).1
      rw [Job.isWaiting, hvs] at hwv
      cases hwv
    rw [(hf.stateOf hpj hv).2 hn, hvs] at hfp
    cases hfp

/-- An event that completes and fails nothing, and keeps the row. -/
theorem waitingEffect_of_row {r' : Job} (hcompletes : completes e = [])
    (hr' : s'.get? i = some r') (hw : r'.isWaiting = true) (hwire : r'.wiring = r.wiring)
    (hcount : r'.pendingDependencyCount = r.pendingDependencyCount)
    (hstarted : ∀ p, w.store.stateOf p = some .started → s'.stateOf p ≠ some .failed) :
    WaitingEffect e w.store s' i r :=
  .waits hr' hw hwire (by simp [hcompletes, Job.listed, hcount]) (fun p _ ↦ hstarted p)
    fun p _ ↦ by simp [hcompletes]

/-- A statement on the claims of a worker. -/
theorem waitingEffect_of_update {p : JobId → Job → Bool} {f : JobId → Job → Job}
    {hk : w.store.Keeps p f} (hcompletes : completes e = [])
    (hstate : ∀ i r, (f i r).state = r.state) (hwire : ∀ i r, (f i r).wiring = r.wiring)
    (hcount : ∀ i r, (f i r).pendingDependencyCount = r.pendingDependencyCount)
    (hr : w.store.get? i = some r) (hw : r.isWaiting = true) :
    WaitingEffect e w.store (w.store.update p f hk) i r := by
  have hrow : (w.store.update p f hk).get? i = some (if p i r then f i r else r) := by
    rw [Store.get?_update, hr, Option.map_some]
  refine waitingEffect_of_row hcompletes hrow ?_ ?_ ?_ fun q hq hq' ↦ ?_
  · split
    · rw [Job.isWaiting, hstate]
      exact hw
    · exact hw
  · split
    · exact hwire i r
    · rfl
  · split
    · exact hcount i r
    · rfl
  · have hsame := Store.sameColumn_update (c := Job.state) hk hstate q
    rw [Store.stateOf, hsame] at hq'
    cases hq.symm.trans hq'

/-- The reclaim of an exhausted attempt settles what waits on its job. -/
theorem waitingEffect_of_workerDied (cfg : WorkerConfig) (limits : QueueLimits)
    (locked : JobId → Bool) {job : JobId} {q : Job} (hq : w.store.get? job = some q)
    (hact : q.state.isActive = true) (hne : i ≠ job) (hr : w.store.get? i = some r)
    (hw : r.isWaiting = true) :
    WaitingEffect (.acquireJobLock cfg limits locked) w.store (cascadeWorkerDied w.now
      (w.store.updateLocked job q hq hact (workerDiedRow w.now) rfl) job) i r := by
  let s₁ := w.store.updateLocked job q hq hact (workerDiedRow w.now) rfl
  have hrow : s₁.get? i = some r :=
    (get?_updateLocked hq hact _ rfl).trans ((if_neg hne).trans hr)
  have hself : s₁.get? job = some (workerDiedRow w.now q) :=
    (get?_updateLocked hq hact _ rfl).trans (if_pos rfl)
  have hfailed : (cascadeWorkerDied w.now s₁ job).stateOf job = some .failed := by
    rw [stateOf_cascadeWorkerDied hself, if_neg]
    · rfl
    · exact fun h ↦ by cases h.1
  by_cases hwaits : r.WaitsOn job
  · have hmoved : (cascadeWorkerDied w.now s₁ job).stateOf i =
        some (if r.runOnFailure then .pending else .failed) :=
      (stateOf_cascadeWorkerDied_cases hrow).1 ⟨hw, hwaits⟩
    cases hon : r.runOnFailure with
    | false =>
      rw [hon] at hmoved
      exact .failed hon hwaits hfailed hmoved
    | true =>
      rw [hon] at hmoved
      exact .promoted hon hwaits hfailed hmoved
  · have hkept : (cascadeWorkerDied w.now s₁ job).get? i = some r := by
      rw [get?_cascadeWorkerDied hrow, if_neg fun h ↦ hwaits h.2]
    refine .waits hkept hw rfl (by simp [completes, Job.listed]) (fun p hp hsp ↦ ?_)
      fun p _ ↦ by simp [completes]
    obtain ⟨v, hv, hvs⟩ := Store.stateOf_eq_some.mp hsp
    have hpj : p ≠ job := by
      rintro rfl
      exact hwaits hp
    have hv₁ : s₁.get? p = some v :=
      (get?_updateLocked hq hact _ rfl).trans ((if_neg hpj).trans hv)
    rw [stateOf_cascadeWorkerDied hv₁, if_neg, hvs]
    · exact fun h ↦ by cases h
    · exact fun h ↦ by
        rw [Job.isWaiting, hvs] at h
        cases h.1

/-- An acquire takes a row that does not wait, or fails one that has exhausted its
retries. -/
theorem waitingEffect_of_acquireJobLock (cfg : WorkerConfig) (limits : QueueLimits)
    (locked : JobId → Bool) (hr : w.store.get? i = some r) (hw : r.isWaiting = true) :
    WaitingEffect (.acquireJobLock cfg limits locked) w.store
      (JobWorker.acquireJobLock cfg limits locked w.now w.store).1 i r := by
  have heffect := acquireEffect cfg limits locked w.now w.store
  generalize JobWorker.acquireJobLock cfg limits locked w.now w.store = out at heffect ⊢
  have hne {job : JobId} {q : Job} (hq : w.store.get? job = some q)
      (ha : cfg.acquirable w.now q = true) : i ≠ job := by
    rintro rfl
    obtain rfl : r = q := Option.some.inj (hr.symm.trans hq)
    rcases WorkerConfig.state_of_acquirable ha with hs | ⟨hs, _⟩ <;>
      rw [Job.isWaiting, hs] at hw <;> cases hw
  have hlocked {job : JobId} {q : Job} {f : Job → Job} (hq : w.store.get? job = some q)
      (hact : q.state.isActive = true) (hk : (f q).identityKey = q.identityKey) (p : JobId)
      (hsp : w.store.stateOf p = some .started) (hf : (f q).state ≠ .failed) :
      (w.store.updateLocked job q hq hact f hk).stateOf p ≠ some .failed := by
    rw [Store.stateOf, get?_updateLocked]
    split
    · rw [Option.map_some]
      exact fun h ↦ hf (Option.some.inj h)
    · rw [← Store.stateOf, hsp]
      exact fun h ↦ by cases h
  have hother {job : JobId} {q : Job} {f : Job → Job} (hq : w.store.get? job = some q)
      (ha : cfg.acquirable w.now q = true) (hk : (f q).identityKey = q.identityKey) :
      (w.store.updateLocked job q hq (WorkerConfig.isActive_of_acquirable ha) f hk).get? i =
        some r := (get?_updateLocked hq _ f hk).trans ((if_neg (hne hq ha)).trans hr)
  cases heffect with
  | idle => exact waitingEffect_of_row rfl hr hw rfl rfl fun p hp h ↦ by cases hp.symm.trans h
  | pickup hq ha | reclaim hq ha =>
    exact waitingEffect_of_row rfl (hother hq ha rfl) hw rfl rfl
      fun p hp ↦ hlocked hq (WorkerConfig.isActive_of_acquirable ha) rfl p hp fun h ↦ by cases h
  | exhaust hq ha => exact waitingEffect_of_workerDied cfg limits locked hq _ (hne hq ha) hr hw

/-- An event of the workers settles a waiting row, or lets it wait. -/
theorem Commits.waitingEffect (hg : w.ByWorkers e) (h : w.Commits e s')
    (hr : w.store.get? i = some r) (hw : r.isWaiting = true) :
    WaitingEffect e w.store s' i r := by
  have hidle (he : completes e = []) : WaitingEffect e w.store w.store i r :=
    waitingEffect_of_row he hr hw rfl rfl fun p hp h ↦ by cases hp.symm.trans h
  cases h with
  | tick | die => exact hidle rfl
  | @enqueue env args s' j h =>
    rcases enqueue_cases h with ⟨rfl, _⟩ | ⟨eta, _, _, hcreate⟩
    · exact hidle rfl
    · refine waitingEffect_of_row rfl (Store.get?_create_of_some hcreate hr) hw rfl rfl
        fun p hp ↦ ?_
      obtain ⟨v, hv, hvs⟩ := Store.stateOf_eq_some.mp hp
      rw [Store.stateOf_of_get? (Store.get?_create_of_some hcreate hv), hvs]
      exact fun h ↦ by cases h
  | acquireJobLock => exact waitingEffect_of_acquireJobLock _ _ _ hr hw
  | heartbeatJob | updateHeartbeats | handleTimeout | clearWorkerOwnership =>
    exact waitingEffect_of_update rfl (fun _ _ ↦ rfl) (fun _ _ ↦ rfl) (fun _ _ ↦ rfl) hr hw
  | finalizeJob _ h => exact waitingEffect_of_completes hg h hr hw
  | @handleException a exc traceback s' _ h =>
    obtain ⟨q, hq, hown⟩ := id hg
    have hstarted := started_of_holds hg hq
    have hself := get?_handleException_self h hq
    cases hd : dispositionOf a.cfg w.now exc q with
    | fail counted =>
      refine waitingEffect_of_fails (.handleException hq hd h) rfl ?_ ?_ hr hw
      · rw [Store.stateOf_of_get? hq, hstarted]
      · rw [Store.stateOf_of_get? hself, hd]
        rfl
    | retry delaySeconds counted =>
      obtain ⟨s₁, hwrite, hs'⟩ := handleException_eq h hq
      rw [hd] at hs'
      obtain rfl : s' = s₁ := hs'
      have hne : i ≠ a.job := by
        rintro rfl
        obtain rfl : r = q := Option.some.inj (hr.symm.trans hq)
        rw [Job.isWaiting, hstarted] at hw
        cases hw
      have hrow : s'.get? i = some r := by rw [Store.get?_write hwrite, if_neg hne, hr]
      refine waitingEffect_of_row rfl hrow hw rfl rfl fun p hp ↦ ?_
      by_cases hpa : p = a.job
      · rw [hpa, Store.stateOf_of_get? hself, hd]
        exact fun h ↦ by cases h
      · rw [Store.stateOf, Store.get?_write hwrite, if_neg hpa, ← Store.stateOf, hp]
        exact fun h ↦ by cases h
  | runNow | buttonSetToDone | buttonSetToFailed | buttonRequeue | buttonCancelled => cases hg

end Waiting

/-! ### Outcomes -/

/-- The event records the outcome of the job: it completes it, fails it permanently, or finds
its retries exhausted. -/
inductive RecordsOutcome (w : World) : Event → JobId → Prop
  | done {a : Attempt} {serialized : Option String} :
      RecordsOutcome w (.finalizeJob a serialized) a.job
  | failed {a : Attempt} {exc : JobException} {traceback : String} {r : Job} {counted : Bool} :
      w.store.get? a.job = some r → dispositionOf a.cfg w.now exc r = .fail counted →
      RecordsOutcome w (.handleException a exc traceback) a.job
  | workerDied {cfg : WorkerConfig} {limits : QueueLimits} {locked : JobId → Bool} {i : JobId}
      {r : Job} : ReclaimExhausts cfg limits locked w.now w.store i r →
      RecordsOutcome w (.acquireJobLock cfg limits locked) i

section Outcome

variable {w : World} {e : Event} {s' : Store} {i : JobId} {r : Job}

/-- Whose outcome is recorded was started, and is done or has failed. -/
theorem state_of_recordsOutcome (hg : w.ByWorkers e) (h : w.Commits e s')
    (ho : w.RecordsOutcome e i) : w.store.stateOf i = some .started ∧
      (s'.stateOf i = some .done ∨ s'.stateOf i = some .failed) := by
  cases ho with
  | done =>
    obtain ⟨_, hs, hd⟩ := done_of_mem_completes hg h (List.mem_singleton_self _)
    exact ⟨hs, .inl hd⟩
  | @failed a exc traceback r counted hr hd =>
    cases h with
    | handleException _ h =>
      refine ⟨by rw [Store.stateOf_of_get? hr, started_of_holds hg hr], .inr ?_⟩
      rw [Store.stateOf_of_get? (get?_handleException_self h hr), hd]
      rfl
  | @workerDied cfg limits locked _ r hdied =>
    refine ⟨by rw [Store.stateOf_of_get? hdied.row, hdied.started], .inr ?_⟩
    cases h with
    | acquireJobLock =>
      have hself : hdied.failed.get? i = some (workerDiedRow w.now r) := by
        rw [hdied.get?, if_pos rfl]
      rw [hdied.acquire, stateOf_cascadeWorkerDied hself, if_neg]
      · rfl
      · exact fun h ↦ by cases h.1

/-- Who becomes done has its outcome recorded. -/
theorem recordsOutcome_of_done (hg : w.ByWorkers e) (h : w.Commits e s')
    (hs : w.store.stateOf i ≠ some .done) (hd : s'.stateOf i = some .done) :
    w.RecordsOutcome e i := by
  have hmem := mem_completes_of_done hg h hs hd
  cases e with
  | finalizeJob a serialized =>
    obtain rfl := List.mem_singleton.mp hmem
    exact .done
  | runNow | buttonSetToDone => cases hg
  | _ => cases hmem

/-- A job that fails was started, unless the failure of a prerequisite passes to it. -/
theorem started_of_failed (hg : w.ByWorkers e) (h : w.Commits e s')
    (hr : w.store.get? i = some r) (hn : r.state ≠ .failed) (hf : s'.stateOf i = some .failed) :
    r.state = .started ∨ r.runOnFailure = false := by
  by_cases hw : r.isWaiting = true
  · cases h.waitingEffect hg hr hw with
    | failed hon => exact .inr hon
    | released _ _ hs | promoted _ _ _ hs | passedOver _ _ hs | cancelled _ _ hs =>
      cases hs.symm.trans hf
    | waits hr' hw' =>
      rw [Store.stateOf_of_get? hr', Job.isWaiting_iff.mp hw'] at hf
      cases hf
  · obtain ⟨r', hr', heffect⟩ := h.row hr
    rw [Store.stateOf_of_get? hr', Option.some.injEq] at hf
    cases heffect with
    | cascaded hc => exact absurd ((hc.eq (Bool.eq_false_of_not_eq_true hw)) ▸ hf) hn
    | acquired =>
      unfold WorkerConfig.acquiredRow at hf
      split at hf <;> cases hf
    | workerDied _ hs => exact .inl hs
    | finalizeJob => cases hf
    | handleException => exact .inl (started_of_holds hg hr)
    | called hi =>
      cases e with
      | runNow | buttonSetToDone | buttonSetToFailed | buttonRequeue | buttonCancelled => cases hg
      | _ => cases hi
    | heartbeatJob | updateHeartbeats | handleTimeout | clearWorkerOwnership => exact absurd hf hn

/-- An acquire that fails a started job has found its retries exhausted. -/
theorem reclaimExhausts_of_failed {cfg : WorkerConfig} {limits : QueueLimits}
    {locked : JobId → Bool} {now : Time} {s : Store} (hr : s.get? i = some r)
    (hs : r.state = .started)
    (hf : (JobWorker.acquireJobLock cfg limits locked now s).1.stateOf i = some .failed) :
    ReclaimExhausts cfg limits locked now s i r := by
  have hkept {s₁ : Store} (hget : s₁.get? i = some r) : s₁.stateOf i ≠ some .failed := by
    rw [Store.stateOf_of_get? hget, hs]
    exact nofun
  cases hfind : (cfg.candidates limits now s).find? (fun j ↦ !locked j) with
  | none =>
    unfold acquireJobLock at hf
    rw [hfind] at hf
    exact absurd hf (hkept hr)
  | some job =>
    obtain ⟨q, hq, _⟩ := Relational.Table.mem_selectBy.mp (List.mem_of_find?_eq_some hfind)
    have hq : s.get? job = some q := hq
    by_cases hi : i = job
    · subst hi
      obtain rfl : r = q := Option.some.inj (hr.symm.trans hq)
      refine ⟨hfind, hr, hs, ?_⟩
      by_contra he
      have hact : r.state.isActive = true := by rw [hs]; rfl
      have hself : (s.updateLocked i r hr hact (cfg.reclaimRow now) rfl).get? i =
          some (cfg.reclaimRow now r) := (get?_updateLocked hr hact _ rfl).trans (if_pos rfl)
      rw [acquireJobLock_of_find hfind hr, acquireRow, if_neg (by simp [hs]), if_neg he] at hf
      cases hf.symm.trans (Store.stateOf_of_get? hself)
    · -- The statement on the row of another job and its cascade leave a started row.
      have hact : q.state.isActive = true := WorkerConfig.isActive_of_acquirable
        (acquirable_of_mem_candidates (List.mem_of_find?_eq_some hfind) hq)
      have hother {f : Job → Job} (hk : (f q).identityKey = q.identityKey) :
          (s.updateLocked job q hq hact f hk).get? i = some r := by
        rw [get?_updateLocked, if_neg hi, hr]
      have hcascade (s₁ : Store) (hget : s₁.get? i = some r) :
          (cascadeWorkerDied now s₁ job).stateOf i ≠ some .failed := by
        refine hkept ?_
        rw [get?_cascadeWorkerDied hget, if_neg]
        exact fun h ↦ by rw [Job.isWaiting, hs] at h; cases h.1
      rw [acquireJobLock_of_find hfind hq] at hf
      unfold acquireRow at hf
      split at hf
      · exact absurd hf (hkept (hother rfl))
      · split at hf
        · exact absurd hf (hcascade _ (hother rfl))
        · exact absurd hf (hkept (hother rfl))

/-- A started job that fails has its outcome recorded. -/
theorem recordsOutcome_of_failed (hg : w.ByWorkers e) (h : w.Commits e s')
    (hs : w.store.stateOf i = some .started) (hf : s'.stateOf i = some .failed) :
    w.RecordsOutcome e i := by
  obtain ⟨r, hr, hstarted⟩ := Store.stateOf_eq_some.mp hs
  have hnot : r.isWaiting = false := by rw [Job.isWaiting, hstarted]; rfl
  obtain ⟨r', hr', heffect⟩ := h.row hr
  have hf' := hf
  rw [Store.stateOf_of_get? hr', Option.some.injEq] at hf'
  cases heffect with
  | cascaded hc =>
    rw [hc.eq hnot, hstarted] at hf'
    cases hf'
  | acquired =>
    unfold WorkerConfig.acquiredRow at hf'
    split at hf' <;> cases hf'
  | workerDied =>
    cases h with
    | acquireJobLock => exact .workerDied (reclaimExhausts_of_failed hr hstarted hf)
  | finalizeJob => cases hf'
  | @handleException a exc =>
    cases hd : dispositionOf a.cfg w.now exc r with
    | fail counted => exact .failed hr hd
    | retry delaySeconds counted =>
      rw [hd] at hf'
      cases hf'
  | called hi =>
    cases e with
    | runNow | buttonSetToDone | buttonSetToFailed | buttonRequeue | buttonCancelled => cases hg
    | _ => cases hi
  | heartbeatJob | updateHeartbeats | handleTimeout | clearWorkerOwnership =>
    exact absurd (hstarted.symm.trans hf') nofun

end Outcome

end World

/-! ### Released rows -/

/-- The dependencies of a row that are not done. -/
def Store.notDone (s : Store) (r : Job) : Finset JobId :=
  r.dependencies.toFinset.filter fun d ↦ s.stateOf d ≠ some .done

/-- The prerequisites that a row declares have come true: all of them are done, or for an
on_error row one has failed. -/
def Store.Met (s : Store) (r : Job) : Prop :=
  if r.runOnFailure then ∃ p, r.WaitsOn p ∧ s.stateOf p = some .failed
  else ∀ p, r.WaitsOn p → s.stateOf p = some .done

/-- The row `i` with the wiring of `r₀`: its counter covers the dependencies that are not
done, and it is not released before its prerequisites have come true. -/
def Store.Gated (s : Store) (i : JobId) (r₀ : Job) : Prop :=
  ∃ r, s.get? i = some r ∧ r.wiring = r₀.wiring ∧
    (r.isWaiting = true → ((s.notDone r).card : Int) ≤ r.pendingDependencyCount) ∧
    (s.Released i → s.Met r)

namespace World

section Gated

variable {w w' : World} {e : Event} {s' : Store} {i j : JobId} {r r₀ : Job}

/-- What is done stays done. -/
theorem done_of_commits (hg : w.ByWorkers e) (h : w.Commits e s')
    (hd : w.store.stateOf j = some .done) : s'.stateOf j = some .done := by
  obtain ⟨r, hr, hs⟩ := Store.stateOf_eq_some.mp hd
  rw [state_of_terminal hg h hr (by rw [hs]; rfl), hs]

/-- What has failed stays failed. -/
theorem failed_of_commits (hg : w.ByWorkers e) (h : w.Commits e s')
    (hf : w.store.stateOf j = some .failed) : s'.stateOf j = some .failed := by
  obtain ⟨r, hr, hs⟩ := Store.stateOf_eq_some.mp hf
  rw [state_of_terminal hg h hr (by rw [hs]; rfl), hs]

/-- Prerequisites that have come true stay true. -/
theorem met_of_commits (hg : w.ByWorkers e) (h : w.Commits e s') (hmet : w.store.Met r) :
    s'.Met r := by
  unfold Store.Met at hmet ⊢
  split
  · next hon =>
    rw [if_pos hon] at hmet
    obtain ⟨p, hp, hf⟩ := hmet
    exact ⟨p, hp, failed_of_commits hg h hf⟩
  · next hon =>
    rw [if_neg hon] at hmet
    exact fun p hp ↦ done_of_commits hg h (hmet p hp)

/-- Equal wiring, equal prerequisites. -/
theorem met_of_wiring {s : Store} {a b : Job} (h : a.wiring = b.wiring) :
    s.Met a ↔ s.Met b := by
  simp only [Store.Met, Job.runOnFailure_of_wiring h, Job.waitsOn_of_wiring h]

/-- Equal wiring, the same open dependencies. -/
theorem notDone_of_wiring {s : Store} {a b : Job} (h : a.wiring = b.wiring) :
    s.notDone a = s.notDone b := by
  rw [Store.notDone, Store.notDone, Job.dependencies_of_wiring h]

/-- An event takes the listed completed job, and no other, out of the open dependencies. -/
theorem card_notDone_eq (hg : w.ByWorkers e) (h : w.Commits e s') :
    (s'.notDone r).card + r.listed (completes e) = (w.store.notDone r).card := by
  cases hc : completes e with
  | nil =>
    have heq : s'.notDone r = w.store.notDone r := by
      refine Finset.filter_congr fun d _ ↦ not_congr ⟨fun hd ↦ ?_, done_of_commits hg h⟩
      by_contra hs
      have hmem := mem_completes_of_done hg h hs hd
      rw [hc] at hmem
      cases hmem
    rw [heq]
    rfl
  | cons j rest =>
    have hj : j ∈ completes e := hc ▸ List.mem_cons_self
    obtain ⟨hone, hstarted, hdone⟩ := done_of_mem_completes hg h hj
    obtain rfl : rest = [] := List.tail_eq_of_cons_eq (hc.symm.trans hone)
    have heq : s'.notDone r = (w.store.notDone r).erase j := by
      ext d
      simp only [Store.notDone, Finset.mem_erase, Finset.mem_filter]
      constructor
      · rintro ⟨hd, hs⟩
        exact ⟨fun hdj ↦ hs (hdj ▸ hdone), hd, fun hd' ↦ hs (done_of_commits hg h hd')⟩
      · rintro ⟨hne, hd, hs⟩
        refine ⟨hd, fun hd' ↦ hne ?_⟩
        have hmem := mem_completes_of_done hg h hs hd'
        rwa [hone, List.mem_singleton] at hmem
    rw [heq]
    by_cases hdep : r.dependsOn j = true
    · have hmem : j ∈ w.store.notDone r := by
        rw [Store.notDone, Finset.mem_filter, List.mem_toFinset, hstarted]
        exact ⟨Job.dependsOn_iff.mp hdep, nofun⟩
      have hlisted : r.listed [j] = 1 := by simp [Job.listed, hdep]
      rw [hlisted, Finset.card_erase_add_one hmem]
    · have hmem : j ∉ w.store.notDone r := fun hmem ↦
        hdep (Job.dependsOn_iff.mpr (List.mem_toFinset.mp (Finset.mem_filter.mp hmem).1))
      have hlisted : r.listed [j] = 0 := by simp [Job.listed, hdep]
      rw [hlisted, Finset.erase_eq_of_notMem hmem, Nat.add_zero]

/-- A counter at zero has seen all dependencies done. -/
theorem met_of_settledBy (hg : w.ByWorkers e) (h : w.Commits e s')
    (hsingle : r.parentId = none ∨ r.dependencies = [])
    (hcount : ((w.store.notDone r).card : Int) ≤ r.pendingDependencyCount)
    (hon : r.runOnFailure = false) (hsettled : SettledBy e r) : s'.Met r := by
  obtain ⟨j, he, hj⟩ := hsettled
  have hmem : j ∈ completes e := by rw [he]; exact List.mem_singleton_self j
  have hjdone := (done_of_mem_completes hg h hmem).2.2
  rw [Store.Met, if_neg (by simp [hon])]
  intro p hp
  rcases hj with hparent | ⟨hlisted, hzero⟩
  · have hdeps := hsingle.resolve_left (by simp [hparent])
    rcases hp with hp | hp
    · rw [hparent, Option.some.injEq] at hp
      exact hp ▸ hjdone
    · rw [Job.dependsOn_iff, hdeps] at hp
      cases hp
  · have hcard := card_notDone_eq (r := r) hg h
    rw [he] at hcard
    have hempty : s'.notDone r = ∅ := by
      rw [← Finset.card_eq_zero]
      omega
    have hdep : p ∈ r.dependencies := by
      rcases hp with hp | hp
      · have hdeps := hsingle.resolve_left (by simp [hp])
        rw [Job.listed, List.countP_singleton] at hlisted
        simp [Job.dependsOn, hdeps] at hlisted
      · exact Job.dependsOn_iff.mp hp
    by_contra hn
    have : p ∈ s'.notDone r := Finset.mem_filter.mpr ⟨List.mem_toFinset.mpr hdep, hn⟩
    rw [hempty] at this
    cases this

/-- One event keeps a row gated. -/
theorem gated_of_commits (hsingle : r₀.parentId = none ∨ r₀.dependencies = [])
    (hgate : w.store.Gated i r₀) (hg : w.ByWorkers e) (h : w.Commits e s') :
    s'.Gated i r₀ := by
  obtain ⟨r, hr, hwire, hcount, hmet⟩ := hgate
  have hsingle : r.parentId = none ∨ r.dependencies = [] := by
    rwa [Job.parentId_of_wiring hwire, Job.dependencies_of_wiring hwire]
  obtain ⟨r', hr', hwire', hwait⟩ := h.transaction.row hr
  refine ⟨r', hr', hwire'.trans hwire, fun hw' ↦ ?_, fun hrel ↦ ?_⟩
  · have hw := hwait hw'
    have hcard := card_notDone_eq (r := r) hg h
    have hcount := hcount hw
    rw [notDone_of_wiring hwire']
    have hs' := Store.stateOf_of_get? hr'
    rw [Job.isWaiting_iff.mp hw'] at hs'
    cases h.waitingEffect hg hr hw with
    | released _ _ hs | promoted _ _ _ hs | failed _ _ _ hs | passedOver _ _ hs
    | cancelled _ _ hs => cases hs'.symm.trans hs
    | waits hq _ _ hcount' =>
      obtain rfl := Option.some.inj (hr'.symm.trans hq)
      rw [hcount']
      omega
  · rw [met_of_wiring hwire']
    by_cases hw : r.isWaiting = true
    · cases h.waitingEffect hg hr hw with
      | released hon hsettled => exact met_of_settledBy hg h hsingle (hcount hw) hon hsettled
      | promoted hon hp hf =>
        rw [Store.Met, if_pos hon]
        exact ⟨_, hp, hf⟩
      | failed _ _ _ hs | passedOver _ _ hs | cancelled _ _ hs =>
        rcases hrel with h | h | h <;> cases hs.symm.trans h
      | waits hq hw' =>
        rw [Store.Released, Store.stateOf_of_get? hq, Job.isWaiting_iff.mp hw'] at hrel
        rcases hrel with h | h | h <;> cases h
    · refine met_of_commits hg h (hmet ?_)
      rw [Store.Released, Store.stateOf_of_get? hr]
      have hterminal (ht : r.state.isTerminal = true) : s'.stateOf i = some r.state :=
        state_of_terminal hg h hr ht
      cases hs : r.state with
      | waiting => exact absurd (Job.isWaiting_iff.mpr hs) hw
      | pending => exact .inl rfl
      | started => exact .inr (.inl rfl)
      | done => exact .inr (.inr rfl)
      | failed | cancelled =>
        rw [Store.Released, hterminal (by rw [hs]; rfl), hs] at hrel
        rcases hrel with h | h | h <;> cases h

/-- Through every run of the workers a row stays gated. -/
theorem WorkerRun.gated (h : WorkerRun w w')
    (hsingle : r₀.parentId = none ∨ r₀.dependencies = []) (hgate : w.store.Gated i r₀) :
    w'.store.Gated i r₀ := by
  induction h with
  | refl => exact hgate
  | step _ hg hs ih =>
    obtain ⟨s', hc, rfl⟩ := hs
    exact gated_of_commits hsingle ih hg hc

end Gated

end World
end JobWorker
