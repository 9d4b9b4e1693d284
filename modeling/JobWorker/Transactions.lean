import JobWorker.System

/-!
# What one transaction does to waiting jobs

Seen from the jobs that wait for others, every event of the system is of one of three
kinds: it inserts a job, it completes jobs, or it is quiet, which means that counters stay
and no on_done job is released. The kinds say everything about waiting rows that the
invariants over runs need.
-/

namespace JobWorker

open Relational

/-- A transaction that completes nothing: rows keep their wiring and their counts, none
starts to wait, and no on_done job outside `except` becomes pending. -/
structure Quiet (except : JobId → Prop) (s s' : Store) : Prop where
  sameWiring : s.SameWiring s'
  sameCounts : s.SameCounts s'
  waiting : ∀ i, s'.Waiting i → s.Waiting i
  notReleased : ∀ i, ¬ except i → s.OnDone i → s'.stateOf i = some .pending →
    s.stateOf i = some .pending

/-- The child cascade of `jobs` cancels row `i`. -/
def Store.Swept (s : Store) (jobs : List JobId) (children : Prop) (i : JobId) : Prop :=
  children ∧ ∃ p ∈ jobs, s.CancelledBelow p i

/-- The child cascade of `jobs` reaches a row directly. -/
def Job.ChildIn (r : Job) (jobs : List JobId) (children : Prop) : Prop :=
  children ∧ ∃ p ∈ jobs, r.parentId = some p

/-- What a completion does to a waiting row: its child cascade cancels or releases it, the
counters settle it, or it counts the completed jobs and goes on waiting. -/
inductive Completed (s s' : Store) (jobs : List JobId) (children : Prop) (i : JobId)
    (r : Job) : Prop
  | swept : s.Swept jobs children i → s'.stateOf i = some .cancelled →
      Completed s s' jobs children i r
  | settled : ¬ s.Swept jobs children i → r.ChildIn jobs children ∨ r.ReleasedBy jobs →
      s'.stateOf i = some (if r.runOnFailure then .cancelled else .pending) →
      Completed s s' jobs children i r
  | counted {r' : Job} : ¬ s.Swept jobs children i → ¬ r.ChildIn jobs children →
      ¬ r.ReleasedBy jobs → s'.get? i = some r' → r'.isWaiting = true →
      r'.wiring = r.wiring →
      r'.pendingDependencyCount = r.pendingDependencyCount - r.listed jobs →
      Completed s s' jobs children i r

/-- A transaction that completes the jobs `jobs`, with or without their child cascade. -/
structure Completion (jobs : List JobId) (children : Prop) (s s' : Store) : Prop where
  sameWiring : s.SameWiring s'
  done : ∀ i r, i ∈ jobs → s.get? i = some r → s'.stateOf i = some .done
  waiting : ∀ i, s'.Waiting i → s.Waiting i
  row : ∀ i r, i ∉ jobs → s.get? i = some r → r.isWaiting = true →
    Completed s s' jobs children i r

section Quiet

variable {except : JobId → Prop} {s s₁ s' : Store} {now : Time} {j : JobId} {js : List JobId}
  {f : Job → Job} {hk : ∀ r, (f r).identityKey = r.identityKey}

/-- Nothing happens in no transaction. -/
theorem Quiet.refl (s : Store) : Quiet except s s where
  sameWiring := .refl s
  sameCounts := .refl s
  waiting _ hw := hw
  notReleased _ _ _ hp := hp

/-- Quiet statements compose. -/
theorem Quiet.trans (h : Quiet except s s₁) (h' : Quiet except s₁ s') : Quiet except s s' where
  sameWiring := h.sameWiring.trans h'.sameWiring
  sameCounts := h.sameCounts.trans h'.sameCounts
  waiting i hw := h.waiting i (h'.waiting i hw)
  notReleased i hx hd hp :=
    h.notReleased i hx hd (h'.notReleased i hx (h.sameWiring.onDone.mpr hd) hp)

/-- A statement is quiet when each of its rows is. -/
theorem quiet_update {p : JobId → Job → Bool} {f : JobId → Job → Job} (hk : s.Keeps p f)
    (hwire : ∀ i r, (f i r).wiring = r.wiring)
    (hcount : ∀ i r, (f i r).pendingDependencyCount = r.pendingDependencyCount)
    (hwait : ∀ i r, p i r = true → (f i r).isWaiting = true → r.isWaiting = true)
    (hrel : ∀ i r, p i r = true → r.runOnFailure = false → (f i r).state = .pending →
      r.state = .pending) : Quiet except s (s.update p f hk) where
  sameWiring := Store.sameColumn_update hk hwire
  sameCounts := Store.sameColumn_update hk hcount
  waiting i := by
    rintro ⟨r', hr', hw'⟩
    rw [Store.get?_update, Option.map_eq_some_iff] at hr'
    obtain ⟨r, hr, rfl⟩ := hr'
    refine ⟨r, hr, ?_⟩
    split at hw'
    · next hp => exact hwait i r hp hw'
    · exact hw'
  notReleased i _ := by
    rintro ⟨r, hr, hd⟩ hp
    rw [Store.stateOf, Store.get?_update, hr, Option.map_some, Option.map_some,
      Option.some.injEq] at hp
    rw [Store.stateOf, hr, Option.map_some, Option.some.injEq]
    split at hp
    · next hpi => exact hrel i r hpi hd hp
    · exact hp

/-- A statement that leaves the state column alone is quiet. -/
theorem quiet_update_of_state {p : JobId → Job → Bool} {f : JobId → Job → Job}
    (hk : s.Keeps p f) (hwire : ∀ i r, (f i r).wiring = r.wiring)
    (hcount : ∀ i r, (f i r).pendingDependencyCount = r.pendingDependencyCount)
    (hstate : ∀ i r, (f i r).state = r.state) : Quiet except s (s.update p f hk) := by
  refine quiet_update hk hwire hcount (fun i r _ hw ↦ ?_) (fun i r _ _ hp ↦ ?_)
  · rwa [Job.isWaiting_iff, hstate, ← Job.isWaiting_iff] at hw
  · rwa [hstate] at hp

/-- A write of a state other than `waiting` is quiet, also when it writes `pending` on a
row that is excepted. -/
theorem quiet_write (h : s.write j f hk = .ok s') (hwire : ∀ r, (f r).wiring = r.wiring)
    (hcount : ∀ r, (f r).pendingDependencyCount = r.pendingDependencyCount)
    (hwait : ∀ r, (f r).isWaiting = false)
    (hj : except j ∨ ∀ r, (f r).state ≠ .pending) : Quiet except s s' where
  sameWiring := Store.sameColumn_write h hwire
  sameCounts := Store.sameColumn_write h hcount
  waiting i := by
    rintro ⟨r', hr', hw'⟩
    rw [Store.get?_write h] at hr'
    split at hr'
    · obtain ⟨r, _, rfl⟩ := Option.map_eq_some_iff.mp hr'
      rw [hwait] at hw'
      cases hw'
    · exact ⟨r', hr', hw'⟩
  notReleased i hx := by
    rintro ⟨r, hr, _⟩ hp
    rw [Store.stateOf, Store.get?_write h] at hp
    split at hp
    · next hij =>
      rw [hr, Option.map_some, Option.map_some, Option.some.injEq] at hp
      exact absurd hp ((hj.resolve_left fun hexc ↦ hx (hij ▸ hexc)) r)
    · exact hp

/-- The walk of a failure is quiet. -/
theorem quiet_walk (now : Time) (s : Store) (queue : List JobId) :
    Quiet except s (s.walk (failureRule now) queue) := by
  induction s, queue using Store.walk.induct (failureRule now) with
  | case1 s => rw [Store.walk]; exact .refl s
  | case2 s job queue ih =>
    rw [Store.walk]
    refine Quiet.trans (quiet_update _ ?_ ?_ ?_ ?_) ih
    · exact fun _ r ↦ (failureRule now).wiring_write job r
    · exact fun _ r ↦ (failureRule now).count_write job r
    · intro _ r _ hw
      rw [(failureRule now).not_waiting_write] at hw
      cases hw
    · intro _ r _ hd hp
      simp [failureRule, hd] at hp

/-- `_fail_dependents` is quiet. -/
theorem quiet_failDependents (now : Time) (s : Store) (self : List JobId) :
    Quiet except s (failDependents now s self) := by
  unfold failDependents
  induction self generalizing s with
  | nil => exact .refl s
  | cons j self ih =>
    refine Quiet.trans (quiet_update _ ?_ ?_ ?_ ?_) (ih _)
    · exact fun _ _ ↦ rfl
    · exact fun _ _ ↦ rfl
    · exact fun _ r hp _ ↦ isWaiting_of_dependent j r hp
    · intro _ r _ hd hp
      simp [failRow, hd] at hp

/-- Both failure cascades are quiet. -/
theorem quiet_cascadeFailureToDependents (now : Time) (s : Store) (job : JobId) :
    Quiet except s (cascadeFailureToDependents now s job) := by
  rw [cascadeFailureToDependents, cascadeChildrenOnParentFailure_eq_walk]
  exact (quiet_walk now s [job]).trans (quiet_failDependents now _ [job])

/-- The raw-SQL failure cascade is quiet. -/
theorem quiet_cascadeWorkerDied (now : Time) (s : Store) (job : JobId) :
    Quiet except s (cascadeWorkerDied now s job) := by
  have hrel (_ : JobId) (r : Job) (hd : r.runOnFailure = false)
      (hp : (workerDiedDependentRow now job r).state = .pending) : r.state = .pending := by
    simp [workerDiedDependentRow, hd] at hp
  unfold cascadeWorkerDied
  refine Quiet.trans (quiet_update _ ?_ ?_ ?_ ?_) (quiet_update _ ?_ ?_ ?_ ?_)
  · exact fun _ _ ↦ rfl
  · exact fun _ _ ↦ rfl
  · exact fun _ r hp _ ↦ (Store.isWaitingChild_iff.mp hp).2
  · exact fun i r _ ↦ hrel i r
  · exact fun _ _ ↦ rfl
  · exact fun _ _ ↦ rfl
  · exact fun _ r hp _ ↦ isWaiting_of_dependent job r hp
  · exact fun i r _ ↦ hrel i r

/-- `button_set_to_failed` is quiet. -/
theorem quiet_buttonSetToFailed (h : buttonSetToFailed now s js = .ok s') :
    Quiet except s s' := by
  obtain ⟨s₁, h₁, h₂⟩ := bind_eq_ok.mp h
  cases h₂
  refine Quiet.trans ?_ (quiet_failDependents now s₁ js)
  clear h
  induction js generalizing s with
  | nil => cases h₁; exact .refl _
  | cons j js ih =>
    rw [List.foldlM_cons] at h₁
    obtain ⟨s₂, h₂, h₁⟩ := bind_eq_ok.mp h₁
    obtain ⟨s₃, h₃, h₂⟩ := bind_eq_ok.mp h₂
    cases h₂
    rw [cascadeChildrenOnParentFailure_eq_walk] at h₁
    refine Quiet.trans (quiet_write h₃ (fun _ ↦ rfl) (fun _ ↦ rfl) (fun _ ↦ rfl) ?_)
      ((quiet_walk now s₃ [j]).trans (ih h₁))
    exact .inr fun _ hp ↦ by cases hp

/-- `button_requeue` is quiet outside the requeued jobs. -/
theorem quiet_buttonRequeue (h : buttonRequeue now s js = .ok s') :
    Quiet (· ∈ js) s s' := by
  suffices hgen : ∀ all : List JobId, (∀ j ∈ js, j ∈ all) → Quiet (· ∈ all) s s' from
    hgen js fun _ hj ↦ hj
  intro all hall
  induction js generalizing s with
  | nil => cases h; exact .refl _
  | cons job js ih =>
    rw [buttonRequeue] at h
    split at h
    · exact ih h fun j hj ↦ hall j (List.mem_cons_of_mem _ hj)
    · obtain ⟨s₁, h₁, h⟩ := bind_eq_ok.mp h
      refine Quiet.trans (quiet_write h₁ (fun _ ↦ rfl) (fun _ ↦ rfl) (fun _ ↦ rfl) ?_)
        (ih h fun j hj ↦ hall j (List.mem_cons_of_mem _ hj))
      exact .inl (hall job List.mem_cons_self)

/-- `button_cancelled` is quiet. -/
theorem quiet_buttonCancelled
    (h : Fuel.Computes (fun fuel ↦ buttonCancelled now fuel s js) (.ok s')) :
    Quiet except s s' := by
  obtain ⟨s₁, seed, h₁, hsweep⟩ := sweep_of_buttonCancelled h
  have hwrites : Quiet except s s₁ := by
    clear hsweep h
    induction js generalizing s with
    | nil => cases h₁; exact .refl _
    | cons job js ih =>
      obtain ⟨s₂, h₂, hrest⟩ := Store.writeEach_cons.mp h₁
      refine Quiet.trans (quiet_write h₂ (fun _ ↦ rfl) (fun _ ↦ rfl) (fun _ ↦ rfl) ?_)
        (ih hrest)
      exact .inr fun _ hp ↦ by cases hp
  refine hwrites.trans ⟨hsweep.sameWiring, hsweep.sameCounts,
    fun i hw ↦ ((hsweep.waiting i).mp hw).1, fun i _ _ hp ↦ ?_⟩
  rcases hsweep.stateOf i with hs | ⟨_, hs⟩
  · rwa [hs] at hp
  · rw [hs] at hp
    cases hp

/-- A statement on the locked row of an acquire is quiet. -/
theorem quiet_updateLocked {job : JobId} {r : Job} (hr : s.get? job = some r)
    (ha : r.state.isActive = true) (g : Job → Job)
    (hk : (g r).identityKey = r.identityKey) (hwire : ∀ q, (g q).wiring = q.wiring)
    (hcount : ∀ q, (g q).pendingDependencyCount = q.pendingDependencyCount)
    (hwait : ∀ q, (g q).isWaiting = false) (hpend : ∀ q, (g q).state ≠ .pending) :
    Quiet except s (s.updateLocked job r hr ha g hk) := by
  unfold Store.updateLocked Store.updateRow
  refine quiet_update _ (fun _ ↦ hwire) (fun _ ↦ hcount) (fun _ q _ hw ↦ ?_) fun _ q _ _ hp ↦ ?_
  · rw [hwait] at hw
    cases hw
  · exact absurd hp (hpend q)

/-- `acquire_job_lock` is quiet. -/
theorem quiet_acquireJobLock (cfg : WorkerConfig) (limits : QueueLimits)
    (locked : JobId → Bool) (now : Time) (s : Store) :
    Quiet except s (acquireJobLock cfg limits locked now s).1 := by
  have hstarted {st : JobState} (h : st = .started ∨ st = .failed) : st ≠ .pending := by
    rintro rfl
    rcases h with h | h <;> cases h
  have heffect := acquireEffect cfg limits locked now s
  generalize acquireJobLock cfg limits locked now s = out at heffect
  cases heffect with
  | idle => exact .refl s
  | pickup hr ha hs =>
    exact quiet_updateLocked hr (WorkerConfig.isActive_of_acquirable ha) (cfg.pickupRow now) rfl
      (fun _ ↦ rfl) (fun _ ↦ rfl) (fun _ ↦ rfl) fun _ ↦ hstarted (.inl rfl)
  | reclaim hr ha hs he =>
    exact quiet_updateLocked hr (WorkerConfig.isActive_of_acquirable ha) (cfg.reclaimRow now) rfl
      (fun _ ↦ rfl) (fun _ ↦ rfl) (fun _ ↦ rfl) fun _ ↦ hstarted (.inl rfl)
  | exhaust hr ha hs he =>
    refine Quiet.trans ?_ (quiet_cascadeWorkerDied now _ _)
    exact quiet_updateLocked hr (WorkerConfig.isActive_of_acquirable ha) (workerDiedRow now) rfl
      (fun _ ↦ rfl) (fun _ ↦ rfl) (fun _ ↦ rfl) fun _ ↦ hstarted (.inr rfl)

/-- `handle_exception` is quiet outside the job of its attempt. -/
theorem quiet_handleException {cfg : WorkerConfig} {exc : JobException} {traceback : String}
    (h : handleException cfg now exc traceback s j = .ok s') : Quiet (fun i ↦ i = j) s s' := by
  cases hr : s.get? j with
  | none =>
    rw [handleException_of_absent hr] at h
    cases h
    exact .refl _
  | some r =>
    obtain ⟨s₁, hw, h⟩ := handleException_eq h hr
    have hwrite : Quiet (fun i ↦ i = j) s s₁ := by
      refine quiet_write hw ?_ ?_ ?_ (.inl rfl)
      all_goals intro q; cases dispositionOf cfg now exc r <;> rfl
    subst h
    split
    · exact hwrite
    · exact hwrite.trans (quiet_cascadeFailureToDependents now s₁ j)

/-- The method asked for a retry. -/
def Execution.postpones (run : Execution) : Prop :=
  ∃ exc traceback, run.outcome = .raises exc traceback ∧ exc.retryable?.isSome = true

/-- `run_now` is quiet when the method raises, outside its job when it is postponed. -/
theorem quiet_runJob {run : Execution} {raised : Bool} {exc : JobException}
    {traceback : String} (ho : run.outcome = .raises exc traceback)
    (h : runJob run s j = .ok (s', raised)) :
    Quiet (fun i ↦ i = j ∧ run.postpones) s s' := by
  cases runEffect h with
  | returned ho' => cases ho.symm.trans ho'
  | postponed ho' hretry hw =>
    refine quiet_write hw (fun _ ↦ rfl) (fun _ ↦ rfl) (fun _ ↦ rfl) (.inl ⟨rfl, ?_⟩)
    exact ⟨_, _, ho', Option.isSome_iff_exists.mpr ⟨_, hretry⟩⟩
  | crashed _ _ hw =>
    refine Quiet.trans (quiet_write hw ?_ ?_ ?_ (.inr fun _ hp ↦ by cases hp))
      (quiet_cascadeFailureToDependents run.finish _ j)
    all_goals exact fun _ ↦ rfl

/-- A job that asked `run_now` for a retry is pending. -/
theorem stateOf_runJob_of_postpones {run : Execution} {raised : Bool} {r : Job}
    (hpost : run.postpones) (h : runJob run s j = .ok (s', raised)) (hr : s.get? j = some r) :
    s'.stateOf j = some .pending := by
  obtain ⟨exc, traceback, ho, hretry⟩ := hpost
  cases runEffect h with
  | returned ho' => cases ho.symm.trans ho'
  | postponed _ _ hw =>
    rw [Store.stateOf, Store.get?_write hw, if_pos rfl, hr]
    rfl
  | crashed ho' hnone =>
    cases ho.symm.trans ho'
    rw [hnone] at hretry
    cases hretry

end Quiet

section Completion

variable {s s' : Store} {now : Time} {j : JobId} {self : List JobId}

/-- `finalize_job` and `run_now` complete one job with its child cascade. -/
theorem CompletesSuccessfully.completion (h : CompletesSuccessfully s j s') :
    Completion [j] True s s' where
  sameWiring := h.sameWiring
  done i r hi hr := by
    rw [List.mem_singleton] at hi
    subst hi
    exact h.stateOf_self hr
  waiting _ hw := h.waiting_mono hw
  row i r hi hr hw := by
    rw [List.mem_singleton] at hi
    have hswept : s.Swept [j] True i ↔ s.CancelledBelow j i := by simp [Store.Swept]
    have hchild : r.ChildIn [j] True ↔ r.parentId = some j := by simp [Job.ChildIn]
    rcases h.waiting_cases hi hr hw with ⟨hb, hs⟩ | ⟨hb, hset, hs⟩ | hcounted
    · exact .swept (hswept.mpr hb) hs
    · exact .settled (mt hswept.mp hb) (hset.imp_left hchild.mpr) hs
    · obtain ⟨r', hr', hw', hwire, hp, hn, hc⟩ := hcounted
      refine .counted (mt hswept.mp fun hb ↦ ?_) (mt hchild.mp hp) hn hr' hw' hwire hc
      have hs := (h.row hi hr).1 hb
      rw [Store.stateOf, hr', Option.map_some, Job.isWaiting_iff.mp hw'] at hs
      cases hs

/-- `button_set_to_done` completes its jobs without their child cascades. -/
theorem completion_buttonSetToDone (h : buttonSetToDone now s self = .ok s') :
    Completion self False s s' where
  sameWiring := sameWiring_buttonSetToDone h
  done _ _ hi hr := stateOf_buttonSetToDone_self h hi hr
  waiting i hw := by
    obtain ⟨r', hr', hw'⟩ := hw
    obtain ⟨r, hr, _⟩ := (sameWiring_buttonSetToDone h).row_before hr'
    have hs : s'.stateOf i = some .waiting := by
      rw [Store.stateOf, hr', Option.map_some, Job.isWaiting_iff.mp hw']
    have hi : i ∉ self := fun hi ↦ by
      rw [stateOf_buttonSetToDone_self h hi hr] at hs
      cases hs
    rw [stateOf_buttonSetToDone h hi hr, Option.some.injEq] at hs
    refine (Store.waiting_iff hr).mpr ?_
    split at hs
    · next hc => exact hc.1
    · exact Job.isWaiting_iff.mpr hs
  row i r hi hr hw := by
    have hswept : ¬ s.Swept self False i := fun h ↦ h.1
    by_cases hc : r.ReleasedBy self
    · refine .settled hswept (.inr hc) ?_
      have hboth : r.isWaiting = true ∧ r.ReleasedBy self := ⟨hw, hc⟩
      rw [stateOf_buttonSetToDone h hi hr, if_pos hboth]
    · obtain ⟨r', hr', hwire, hw', hcount⟩ := row_buttonSetToDone h hi hr hw hc
      exact .counted hswept (fun h ↦ h.1) hc hr' hw' hwire hcount

/-- A job that waits behind a completion was not completed. -/
theorem Completion.not_mem {jobs : List JobId} {children : Prop} {i : JobId}
    (h : Completion jobs children s s') (hw : s'.Waiting i) : i ∉ jobs := by
  obtain ⟨r', hr', hw'⟩ := hw
  obtain ⟨r, hr, _⟩ := h.sameWiring.row_before hr'
  intro hi
  have hs := h.done i r hi hr
  rw [Store.stateOf, hr', Option.map_some, Job.isWaiting_iff.mp hw'] at hs
  cases hs

end Completion

namespace World

/-- Only `button_set_to_done` completes jobs without their child cascade. -/
def cascadesToChildren : Event → Prop
  | .buttonSetToDone _ => False
  | _ => True

/-- Rows that an event may write `pending` by itself. -/
def rewrites : Event → JobId → Prop
  | .buttonRequeue self, i => i ∈ self
  | .handleException a _ _, i => i = a.job
  | .runNow job run, i => i = job ∧ run.postpones
  | _, _ => False

/-- What a committed event does to waiting jobs. -/
inductive Transaction (w : World) (e : Event) (s' : Store) : Prop
  | quiet : completes e = [] → Quiet (rewrites e) w.store s' → Transaction w e s'
  | completion : Completion (completes e) (cascadesToChildren e) w.store s' →
      Transaction w e s'
  | insertion {env : OrmEnv} {args : EnqueueArgs} {eta : Option Eta} {j : JobId} :
      e = .enqueue env args → w.store.create (enqueueVals env w.now args eta) = .ok (s', j) →
      Transaction w e s'

/-- Every event is quiet, completes jobs, or inserts one. -/
theorem Commits.transaction {w : World} {e : Event} {s' : Store} (h : w.Commits e s') :
    Transaction w e s' := by
  cases h with
  | tick => exact .quiet rfl (.refl _)
  | @enqueue env args s' j h =>
    rcases enqueue_cases h with ⟨rfl, _⟩ | ⟨eta, _, _, hcreate⟩
    · exact .quiet rfl (.refl _)
    · exact .insertion rfl hcreate
  | @acquireJobLock cfg limits locked =>
    exact .quiet rfl (quiet_acquireJobLock cfg limits locked w.now w.store)
  | heartbeatJob | updateHeartbeats | handleTimeout | clearWorkerOwnership =>
    exact .quiet rfl (quiet_update_of_state _ (fun _ _ ↦ rfl) (fun _ _ ↦ rfl) fun _ _ ↦ rfl)
  | die => exact .quiet rfl (.refl _)
  | finalizeJob _ h => exact .completion (CompletesSuccessfully.finalizeJob h).completion
  | handleException _ h => exact .quiet rfl (quiet_handleException h)
  | @runNow job run s' raised _ h =>
    cases ho : run.outcome with
    | returns serialized =>
      have hc : completes (.runNow job run) = [job] := by rw [completes, ho]
      obtain rfl := not_raised_of_returns ho h
      refine .completion ?_
      rw [hc]
      exact (CompletesSuccessfully.runNow ho h).completion
    | raises exc traceback =>
      have hc : completes (.runNow job run) = [] := by rw [completes, ho]
      exact .quiet hc (quiet_runJob ho h)
  | buttonSetToDone _ h => exact .completion (completion_buttonSetToDone h)
  | buttonSetToFailed _ h => exact .quiet rfl (quiet_buttonSetToFailed h)
  | buttonRequeue _ h => exact .quiet rfl (quiet_buttonRequeue h)
  | buttonCancelled _ h => exact .quiet rfl (quiet_buttonCancelled h)

variable {w : World} {e : Event} {s' : Store}

/-- A row keeps its wiring through every event, and never starts to wait again. -/
theorem Transaction.row (h : Transaction w e s') {i : JobId} {r : Job}
    (hr : w.store.get? i = some r) :
    ∃ r', s'.get? i = some r' ∧ r'.wiring = r.wiring ∧
      (r'.isWaiting = true → r.isWaiting = true) := by
  have hkeep (hsame : w.store.SameWiring s') (hwait : ∀ i, s'.Waiting i → w.store.Waiting i) :
      ∃ r', s'.get? i = some r' ∧ r'.wiring = r.wiring ∧
        (r'.isWaiting = true → r.isWaiting = true) := by
    obtain ⟨r', hr', hwire⟩ := hsame.row hr
    exact ⟨r', hr', hwire, fun hw ↦ (Store.waiting_iff hr).mp (hwait i ⟨r', hr', hw⟩)⟩
  cases h with
  | quiet _ hq => exact hkeep hq.sameWiring hq.waiting
  | completion hc => exact hkeep hc.sameWiring hc.waiting
  | @insertion env args eta j _ hcreate =>
    exact ⟨r, Store.get?_create_of_some hcreate hr, rfl, id⟩

/-- An attempt behind an event was there before, or its row has just been acquired. -/
theorem Commits.attempt (h : w.Commits e s') {a : Attempt} (ha : a ∈ w.attemptsAfter e) :
    a ∈ w.attempts ∨ a.id = w.nextAttempt ∧ Holds s' a := by
  cases h with
  | @acquireJobLock cfg limits locked =>
    have heffect := acquireEffect cfg limits locked w.now w.store
    simp only [attemptsAfter] at ha
    generalize JobWorker.acquireJobLock cfg limits locked w.now w.store = out at heffect ha
    have hheld {job : JobId} {r : Job} (hr : w.store.get? job = some r)
        (hact : r.state.isActive = true) {f : Job → Job}
        (hk : (f r).identityKey = r.identityKey)
        (hown : (f r).ownedBy cfg.workerUuid = true) :
        Holds (w.store.updateLocked job r hr hact f hk) ⟨w.nextAttempt, cfg, job⟩ :=
      ⟨f r, by rw [get?_updateLocked, if_pos rfl], hown⟩
    cases heffect with
    | idle => exact .inl ha
    | exhaust => exact .inl ha
    | pickup hr hacq =>
      rcases List.mem_cons.mp ha with rfl | ha
      · refine .inr ⟨rfl, hheld hr (WorkerConfig.isActive_of_acquirable hacq) rfl ?_⟩
        simp [Job.ownedBy, WorkerConfig.pickupRow]
      · exact .inl ha
    | reclaim hr hacq =>
      rcases List.mem_cons.mp ha with rfl | ha
      · refine .inr ⟨rfl, hheld hr (WorkerConfig.isActive_of_acquirable hacq) rfl ?_⟩
        simp [Job.ownedBy, WorkerConfig.reclaimRow, WorkerConfig.pickupRow]
      · exact .inl ha
  | clearWorkerOwnership | die | finalizeJob | handleException =>
    exact .inl (List.mem_of_mem_filter ha)
  | tick | enqueue | heartbeatJob | updateHeartbeats | handleTimeout | runNow | buttonSetToDone
  | buttonSetToFailed | buttonRequeue | buttonCancelled => exact .inl ha

/-- The job of every attempt exists and does not wait. -/
def AttemptsRun (w : World) : Prop :=
  ∀ a ∈ w.attempts, ∃ r, w.store.get? a.job = some r ∧ r.isWaiting = false

/-- Attempts keep running on jobs that do not wait. -/
theorem AttemptsRun.after (hw : w.AttemptsRun) (h : w.Commits e s') :
    (w.after e s').AttemptsRun := by
  intro a ha
  rcases h.attempt ha with ha | ⟨_, r, hr, hown⟩
  · obtain ⟨r, hr, hn⟩ := hw a ha
    obtain ⟨r', hr', _, hwait⟩ := h.transaction.row hr
    exact ⟨r', hr', Bool.eq_false_iff.mpr fun hw' ↦ Bool.eq_false_iff.mp hn (hwait hw')⟩
  · refine ⟨r, hr, ?_⟩
    have hstarted := (Bool.and_eq_true_iff.mp hown).1
    rw [Job.isWaiting, beq_eq_false_iff_ne, beq_iff_eq.mp hstarted]
    exact fun h ↦ by cases h

end World
end JobWorker
