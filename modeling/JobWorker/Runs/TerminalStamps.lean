import JobWorker.Cascades.Stamps
import JobWorker.History
import JobWorker.RowEffects

/-!
# Finished jobs and the garbage collector

`_gc_old_jobs` sees a finished job by its stamp (`job_worker/models/queue_job.py:1056–1090`).
Over whole runs every finished job is stamped as long as no job fails for good on which an
on_done job waits: the cascades of a failure write the state alone.
-/

namespace JobWorker

open Relational Store

namespace Store

/-- The waiting on_done jobs that the failure of `js` takes along at once. -/
def takenAlong (s : Store) (js : List JobId) : List JobId :=
  s.jobs.select fun i r ↦
    r.isWaiting && !r.runOnFailure && !js.contains i && js.any fun j ↦ decide (r.WaitsOn j)

/-- They wait on one of `js`. -/
theorem mem_takenAlong {s : Store} {js : List JobId} {i : JobId} :
    i ∈ s.takenAlong js ↔ ∃ r, s.get? i = some r ∧ r.isWaiting = true ∧ r.runOnFailure = false ∧
      i ∉ js ∧ ∃ j ∈ js, r.WaitsOn j := by
  simp [takenAlong, Table.mem_select, get?, and_assoc]

/-- Where a failure moves an on_done job it takes one along at once. -/
theorem exists_takenAlong {s : Store} {js : List JobId} {i : JobId} (h : s.FailureHit js i)
    (hd : s.OnDone i) : ∃ k, k ∈ s.takenAlong js := by
  rcases h with h | ⟨⟨⟨r, hr, hw⟩, hi⟩, j, hj, hdep⟩
  · induction h with
    | @seed b hseed henter =>
      obtain ⟨j, hj, r, hr, hp⟩ := hseed
      refine ⟨b, mem_takenAlong.mpr ⟨r, hr, (waiting_iff hr).mp henter.1, ?_, henter.2, j, hj,
        .inl hp⟩⟩
      exact (onDone_iff hr).mp hd
    | step _ hthrough _ _ ih => exact ih hthrough
  · exact ⟨i, mem_takenAlong.mpr ⟨r, hr, hw, (onDone_iff hr).mp hd, hi, j, hj,
      .inr ((dependsOn_iff hr).mp hdep)⟩⟩

end Store

namespace World

/-- The jobs that an event fails for good by themselves, not by a cascade. -/
def failsForGood (w : World) : Event → List JobId
  | .handleException a exc _ =>
    match (w.store.get? a.job).map (dispositionOf a.cfg w.now exc) with
    | some (.fail _) => [a.job]
    | _ => []
  | .acquireJobLock cfg limits locked =>
    match (cfg.candidates limits w.now w.store).find? fun i ↦ !locked i with
    | some j =>
      if (w.store.get? j).any fun r ↦ r.state == .started && exhausted r then [j] else []
    | none => []
  | .runNow job run =>
    match run.outcome with
    | .raises exc _ => if exc.retryable?.isNone then [job] else []
    | .returns _ => []
  | .buttonSetToFailed self => self
  | _ => []

/-- No on_done job waits on a job that the event fails for good. -/
def TakesNoneAlong (w : World) (e : Event) : Prop :=
  w.store.takenAlong (w.failsForGood e) = []

instance (w : World) (e : Event) : Decidable (w.TakesNoneAlong e) :=
  inferInstanceAs (Decidable (_ = []))

/-- Every finished job is stamped and deleted by a garbage collection whose clock has passed
the stamp by the retention, and no collection deletes a job that is not finished. -/
structure Collectable (w : World) : Prop where
  finished : ∀ i r, w.store.get? i = some r → r.state.isTerminal = true →
    ∃ stamp, r.stamp = some stamp ∧ ∀ now retentionDays,
      stamp + retentionDays * day ≤ datetimeNow now →
        (gcOldJobs now retentionDays w.store).get? i = none
  unfinished : ∀ i r, w.store.get? i = some r → r.state.isTerminal = false →
    ∀ now retentionDays, (gcOldJobs now retentionDays w.store).stateOf i = some r.state

/-- That is to say, every row is dated. -/
theorem collectable_iff_dated {w : World} :
    w.Collectable ↔ ∀ i r, w.store.get? i = some r → r.Dated := by
  constructor
  · intro h i r hr ht
    obtain ⟨stamp, hstamp, _⟩ := h.finished i r hr ht
    rw [hstamp]
    rfl
  · intro h
    refine ⟨fun i r hr ht ↦ ?_, fun i r hr ht now retentionDays ↦ ?_⟩
    · obtain ⟨stamp, hstamp⟩ := Option.isSome_iff_exists.mp (h i r hr ht)
      refine ⟨stamp, hstamp, fun now retentionDays hle ↦ ?_⟩
      exact get?_deleteOldJobs_of_isOld hr
        (Job.isOld_iff.mpr ⟨stamp, hstamp, Int.le_sub_right_of_add_le hle⟩)
    · have hold : r.isOld (datetimeNow now - retentionDays * day) = false := by
        rw [Bool.eq_false_iff, ne_eq, Job.isOld_iff]
        rintro ⟨stamp, hstamp, _⟩
        rw [Job.isTerminal_of_stamp hstamp] at ht
        cases ht
      obtain ⟨parentId, hrow⟩ := get?_deleteOldJobs_of_not_isOld hr hold
      rw [stateOf, gcOldJobs, hrow]
      rfl

section Step

variable {w : World} {e : Event} {s' : Store} {i : JobId} {r r' : Job}

/-- Row by row, `s'` comes from `s` by a transaction that fails the jobs `js` for good, and
without a stamp only others along with them. -/
abbrev StampsBeside (js : List JobId) (s s' : Store) : Prop :=
  s.Rowwise (fun i ↦ Stamped (js ≠ [] ∧ i ∉ js)) s'

/-- A transaction that fails nothing without a stamp. -/
theorem stampsBeside_of_stampsTo {s : Store} {js : List JobId} (h : s.StampsTo False s') :
    StampsBeside js s s' :=
  h.mono fun _ _ _ hr ↦ hr.mono False.elim

/-- A transaction that fails one job for good. -/
theorem stampsBeside_of_failed {s : Store} {js : List JobId} {j : JobId} (heq : js = [j])
    (h : s.Rowwise (fun i ↦ Stamped (i ∉ [j])) s') : StampsBeside js s s' := by
  rw [heq]
  exact h.mono fun _ _ _ hr ↦ hr.mono fun hi ↦ ⟨List.cons_ne_nil j [], hi⟩

/-- An acquire stamps the job whose exhausted attempt it reclaims. -/
theorem stampsBeside_acquireJobLock (w : World) (cfg : WorkerConfig) (limits : QueueLimits)
    (locked : JobId → Bool) :
    StampsBeside (w.failsForGood (.acquireJobLock cfg limits locked)) w.store
      (JobWorker.acquireJobLock cfg limits locked w.now w.store).1 := by
  cases hf : (cfg.candidates limits w.now w.store).find? fun i ↦ !locked i with
  | none =>
    unfold JobWorker.acquireJobLock
    rw [hf]
    exact stampsBeside_of_stampsTo (.same _)
  | some job =>
    obtain ⟨r, hrow, hp⟩ := Table.mem_selectBy.mp (List.mem_of_find?_eq_some hf)
    have hr : w.store.get? job = some r := hrow
    have ha := WorkerConfig.isActive_of_acquirable (Bool.and_eq_true_iff.mp hp).1
    rw [acquireJobLock_of_find hf hr]
    unfold acquireRow
    split
    · exact stampsBeside_of_stampsTo
        (stampsTo_updateLocked hr ha rfl rfl (dated_of_not_terminal rfl))
    · next hs =>
      split
      · next he =>
        have hstarted := not_not.mp hs
        have hwritten : w.store.StampsTo True
            (w.store.updateLocked job r hr ha (workerDiedRow w.now) rfl) :=
          stampsTo_updateLocked hr ha rfl rfl fun _ ↦ rfl
        have hrow' : (w.store.updateLocked job r hr ha (workerDiedRow w.now) rfl).get? job =
            (w.store.get? job).map (workerDiedRow w.now) := by
          refine (get?_updateLocked hr ha (workerDiedRow w.now) rfl).trans ?_
          rw [if_pos rfl, hr, Option.map_some]
        refine stampsBeside_of_failed ?_ (stampsTo_failed hwritten hrow' (fun _ ↦ rfl)
          (fun _ _ ↦ rfl) (stampsTo_cascadeWorkerDied w.now _ job))
        simp [failsForGood, hf, hr, hstarted, he]
      · exact stampsBeside_of_stampsTo
          (stampsTo_updateLocked hr ha rfl rfl (dated_of_not_terminal rfl))

/-- An exception stamps the job if it was the last. -/
theorem stampsBeside_handleException {a : Attempt} {exc : JobException} {traceback : String}
    (h : JobWorker.handleException a.cfg w.now exc traceback w.store a.job = .ok s') :
    StampsBeside (w.failsForGood (.handleException a exc traceback)) w.store s' := by
  cases hr : w.store.get? a.job with
  | none =>
    rw [handleException_of_absent hr] at h
    cases h
    exact stampsBeside_of_stampsTo (.same _)
  | some r =>
    obtain ⟨s₁, hw, rfl⟩ := handleException_eq h hr
    have hwaits := isWaiting_handledRow w.now traceback (dispositionOf a.cfg w.now exc r)
    have hdated := dated_handledRow w.now traceback (dispositionOf a.cfg w.now exc r)
    have hwritten {fails : Prop} : w.store.StampsTo fails s₁ := stampsTo_write hw hwaits hdated
    have hrow : s₁.get? a.job = (w.store.get? a.job).map
        (handledRow w.now traceback (dispositionOf a.cfg w.now exc r)) := by
      rw [get?_write hw, if_pos rfl]
    cases hd : dispositionOf a.cfg w.now exc r with
    | retry => exact stampsBeside_of_stampsTo hwritten
    | fail =>
      refine stampsBeside_of_failed ?_ (stampsTo_failed hwritten hrow hwaits hdated
        (stampsTo_cascadeFailureToDependents w.now s₁ _))
      simp [failsForGood, hr, hd]

/-- `run_now` stamps the job. -/
theorem stampsBeside_runJob {job : JobId} {run : Execution} {raised : Bool}
    (h : runJob run w.store job = .ok (s', raised)) :
    StampsBeside (w.failsForGood (.runNow job run)) w.store s' := by
  cases runEffect h with
  | returned _ hw =>
    exact stampsBeside_of_stampsTo ((stampsTo_write hw (fun _ ↦ rfl) fun _ _ ↦ rfl).then
      (stampsTo_cascadeSuccessToDependents run.finish _ job))
  | postponed _ _ hw =>
    exact stampsBeside_of_stampsTo
      (stampsTo_write hw (fun _ ↦ rfl) fun _ ↦ dated_of_not_terminal rfl)
  | @crashed exc traceback s₁ ho hretry hw =>
    have hwritten : w.store.StampsTo True s₁ := stampsTo_write hw (fun _ ↦ rfl) fun _ _ ↦ rfl
    have hrow : s₁.get? job = (w.store.get? job).map (crashedRow run traceback) := by
      rw [get?_write hw, if_pos rfl]
    refine stampsBeside_of_failed ?_ (stampsTo_failed hwritten hrow (fun _ ↦ rfl)
      (fun _ _ ↦ rfl) (stampsTo_cascadeFailureToDependents run.finish _ job))
    simp [failsForGood, ho, hretry]

/-- `button_set_to_failed` stamps its records. -/
theorem stampsBeside_buttonSetToFailed {self : List JobId}
    (h : JobWorker.buttonSetToFailed w.now w.store self = .ok s') :
    StampsBeside self w.store s' := by
  obtain ⟨s₁, hw, h⟩ := bind_eq_ok.mp h
  cases h
  cases self with
  | nil =>
    cases hw
    exact stampsBeside_of_stampsTo (.same _)
  | cons j self =>
    have hcascade := stampsTo_failDependents w.now s₁ (j :: self)
    obtain ⟨hloop, hself⟩ := stampsTo_failEach (fun _ ↦ rfl) (fun _ _ ↦ rfl) hw
    refine ((hloop.then hcascade).outside fun i hi r hr ↦ ?_).mono
      fun _ _ _ hr ↦ hr.mono fun hi ↦ ⟨List.cons_ne_nil j self, hi⟩
    obtain ⟨q, hq, hwaits, hdated⟩ := hself i hi r hr
    exact hcascade.dated hq hwaits hdated

/-- Every event but a creation stamps the rows that it finishes, other than by the cascade of
a failure. -/
theorem Commits.stamps (h : w.Commits e s') :
    StampsBeside (w.failsForGood e) w.store s' ∨ ∃ env args eta j, e = .enqueue env args ∧
      w.store.create (enqueueVals env w.now args eta) = .ok (s', j) := by
  cases h with
  | tick | die => exact .inl (stampsBeside_of_stampsTo (.same _))
  | enqueue h =>
    rcases enqueue_cases h with ⟨rfl, _⟩ | ⟨eta, _, _, hcreate⟩
    · exact .inl (stampsBeside_of_stampsTo (.same _))
    · exact .inr ⟨_, _, eta, _, rfl, hcreate⟩
  | acquireJobLock => exact .inl (stampsBeside_acquireJobLock w _ _ _)
  | heartbeatJob | updateHeartbeats | handleTimeout | clearWorkerOwnership =>
    exact .inl (stampsBeside_of_stampsTo (stampsTo_update _ fun _ _ ↦ .kept rfl rfl rfl rfl))
  | finalizeJob _ h =>
    obtain ⟨s₁, hw, h⟩ := bind_eq_ok.mp h
    cases h
    exact .inl (stampsBeside_of_stampsTo ((stampsTo_write hw (fun _ ↦ rfl) fun _ _ ↦ rfl).then
      (stampsTo_cascadeSuccessToDependents w.now s₁ _)))
  | handleException _ h => exact .inl (stampsBeside_handleException h)
  | runNow _ h => exact .inl (stampsBeside_runJob h)
  | buttonSetToDone _ h =>
    obtain ⟨s₁, hw, h⟩ := bind_eq_ok.mp h
    cases h
    refine .inl (stampsBeside_of_stampsTo ((rowwise_writeEach hw fun r ↦ ?_).then
      (rowwise_releaseDependents (fun _ ↦ stamped_releaseRow) s₁ _)))
    exact .moved rfl fun _ ↦ rfl
  | buttonSetToFailed _ h => exact .inl (stampsBeside_buttonSetToFailed h)
  | buttonRequeue _ h => exact .inl (stampsBeside_of_stampsTo (stampsTo_buttonRequeue h))
  | buttonCancelled _ h =>
    obtain ⟨s₁, hw, hcascade⟩ := (allowsCancellation_stamped w.now).buttonCancelled h
    refine .inl (stampsBeside_of_stampsTo ((rowwise_writeEach hw fun r ↦ ?_).then hcascade))
    exact .moved rfl fun _ ↦ rfl

/-- An event that fails jobs for good runs one of the failure cascades. -/
theorem Commits.fails (h : w.Commits e s') (hne : w.failsForGood e ≠ []) :
    FailsPermanently w.store (w.failsForGood e) s' ∨
      ∃ cfg limits locked j r, w.failsForGood e = [j] ∧
        ReclaimExhausts cfg limits locked w.now w.store j r ∧
          s' = (JobWorker.acquireJobLock cfg limits locked w.now w.store).1 := by
  cases h with
  | @acquireJobLock cfg limits locked =>
    right
    revert hne
    rw [failsForGood]
    split
    · next j hf =>
      intro hne
      have hrow := (ite_ne_right_iff.mp hne).1
      have hexists := hrow
      rw [Option.any_eq_true] at hexists
      obtain ⟨r, hr, hp⟩ := hexists
      rw [Bool.and_eq_true, beq_iff_eq] at hp
      exact ⟨cfg, limits, locked, j, r, if_pos hrow, ⟨hf, hr, hp.1, hp.2⟩, rfl⟩
    · exact fun hne ↦ absurd rfl hne
  | @handleException a exc traceback _ _ h =>
    left
    revert hne
    rw [failsForGood]
    split
    · next hd =>
      intro _
      obtain ⟨r, hr, hd⟩ := Option.map_eq_some_iff.mp hd
      exact .handleException hr hd h
    · exact fun hne ↦ absurd rfl hne
  | @runNow job run _ raised _ h =>
    left
    revert hne
    rw [failsForGood]
    split
    · next exc traceback ho =>
      intro hne
      obtain ⟨hretry, _⟩ := ite_ne_right_iff.mp hne
      rw [if_pos hretry]
      cases runEffect h with
      | returned ho' => cases ho.symm.trans ho'
      | postponed ho' hretry' =>
        cases ho.symm.trans ho'
        rw [hretry'] at hretry
        cases hretry
      | crashed => exact .runNow h
    · exact fun hne ↦ absurd rfl hne
  | buttonSetToFailed _ h => exact .inl (.buttonSetToFailed h)
  | _ => exact absurd rfl hne

/-- What fails along with the jobs that an event fails for good. -/
theorem Commits.stateOf_takenAlong (h : w.Commits e s') (hne : w.failsForGood e ≠ [])
    (hr : w.store.get? i = some r) (hw : r.isWaiting = true) (hd : r.runOnFailure = false)
    (hi : i ∉ w.failsForGood e) :
    (i ∈ w.store.takenAlong (w.failsForGood e) → s'.stateOf i = some .failed) ∧
      (s'.stateOf i = some .failed → w.store.takenAlong (w.failsForGood e) ≠ []) := by
  have hwaits (hs : s'.stateOf i = some .failed) (hkeep : s'.stateOf i = some r.state) :
      False := by
    rw [hs, Job.isWaiting_iff.mp hw] at hkeep
    cases hkeep
  rcases h.fails hne with hfails | ⟨cfg, limits, locked, j, q, heq, hexhausts, rfl⟩
  · obtain ⟨hhit, hnot⟩ := hfails.stateOf hi hr
    constructor
    · intro hmem
      obtain ⟨_, hr', _, _, _, k, hk, hwait⟩ := mem_takenAlong.mp hmem
      obtain rfl := Option.some.inj (hr.symm.trans hr')
      rw [hhit (hit_of_waitsOn hr hw hi hk hwait), hd]
      rfl
    · intro hs
      have hit : w.store.FailureHit (w.failsForGood e) i := by
        by_contra hn
        exact hwaits hs (hnot hn)
      obtain ⟨k, hk⟩ := exists_takenAlong hit ((onDone_iff hr).mpr hd)
      exact List.ne_nil_of_mem hk
  · rw [heq, List.mem_singleton] at hi
    have hrow : hexhausts.failed.get? i = some r := by rw [hexhausts.get?, if_neg hi, hr]
    obtain ⟨htaken, hleft⟩ := @stateOf_cascadeWorkerDied_cases w.now _ j _ _ hrow
    rw [heq, hexhausts.acquire] at *
    constructor
    · intro hmem
      obtain ⟨_, hr', _, _, _, k, hk, hwait⟩ := mem_takenAlong.mp hmem
      obtain rfl := Option.some.inj (hr.symm.trans hr')
      rw [List.mem_singleton] at hk
      rw [htaken ⟨hw, hk ▸ hwait⟩, hd]
      rfl
    · intro hs
      by_contra hnil
      refine hwaits hs (hleft fun hwait ↦ ?_)
      have hmem : i ∈ w.store.takenAlong [j] :=
        mem_takenAlong.mpr ⟨r, hr, hw, hd, by simpa using hi, j, List.mem_singleton_self j,
          hwait.2⟩
      rw [hnil] at hmem
      cases hmem

/-- A job that waits has no stamp. -/
theorem Reachable.completedAt_of_waiting {guard : World → Event → Prop} (h : Reachable guard w)
    (hr : w.store.get? i = some r) (hw : r.isWaiting = true) : r.completedAt = none := by
  refine h.invariant (P := fun w ↦ ∀ i r, w.store.get? i = some r → r.isWaiting = true →
    r.completedAt = none) (fun now i r hr ↦ ?_) (fun w e s' ih _ hc i r' hr' hw' ↦ ?_) i r hr hw
  · have hnone := (Store.get?_empty i).symm.trans hr
    cases hnone
  · rcases hc.stamps with hrows | ⟨env, args, eta, j, _, hcreate⟩
    · obtain ⟨r, hr, hstamped⟩ := hrows.row_before hr'
      cases hstamped with
      | kept hs _ hcompleted => exact hcompleted.trans (ih i r hr (isWaiting_of_state hs ▸ hw'))
      | moved hn => cases hn.symm.trans hw'
      | failed _ _ _ hs =>
        rw [Job.isWaiting, hs] at hw'
        cases hw'
    · rcases get?_create_cases hcreate hr' with ⟨_, rfl⟩ | hr
      · rfl
      · exact ih i r' hr hw'

/-- A waiting row that an event fails on the way to others keeps its stamp. -/
theorem RowEffect.completedAt (h : RowEffect w e i r r') (hw : r.isWaiting = true)
    (hs : r'.state = .failed) (hne : w.failsForGood e ≠ []) (hi : i ∉ w.failsForGood e) :
    r'.completedAt = r.completedAt := by
  cases h with
  | cascaded hc => cases hc <;> rfl
  | acquired =>
    unfold WorkerConfig.acquiredRow at hs
    split at hs <;> cases hs
  | workerDied _ hstarted =>
    rw [Job.isWaiting, hstarted] at hw
    cases hw
  | heartbeatJob | updateHeartbeats | handleTimeout | clearWorkerOwnership => rfl
  | finalizeJob => cases hs
  | handleException =>
    rw [failsForGood] at hne hi
    split at hne
    · next hd => simp [hd] at hi
    · exact absurd rfl hne
  | called hcalled =>
    cases e with
    | runNow =>
      rw [failsForGood] at hne hi
      split at hne
      · next ho =>
        obtain ⟨hretry, _⟩ := ite_ne_right_iff.mp hne
        simp only [ho, hretry, if_true] at hi
        exact absurd hcalled hi
      · exact absurd rfl hne
    | buttonSetToFailed => exact absurd hcalled hi
    | buttonSetToDone | buttonRequeue | buttonCancelled => exact absurd rfl hne
    | _ => cases hcalled

/-- A dated table stays dated exactly when an event takes no on_done job along into a
failure. -/
theorem Commits.dated_iff {guard : World → Event → Prop} (h : w.Commits e s')
    (hreach : Reachable guard w) (hdated : ∀ i r, w.store.get? i = some r → r.Dated) :
    (∀ i r, s'.get? i = some r → r.Dated) ↔ w.TakesNoneAlong e := by
  constructor
  · intro hdated'
    rw [TakesNoneAlong, List.eq_nil_iff_forall_not_mem]
    intro i hi
    obtain ⟨r, hr, hw, hd, hself, j, hj, _⟩ := mem_takenAlong.mp hi
    have hne : w.failsForGood e ≠ [] := List.ne_nil_of_mem hj
    have hfailed := (h.stateOf_takenAlong hne hr hw hd hself).1 hi
    obtain ⟨r', hr', heffect⟩ := h.row hr
    rw [stateOf, hr', Option.map_some, Option.some.injEq] at hfailed
    -- The row has failed with the stamp that it had while it was waiting.
    have hstamp : r'.stamp = none := by
      rw [Job.stamp, hfailed]
      exact (heffect.completedAt hw hfailed hne hself).trans (hreach.completedAt_of_waiting hr hw)
    have hsome := hdated' i r' hr' (by rw [hfailed]; rfl)
    rw [hstamp] at hsome
    cases hsome
  · intro hnone i r' hr'
    rcases h.stamps with hrows | ⟨env, args, eta, j, _, hcreate⟩
    · obtain ⟨r, hr, hstamped⟩ := hrows.row_before hr'
      cases hstamped with
      | kept hs _ hcompleted hcancelled => exact (hdated i r hr).congr hs hcompleted hcancelled
      | moved _ hd => exact hd
      | failed hfails hw hd hs =>
        have htaken := (h.stateOf_takenAlong hfails.1 hr hw hd hfails.2).2
        exact absurd hnone (htaken (by rw [stateOf, hr', Option.map_some, hs]))
    · rcases get?_create_cases hcreate hr' with ⟨_, rfl⟩ | hr
      · apply dated_of_not_terminal
        rw [JobState.isTerminal, isActive_enqueueVals]
        rfl
      · exact hdated i r' hr

/-- Over a run, every finished job of every state can be collected exactly when no event takes
an on_done job along into a failure. -/
theorem collectable_iff_takesNoneAlong {past : List (World × Event)} (h : Trace past w) :
    w.Collectable ∧ Each (fun _ w _ ↦ w.Collectable) past ↔
      Each (fun _ w e ↦ w.TakesNoneAlong e) past := by
  induction h with
  | init now =>
    refine iff_of_true ⟨collectable_iff_dated.mpr fun i r hr ↦ ?_, trivial⟩ trivial
    cases (get?_empty i).symm.trans hr
  | @step past w w' e htrace hs ih =>
    obtain ⟨s', hc, rfl⟩ := hs
    have hstep (hw : w.Collectable) : (w.after e s').Collectable ↔ w.TakesNoneAlong e :=
      collectable_iff_dated.trans
        (hc.dated_iff htrace.reachable (collectable_iff_dated.mp hw))
    constructor
    · rintro ⟨hw', hw, hpast⟩
      exact ⟨(hstep hw).mp hw', ih.mp ⟨hw, hpast⟩⟩
    · rintro ⟨hnone, hg⟩
      obtain ⟨hw, hpast⟩ := ih.mpr hg
      exact ⟨(hstep hw).mpr hnone, hw, hpast⟩

end Step

/-! ### A barrier behind a failing job -/

/-- Worker 0 acquires a job. -/
def acquireNext : Event := .acquireJobLock { workerUuid := 0 } (fun _ ↦ none) fun _ ↦ false

/-- A job with one retry and a barrier on it, and an attempt at the job. -/
def memberStarts : List Event := [
  .enqueue {} { modelName := "res.partner", methodName := "ping", maxRetries := some 1 },
  .enqueue {} { modelName := "res.partner", methodName := "pong", dependencyJobIds := some [1] },
  acquireNext]

/-- The attempt succeeds, and somebody gives the barrier up. -/
def memberSucceeds : List Event :=
  memberStarts ++ [.finalizeJob ⟨2, { workerUuid := 0 }, 1⟩ none, .buttonSetToFailed [2]]

/-- The attempt and the retry raise. -/
def memberFails : List Event := memberStarts ++ [
  .handleException ⟨2, { workerUuid := 0 }, 1⟩ .exception "", .tick 20000000, acquireNext,
  .handleException ⟨5, { workerUuid := 0 }, 1⟩ .exception ""]

/-- A finished group is collected. -/
theorem collectable_iff_takesNoneAlong_memberSucceeds : ∃ past w, Trace past w ∧
    (w.store.stateOf 1, w.store.stateOf 2) = (some .done, some .failed) ∧ w.Collectable := by
  have hrun : (script [] (init 0) memberSucceeds).map (fun (past, w) ↦
      ((w.store.stateOf 1, w.store.stateOf 2),
        decide (Each (fun _ w e ↦ w.TakesNoneAlong e) past))) =
      some ((some .done, some .failed), true) := by decide +kernel
  obtain ⟨⟨past, w⟩, hs, hw⟩ := Option.map_eq_some_iff.mp hrun
  simp only [Prod.mk.injEq, decide_eq_true_eq] at hw
  have htrace := trace_of_script (.init 0) hs
  exact ⟨past, w, htrace, by simp [hw.1], ((collectable_iff_takesNoneAlong htrace).mpr hw.2).1⟩

/-- The barrier of a failed member has failed without a stamp. -/
theorem not_collectable_memberFails : ¬ ∀ past w, Trace past w → w.Collectable := by
  intro hall
  have hrun : (script [] (init 0) memberFails).map (fun (_, w) ↦
      ((w.store.get? 2).map fun r ↦ (r.state, r.stamp))) = some (some (.failed, none)) := by
    decide +kernel
  obtain ⟨⟨past, w⟩, hs, hw⟩ := Option.map_eq_some_iff.mp hrun
  obtain ⟨r, hr, hw⟩ := Option.map_eq_some_iff.mp hw
  simp only [Prod.mk.injEq] at hw
  have hd := collectable_iff_dated.mp (hall past w (trace_of_script (.init 0) hs)) 2 r hr
  rw [Job.Dated, hw.1, hw.2] at hd
  cases hd rfl

end World
end JobWorker
