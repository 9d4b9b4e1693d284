import JobWorker.Graphs.Walks
import JobWorker.Runs.Releases

/-!
# Callbacks of several schedulers

A delayable that is attached with `on_done` to any number of schedulers
(`job_worker/delay.py:120–165,240–331`, `docs/job-graphs.md:58–70`). Its job waits for the
jobs of one of them, the first one in the order of the traversal.
-/

namespace JobWorker

open Delaying Session World

namespace Delaying

/-- Calls of `delay` one after another in a transaction. -/
def delayEach (env : DelayEnv) (fuel : Nat) : List Ref → Delaying Unit
  | [] => return ()
  | root :: roots => do
    let _ ← delay env fuel root
    delayEach env fuel roots

/-- They are a loop that assigns nothing. -/
theorem visits_of_delayEach {env : DelayEnv} {fuel : Nat} {roots : List Ref} {st st' : Session}
    (self : Ref) (previous : Option JobId) (first : Bool)
    (h : Returns (delayEach env fuel roots) st () st') :
    ∃ jobs, Visits (delay env fuel) self (fun _ _ _ d ↦ d) previous first roots st jobs st' := by
  induction roots generalizing st previous first with
  | nil =>
    obtain ⟨_, rfl⟩ := returns_pure.mp h
    exact ⟨[], .nil⟩
  | cons root roots ih =>
    obtain ⟨job, st₁, hdelay, h⟩ := returns_bind.mp h
    obtain ⟨jobs, hrest⟩ := ih job false h
    have hassign : Returns (assign root fun d ↦ d) st () st := by
      unfold Returns assign
      rw [Function.update_eq_self]
      rfl
    exact ⟨job :: jobs, .cons hassign hdelay hrest⟩

end Delaying

/-- A delayable `c` that nobody has wired, with a free identity key, attached with on_done to
`sources` below `roots`, and what the calls of `delay` for the roots make of it when the jobs
go to the queue. -/
structure SharedCallback (env : DelayEnv) (st : Session) (c : Ref)
    (roots refs sources : List Ref) (st' : Session) : Prop where
  walk : Walk st.heap c none roots refs sources
  delayable : ∃ call properties, (st.heap c).cls = .delayable call properties none
  unwired : (st.heap c).context = {}
  freeKey : ∀ k, (st.heap c).identityKey = some k →
    findByIdentityKey env.orm st.store k = none ∧ ∀ a ∈ refs, (st.heap a).identityKey ≠ some k
  known : st.Known
  positiveIds : st.store.PositiveIds
  queued : env.mustRunWithoutDelay = false
  returns : ∃ fuel, Returns (delayEach env fuel roots) st () st'

/-- `c` has one job, which is new: every other new row is the job of another delayable. -/
def EnqueuedOnce (st st' : Session) (c : Ref) : Prop :=
  ∃ j, st'.jobOf c = some j ∧ st.store.get? j = none ∧ (st'.store.get? j).isSome = true ∧
    ∀ i row, st'.store.get? i = some row → st.store.get? i = none → i ≠ j →
      ∃ a, a ≠ c ∧ st'.jobOf a = some i

/-- The scheduler has completed: its job is done, or all its members or steps have
completed. -/
inductive Session.Completed (st : Session) (s : Store) : Ref → Prop
  | delayable {x : Ref} {j : JobId} : st.jobOf x = some j → s.stateOf j = some .done →
      Completed st s x
  | compound {x : Ref} {delayables : List Ref} : (st.heap x).Comprises delayables →
      (∀ d ∈ delayables, Completed st s d) → Completed st s x

/-- In no world of the run `c` is released before all sources have completed. -/
def WaitsForSources (st' : Session) (c : Ref) (sources : List Ref) (run : List World) : Prop :=
  ∀ v ∈ run, ∀ j, st'.jobOf c = some j → v.store.Released j →
    ∀ s ∈ sources, st'.Completed v.store s

/-- In every world of the run in which the jobs that `first` hands on are done, all sources
have completed. -/
def CompletesLast (st' : Session) (first : Ref) (sources : List Ref) (run : List World) : Prop :=
  ∀ v ∈ run, (st'.prerequisites first).Open v.store → ∀ s ∈ sources, st'.Completed v.store s

section Shared

variable {env : DelayEnv} {st st' : Session} {c first p : Ref} {roots refs sources rest : List Ref}
  {s s' : Store} {w w' : World} {steps : List (World × Event × World)}

/-- What has completed stays so while what is done stays done. -/
theorem Session.Completed.mono {x : Ref} (h : st.Completed s x)
    (hdone : ∀ j, s.stateOf j = some .done → s'.stateOf j = some .done) : st.Completed s' x := by
  induction h with
  | delayable hj hd => exact .delayable hj (hdone _ hd)
  | compound hcls _ ih => exact .compound hcls ih

/-- The job of a delayable that has completed is done. -/
theorem Session.Completed.done {x : Ref} {j : JobId} (h : st.Completed s x)
    (hj : st.jobOf x = some j) : s.stateOf j = some .done := by
  cases h with
  | delayable hi hd => rwa [← Option.some.inj (hi.symm.trans hj)]
  | compound hcomp =>
    rw [jobOf_of_comprises hcomp] at hj
    cases hj

/-- The jobs of a scheduler are its own or those of its members. -/
theorem exists_of_mem_jobsOf {q : JobId} (h : q ∈ st.jobsOf p) : st.jobOf p = some q ∨
    ∃ delayables, (st.heap p).Comprises delayables ∧ ∃ d ∈ delayables, st.jobOf d = some q := by
  unfold jobsOf at h
  split at h
  · next hcls =>
    rw [jobOf, hcls]
    exact .inl (Option.mem_toList.mp h)
  · next hcls =>
    obtain ⟨d, hd, hq⟩ := List.mem_filterMap.mp h
    exact .inr ⟨_, .inl hcls, d, hd, hq⟩
  · next hcls =>
    obtain ⟨d, hd, hq⟩ := List.mem_filterMap.mp h
    exact .inr ⟨_, .inr hcls, d, hd, hq⟩

/-- When ids start at 1, no generated job has a falsy id. -/
theorem jobOf_ne_zero (hknown : st.Known) (hids : st.store.PositiveIds) (x : Ref) :
    st.jobOf x ≠ some 0 := by
  intro hx
  obtain ⟨call, properties, job, hcls⟩ := isDelayable_of_jobOf hx
  rw [jobOf, hcls] at hx
  obtain rfl : job = some 0 := hx
  obtain ⟨row, hrow⟩ := hknown x call properties 0 hcls
  cases hids.2.symm.trans hrow

/-- The callback has the wiring of its first source. -/
theorem SharedCallback.wiredBehind (h : SharedCallback env st c roots refs (first :: rest) st') :
    st.Extends st' ∧ WiredBehind c first st st' := by
  obtain ⟨fuel, hreturns⟩ := h.returns
  obtain ⟨jobs, hvisits⟩ := visits_of_delayEach c none true hreturns
  obtain ⟨call, properties, hcls⟩ := h.delayable
  have hlinks : ∀ (_ : Scheduler) (_ : Option JobId) (_ : Bool) (d : Scheduler), d.SameLinks d :=
    fun _ _ _ _ ↦ ⟨rfl, rfl, rfl⟩
  have hkeeps := (settles_of_visits (fun _ _ _ _ ↦ settles_of_delay h.queued) hvisits hlinks).keeps
  have hspec := walkSpec_of_walk h.queued hcls h.unwired h.walk fun a ha k hk ↦
    (h.freeKey k hk).2 a ha
  have hfresh : st.Finished st.heap refs := fun y hy hsome ↦ by
    rw [h.walk.jobOf_eq_none y hy] at hsome
    cases hsome
  have hhands := hspec fuel c _ none true st st' jobs hlinks (fun s hs ↦ by cases hs) (.refl st)
    ⟨rfl, fun k hk ↦ (h.freeKey k hk).1⟩ hfresh hvisits
  exact ⟨hkeeps, hhands.wired first rfl⟩

/-- The callback is enqueued once. -/
theorem SharedCallback.enqueuedOnce (h : SharedCallback env st c roots refs (first :: rest) st') :
    EnqueuedOnce st st' c := by
  obtain ⟨hkeeps, _, u, j, row, hj, hnew, hrow, _⟩ := h.wiredBehind
  refine ⟨j, hj, hnew, by rw [hrow]; rfl, fun i row' hr hfresh hne ↦ ?_⟩
  rcases hkeeps.newRows i row' hr with hold | ⟨a, _, ha⟩
  · cases hfresh.symm.trans hold
  · refine ⟨a, ?_, ha⟩
    rintro rfl
    exact hne (Option.some.inj (ha.symm.trans hj))

/-- The prerequisites that its first source hands on are not done behind the calls. -/
theorem SharedCallback.open_prerequisite
    (h : SharedCallback env st c roots refs (first :: rest) st') {q : JobId}
    (hq : (st'.prerequisites first).WaitsOn q) : st'.store.stateOf q ≠ some .done := by
  have hkeeps := h.wiredBehind.1
  obtain ⟨call, properties, hcls⟩ := h.delayable
  have hactive {x : Ref} (hnone : st.jobOf x = none) (hx : st'.jobOf x = some q) :
      st'.store.stateOf q ≠ some .done := by
    obtain ⟨row, hrow, hact⟩ := hkeeps.active x q hnone hx
    rw [Store.stateOf_of_get? hrow]
    intro hd
    rw [Option.some.inj hd] at hact
    cases hact
  obtain ⟨hnone, hmembers⟩ := (h.walk.source (by rw [jobOf, hcls]) List.mem_cons_self).resolve_left
    nofun
  rcases exists_of_mem_jobsOf (mem_jobsOf_of_waitsOn hq) with hx | ⟨delayables, hcomp, d, hd, hx⟩
  · exact hactive hnone hx
  · exact hactive (hmembers _ ((comprises_of_shape (hkeeps.shape first) _).mp hcomp) d hd) hx

/-- The row of the callback, behind the calls. -/
theorem SharedCallback.row (h : SharedCallback env st c roots refs (first :: rest) st') :
    ∃ c' j row, st'.jobOf c = some j ∧ st'.store.get? j = some row ∧ Enqueued c' row ∧
      c'.Sound ∧ c'.runOnFailure = false ∧ c'.dependencyJobIds =
        (st'.prerequisites first).dependencyJobIds ∧
      ∀ q, c'.WaitsOn q ↔ (st'.prerequisites first).WaitsOn q := by
  obtain ⟨hkeeps, _, u, j, row, hj, _, hrow, hcols⟩ := h.wiredBehind
  have hpos := jobOf_ne_zero (hkeeps.known h.known) (hkeeps.positiveIds h.positiveIds)
  have hsound : (st'.prerequisites first).Sound :=
    prerequisites_sound (hpos first) fun _ _ d _ ↦ hpos d
  exact ⟨_, j, row, hj, hrow, hcols, ⟨hsound.parent, hsound.single⟩,
    runOnFailure_prerequisites, rfl, fun q ↦ Iff.rfl⟩

/-- A new row that waits for the success of jobs that are not done is held; without such
jobs it is released at once. -/
theorem Context.held_or_released {c : Context} {row : Job} {i : JobId} (h : Enqueued c row)
    (hc : c.Sound) (hrow : s.get? i = some row)
    (hopen : ∀ q, c.WaitsOn q → s.stateOf q ≠ some .done) :
    s.Held i row ∨ s.Released i ∧ ∀ q, ¬ c.WaitsOn q := by
  by_cases hwaits : ∃ q, c.WaitsOn q
  · obtain ⟨q, hq⟩ := hwaits
    have hstate : row.state = .waiting := by
      rw [h.state, if_pos]
      rcases hq with hq | hq
      · refine .inl ?_
        rw [hq]
        simpa [hq] using hc.parent
      · exact .inr (List.ne_nil_of_mem hq)
    have hnotDone : s.notDone row = row.dependencies.toFinset := by
      refine Finset.filter_true_of_mem fun d hd ↦ hopen d (.inr ?_)
      rwa [List.mem_toFinset, Job.dependencies, h.dependencyJobIds] at hd
    have hcount : row.pendingDependencyCount = (row.dependencies.length : Int) := by
      rw [h.count, Job.dependencies, h.dependencyJobIds]
    refine .inl (.waits hrow (Job.isWaiting_iff.mpr hstate) rfl ?_ fun _ ↦
      ⟨q, (Context.waitsOn_iff h hc q).mpr hq, hopen q hq⟩)
    have hle := row.dependencies.toFinset_card_le
    rw [hcount, hnotDone, Job.repeats]
    omega
  · rw [not_exists] at hwaits
    refine .inr ⟨.inl ?_, hwaits⟩
    rw [Store.stateOf_of_get? hrow, h.state, if_neg]
    rintro (hp | hd)
    · cases hparent : c.parentJobId with
      | none => rw [hparent] at hp; cases hp
      | some q => exact hwaits q (.inl hparent)
    · obtain ⟨q, hq⟩ := List.exists_mem_of_ne_nil _ hd
      exact hwaits q (.inr hq)

/-- In a run behind the calls, a shared callback is enqueued once and waits for all its
sources exactly when the first one completes last, or names a job twice. -/
theorem SharedCallback.waitsForSources_iff
    (h : SharedCallback env st c roots refs (first :: rest) st') (hw : w.store = st'.store)
    (hpath : WorkerPath w steps w') :
    EnqueuedOnce st st' c ∧ WaitsForSources st' c (first :: rest) (worlds w' steps) ↔
      CompletesLast st' first (first :: rest) (worlds w' steps) ∨
        ¬ ((st'.prerequisites first).dependencyJobIds.getD []).Nodup := by
  obtain ⟨c', j, row, hj, hrow, hcols, hsound, hon, hdeps, hwaits⟩ := h.row
  have hopen (s : Store) : c'.Open s ↔ (st'.prerequisites first).Open s := by
    simp only [Context.Open, hon, runOnFailure_prerequisites, hwaits]
  have hdistinct : row.repeats = 0 ↔
      ((st'.prerequisites first).dependencyJobIds.getD []).Nodup := by
    rw [Job.repeats_eq_zero_iff, Job.dependencies, hcols.dependencyJobIds, hdeps]
  have hrowOn : row.runOnFailure = false := hcols.runOnFailure.trans hon
  have hsingle : row.parentId = none ∨ row.dependencies = [] := by
    rw [Job.dependencies, hcols.dependencyJobIds, hcols.parentId]
    exact hsound.single.imp_left fun hn ↦ by rw [hn]; rfl
  rw [← hw] at hrow
  have hstart := Context.held_or_released hcols hsound hrow fun q hq ↦
    hw ▸ h.open_prerequisite ((hwaits q).mp hq)
  constructor
  · rintro ⟨_, hlaw⟩
    by_contra hn
    rw [not_or, not_not] at hn
    obtain ⟨hlast, hnodup⟩ := hn
    refine hlast fun v hv hvopen x hx ↦ ?_
    obtain ⟨steps', hpath', hsub⟩ := hpath.upTo hv
    -- Somewhere up to `v` the callback has been released.
    obtain ⟨v₀, hv₀, hrel⟩ : ∃ v₀ ∈ worlds v steps', v₀.store.Released j := by
      rcases hstart with hheld | ⟨hrel, _⟩
      · rcases hpath'.held hrowOn hsingle hheld with hheld' | ⟨_, hex⟩
        · obtain ⟨p, hp, hopenp⟩ := hheld'.exists_waitsOn (hdistinct.mpr hnodup)
          rw [← hopen, Context.Open, if_neg (by simp [hon])] at hvopen
          exact absurd (hvopen p ((Context.waitsOn_iff hcols hsound p).mp hp)) hopenp
        · exact hex
      · exact ⟨w, hpath'.mem_worlds, hrel⟩
    exact (hlaw v₀ (hsub v₀ hv₀) j hj hrel x hx).mono fun i hi ↦
      (hpath'.run_of_mem_worlds hv₀).done hi
  · refine fun hcond ↦ ⟨h.enqueuedOnce, fun v hv j' hj' hrel x hx ↦ ?_⟩
    obtain rfl := Option.some.inj (hj.symm.trans hj')
    obtain ⟨steps', hpath', _⟩ := hpath.upTo hv
    rcases hcond with hlast | hdup
    · have hdecided : c'.Decided := fun h ↦ by cases hon.symm.trans h
      have hopenv := Context.open_of_released hcols hsound hdecided hrow hpath'.run hrel
      exact hlast v hv ((hopen _).mp hopenv) x hx
    · rcases hstart with hheld | ⟨_, hnone⟩
      · rcases hpath'.held hrowOn hsingle hheld with hheld' | ⟨hzero, _⟩
        · exact absurd hrel hheld'.not_released
        · exact absurd (hdistinct.mp hzero) hdup
      · have hnil : (st'.prerequisites first).dependencyJobIds.getD [] = [] :=
          List.eq_nil_iff_forall_not_mem.mpr fun q hq ↦ hnone q ((hwaits q).mpr (.inr hq))
        exact absurd (by rw [hnil]; exact List.nodup_nil) hdup

end Shared

/-! ### Two jobs with one callback -/

/-- The session behind calls that return. -/
def delayedEach (env : DelayEnv) (fuel : Nat) (roots : List Ref) (st : Session) :
    Option Session :=
  match (delayEach env fuel roots st).run with
  | some (.ok (_, st')) => some st'
  | _ => none

/-- A computed session is the one behind calls that return. -/
theorem returns_of_delayedEach {env : DelayEnv} {fuel : Nat} {roots : List Ref}
    {st st' : Session} (h : delayedEach env fuel roots st = some st') :
    Returns (delayEach env fuel roots) st () st' := by
  unfold delayedEach at h
  split at h
  · next heq =>
    cases h
    exact heq
  · cases h

/-- Objects 0 and 1, and object 2 behind object 1. -/
def twoSources (nextDelayables : List Ref) : Session where
  heap
    | 0 =>
      { cls := .delayable { modelName := "res.partner", jobMethod := some "ping" } {} none
        nextDelayables := nextDelayables }
    | 1 =>
      { cls := .delayable { modelName := "res.partner", jobMethod := some "ping" } {} none
        nextDelayables := [2] }
    | _ => { cls := .delayable { modelName := "res.partner", jobMethod := some "ping" } {} none }
  store := .empty

/-- Nothing has been delayed. -/
theorem sharedCallback_twoSources {nextDelayables roots refs sources : List Ref} {fuel : Nat}
    {st' : Session} (h : delayedEach {} fuel roots (twoSources nextDelayables) = some st')
    (hwalk : Walk (twoSources nextDelayables).heap 2 none roots refs sources) :
    SharedCallback {} (twoSources nextDelayables) 2 roots refs sources st' where
  walk := hwalk
  delayable := ⟨_, _, rfl⟩
  unwired := rfl
  freeKey _ hk := by cases hk
  known r call properties j hr := by
    unfold twoSources at hr
    dsimp only at hr
    split at hr <;> cases hr
  positiveIds := ⟨Nat.one_pos, rfl⟩
  queued := rfl
  returns := ⟨fuel, returns_of_delayedEach h⟩

/-- Behind two jobs that are delayed one after the other the callback is pending when the
first one is done. -/
theorem not_waitsForSources_twoSources : ¬ ∀ (env : DelayEnv) (st : Session) (c : Ref)
    (roots refs sources : List Ref) (st' : Session) (w w' : World)
    (steps : List (World × Event × World)), SharedCallback env st c roots refs sources st' →
    sources ≠ [] → w.store = st'.store → WorkerPath w steps w' →
    EnqueuedOnce st st' c ∧ WaitsForSources st' c sources (worlds w' steps) := by
  intro hall
  have hrun : ((delayedEach {} 4 [0, 1] (twoSources [2])).bind fun st' ↦
      (play [] { store := st'.store, now := 0 } [
        .acquireJobLock { workerUuid := 0 } (fun _ ↦ none) fun _ ↦ false,
        .finalizeJob ⟨0, { workerUuid := 0 }, 1⟩ none]).map fun (_, w') ↦
          (st'.jobOf 2, st'.jobOf 1, w'.store.stateOf 2, w'.store.stateOf 3)) =
      some (some 2, some 3, some .pending, some .pending) := by decide +kernel
  obtain ⟨st', hdelay, hplay⟩ := Option.bind_eq_some_iff.mp hrun
  obtain ⟨⟨steps, w'⟩, hplay, hout⟩ := Option.map_eq_some_iff.mp hplay
  simp only [Prod.mk.injEq] at hout
  obtain ⟨h2, h1, hs2, hs3⟩ := hout
  have hwalk : Walk (twoSources [2]).heap 2 none [0, 1] _ _ :=
    .delayable (by decide) rfl (by decide) (.shared .nil) .nil
      (.delayable (by decide) rfl (by decide) (.shared .nil) .nil .nil)
  have hlaw := (hall {} (twoSources [2]) 2 [0, 1] [0, 1] [0, 1] st' _ w' steps
    (sharedCallback_twoSources hdelay hwalk) (by decide) rfl (workerPath_of_play .refl hplay)).2
  have hdone := (hlaw w' List.mem_cons_self 2 h2 (.inl hs2) 1 (by decide)).done h1
  cases hs3.symm.trans hdone

/-- When the second job is a callback of the first one too, the shared callback waits for
both. -/
theorem waitsForSources_iff_chained : ∃ st' w w' steps, WorkerPath w steps w' ∧
    st'.jobOf 2 = some 3 ∧ w'.store.stateOf 3 = some .pending ∧
    (EnqueuedOnce (twoSources [1, 2]) st' 2 ∧
      WaitsForSources st' 2 [1, 0] (worlds w' steps)) ∧
    CompletesLast st' 1 [1, 0] (worlds w' steps) := by
  have hrun : ((delayedEach {} 4 [0] (twoSources [1, 2])).bind fun st' ↦
      (play [] { store := st'.store, now := 0 } [
        .acquireJobLock { workerUuid := 0 } (fun _ ↦ none) fun _ ↦ false,
        .finalizeJob ⟨0, { workerUuid := 0 }, 1⟩ none,
        .acquireJobLock { workerUuid := 0 } (fun _ ↦ none) fun _ ↦ false,
        .finalizeJob ⟨2, { workerUuid := 0 }, 2⟩ none]).map fun (steps, w') ↦
          ((st'.jobOf 0, st'.jobOf 1, st'.jobOf 2), w'.store.stateOf 3,
            (worlds w' steps).all fun v ↦
              v.store.stateOf 2 ≠ some .done ∨ v.store.stateOf 1 = some .done)) =
      some ((some 1, some 2, some 3), some .pending, true) := by decide +kernel
  obtain ⟨st', hdelay, hplay⟩ := Option.bind_eq_some_iff.mp hrun
  obtain ⟨⟨steps, w'⟩, hplay, hout⟩ := Option.map_eq_some_iff.mp hplay
  simp only [Prod.mk.injEq, List.all_eq_true, decide_eq_true_eq] at hout
  obtain ⟨⟨h0, h1, h2⟩, hs3, hworlds⟩ := hout
  have hwalk : Walk (twoSources [1, 2]).heap 2 none [0] _ _ :=
    .delayable (by decide) rfl (by decide)
      (.delayable (by decide) rfl (by decide) (.shared .nil) .nil (.shared .nil)) .nil .nil
  have hpath := workerPath_of_play .refl hplay
  have hlast : CompletesLast st' 1 [1, 0] (worlds w' steps) := by
    intro v hv hopen
    rw [prerequisites_of_jobOf h1] at hopen
    have hs2 : v.store.stateOf 2 = some .done := hopen 2 (.inl rfl)
    have hs1 := (hworlds v hv).resolve_left (not_not.mpr hs2)
    rintro x hx
    rcases List.mem_pair.mp hx with rfl | rfl
    · exact .delayable h1 hs2
    · exact .delayable h0 hs1
  have hshared : SharedCallback {} (twoSources [1, 2]) 2 [0] [0, 1] [1, 0] st' :=
    sharedCallback_twoSources hdelay hwalk
  exact ⟨st', _, w', steps, hpath, h2, hs3,
    (hshared.waitsForSources_iff rfl hpath).mpr (.inl hlast), hlast⟩

end JobWorker
