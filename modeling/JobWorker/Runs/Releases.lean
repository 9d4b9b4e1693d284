import JobWorker.Runs.WorkerRuns

/-!
# When a waiting job is released

A job that waits for the success of others is released by the event that completes the last
of them, and by no other (`job_worker/models/queue_job.py:551–588,743–803`). Its counter
starts at the number of entries of `dependency_job_ids` and is decremented once for each
job, so a job that lists another one twice is never released.
-/

namespace JobWorker

/-- How many entries of the dependencies are repetitions. -/
def Job.repeats (r : Job) : Nat := r.dependencies.length - r.dependencies.toFinset.card

/-- Equal wiring, equal repetitions. -/
theorem Job.repeats_of_wiring {a b : Job} (h : a.wiring = b.wiring) : a.repeats = b.repeats := by
  rw [repeats, repeats, dependencies_of_wiring h]

/-- Nothing is repeated in a list without duplicates. -/
theorem Job.repeats_eq_zero_iff {r : Job} : r.repeats = 0 ↔ r.dependencies.Nodup := by
  have hle := r.dependencies.toFinset_card_le
  rw [repeats, ← List.dedup_eq_self, List.card_toFinset] at *
  refine ⟨fun h ↦ ?_, fun h ↦ by rw [h, Nat.sub_self]⟩
  exact (List.dedup_sublist r.dependencies).eq_of_length (by omega)

/-- The job with the prerequisites of `r₀` has not been released: it waits with an exact
counter, for a job that is not done unless its dependencies repeat, or it has ended because
a prerequisite has ended otherwise. -/
inductive Store.Held (s : Store) (i : JobId) (r₀ : Job) : Prop
  | waits {r : Job} : s.get? i = some r → r.isWaiting = true → r.wiring = r₀.wiring →
      r.pendingDependencyCount = (s.notDone r).card + r.repeats →
      (r.repeats = 0 → ∃ p, r.WaitsOn p ∧ s.stateOf p ≠ some .done) → Held s i r₀
  | ended {p : JobId} : r₀.WaitsOn p →
      s.stateOf p = some .failed ∨ s.stateOf p = some .cancelled →
      s.stateOf i = some .failed ∨ s.stateOf i = some .cancelled → Held s i r₀

/-- A held job is not released. -/
theorem Store.Held.not_released {s : Store} {i : JobId} {r₀ : Job} (h : s.Held i r₀) :
    ¬ s.Released i := by
  rintro hrel
  cases h with
  | waits hr hw =>
    rw [Released, Store.stateOf_of_get? hr, Job.isWaiting_iff.mp hw] at hrel
    rcases hrel with h | h | h <;> cases h
  | ended _ _ hs =>
    rcases hs with hs | hs <;> rcases hrel with h | h | h <;> cases hs.symm.trans h

/-- Without repetitions it has a prerequisite that is not done. -/
theorem Store.Held.exists_waitsOn {s : Store} {i : JobId} {r₀ : Job} (h : s.Held i r₀)
    (hdistinct : r₀.repeats = 0) : ∃ p, r₀.WaitsOn p ∧ s.stateOf p ≠ some .done := by
  cases h with
  | waits _ _ hwire _ hopen =>
    obtain ⟨p, hp, hs⟩ := hopen (by rwa [Job.repeats_of_wiring hwire])
    exact ⟨p, (Job.waitsOn_of_wiring hwire).mp hp, hs⟩
  | ended hp hs =>
    refine ⟨_, hp, fun hd ↦ ?_⟩
    rcases hs with hs | hs <;> cases hs.symm.trans hd

namespace World

section Release

variable {w w' : World} {e : Event} {s' : Store} {i j p : JobId} {r r' r₀ : Job}
  {steps : List (World × Event × World)}

/-- A row that goes on waiting is not settled. -/
theorem not_settledBy_of_waits (hg : w.ByWorkers e) (h : w.Commits e s')
    (hr : w.store.get? i = some r) (hw : r.isWaiting = true) (hr' : s'.get? i = some r')
    (hw' : r'.isWaiting = true) : ¬ SettledBy e r := by
  rintro ⟨j, he, hj⟩
  have hs' : s'.stateOf i = some .waiting := by
    rw [Store.stateOf_of_get? hr', Job.isWaiting_iff.mp hw']
  cases h with
  | @finalizeJob a _ _ _ hf =>
    obtain rfl : a.job = j := List.head_eq_of_cons_eq he
    have hi : i ≠ a.job := by
      rintro rfl
      have hstarted := started_of_holds hg hr
      rw [Job.isWaiting_iff.mp hw] at hstarted
      cases hstarted
    rcases (CompletesSuccessfully.finalizeJob hf).waiting_cases hi hr hw with ⟨_, hs⟩ |
      ⟨_, _, hs⟩ | ⟨_, _, _, _, hparent, hrel, _⟩
    · cases hs'.symm.trans hs
    · rw [hs] at hs'
      revert hs'
      cases r.runOnFailure <;> exact nofun
    · rcases hj with hp | hrel'
      · exact hparent hp
      · exact hrel hrel'
  | runNow | buttonSetToDone => cases hg
  | _ => cases he

/-- A row with an exact counter that goes on waiting has a prerequisite left that is not
done. -/
theorem exists_open_of_waits (hg : w.ByWorkers e) (h : w.Commits e s')
    (hr : w.store.get? i = some r) (hw : r.isWaiting = true) (hr' : s'.get? i = some r')
    (hw' : r'.isWaiting = true) (hcount : r.pendingDependencyCount = (w.store.notDone r).card)
    (hparent : ∀ p, r.parentId = some p → p ∉ completes e)
    (hopen : ∃ p, r.WaitsOn p ∧ w.store.stateOf p ≠ some .done) :
    ∃ p, r.WaitsOn p ∧ s'.stateOf p ≠ some .done := by
  obtain ⟨p, hp, hs⟩ := hopen
  by_contra hall
  have hdone {q : JobId} (hq : r.WaitsOn q) : s'.stateOf q = some .done := by
    by_contra hn
    exact hall ⟨q, hq, hn⟩
  -- The job that the event completes was the last one open.
  have hmem := mem_completes_of_done hg h hs (hdone hp)
  obtain ⟨hone, -, -⟩ := done_of_mem_completes hg h hmem
  have hdep : r.dependsOn p = true := hp.resolve_left fun hp ↦ hparent p hp hmem
  have hempty : s'.notDone r = ∅ := Finset.filter_eq_empty_iff.mpr fun q hq ↦ not_not.mpr
    (hdone (.inr (Job.dependsOn_iff.mpr (List.mem_toFinset.mp hq))))
  have hlisted : r.listed [p] = 1 := by simp [Job.listed, hdep]
  have hcard := card_notDone_eq (r := r) hg h
  rw [hone, hempty, Finset.card_empty] at hcard
  refine not_settledBy_of_waits hg h hr hw hr' hw' ⟨p, hone, .inr ⟨by omega, ?_⟩⟩
  omega

/-- One event keeps a job held, or releases it; it is not released while its dependencies
repeat. -/
theorem held_of_commits (hon : r₀.runOnFailure = false)
    (hsingle : r₀.parentId = none ∨ r₀.dependencies = []) (hheld : w.store.Held i r₀)
    (hg : w.ByWorkers e) (h : w.Commits e s') :
    s'.Held i r₀ ∨ r₀.repeats = 0 ∧ s'.Released i := by
  have hfinal {k : JobId} {st : JobState} (hs : w.store.stateOf k = some st)
      (ht : st.isTerminal = true) : s'.stateOf k = some st := by
    obtain ⟨q, hq, rfl⟩ := Store.stateOf_eq_some.mp hs
    exact state_of_terminal hg h hq ht
  cases hheld with
  | ended hp hs hi =>
    exact .inl (.ended hp (hs.imp (hfinal · rfl) (hfinal · rfl))
      (hi.imp (hfinal · rfl) (hfinal · rfl)))
  | @waits r hr hw hwire hcount hopen =>
    have hon' : r.runOnFailure = false := (Job.runOnFailure_of_wiring hwire).trans hon
    have hd := Job.dependencies_of_wiring hwire
    have hcard := card_notDone_eq (r := r) hg h
    rw [← Job.repeats_of_wiring hwire]
    cases h.waitingEffect hg hr hw with
    | promoted hon => cases hon'.symm.trans hon
    | passedOver hon => cases hon'.symm.trans hon
    | failed _ hp hf hs =>
      exact .inl (.ended ((Job.waitsOn_of_wiring hwire).mp hp) (.inl hf) (.inl hs))
    | cancelled hp hc hs =>
      exact .inl (.ended ((Job.waitsOn_of_wiring hwire).mp (.inl hp)) (.inr hc) (.inr hs))
    | released _ hsettled hs =>
      refine .inr ⟨?_, .inl hs⟩
      obtain ⟨j, he, hparent | ⟨hlisted, hzero⟩⟩ := hsettled
      · rw [Job.parentId_of_wiring hwire] at hparent
        have hnil := hd.trans (hsingle.resolve_left (by simp [hparent]))
        rw [Job.repeats, hnil]
        rfl
      · rw [he] at hcard
        omega
    | @waits r' hr' hw' hwire' hcount' _ hparent =>
      refine .inl (.waits hr' hw' (hwire'.trans hwire) ?_ fun hdistinct ↦ ?_)
      · rw [hcount', hcount, notDone_of_wiring hwire', Job.repeats_of_wiring hwire']
        omega
      · rw [Job.repeats_of_wiring hwire'] at hdistinct
        obtain ⟨p, hp, hs⟩ := exists_open_of_waits hg h hr hw hr' hw' (by omega) hparent
          (hopen hdistinct)
        exact ⟨p, (Job.waitsOn_of_wiring hwire').mpr hp, hs⟩

/-- The worlds of a run. -/
def worlds (w' : World) (steps : List (World × Event × World)) : List World :=
  w' :: steps.map Prod.fst

/-- Along a run a job is held until it is released. -/
theorem WorkerPath.held (h : WorkerPath w steps w') (hon : r₀.runOnFailure = false)
    (hsingle : r₀.parentId = none ∨ r₀.dependencies = []) (hheld : w.store.Held i r₀) :
    w'.store.Held i r₀ ∨ r₀.repeats = 0 ∧ ∃ v ∈ worlds w' steps, v.store.Released i := by
  induction h with
  | refl => exact .inl hheld
  | step _ hg hs ih =>
    obtain ⟨s', hc, rfl⟩ := hs
    rcases ih with hheld | ⟨hdistinct, v, hv, hrel⟩
    · rcases held_of_commits hon hsingle hheld hg hc with hheld' | ⟨hdistinct, hrel⟩
      · exact .inl hheld'
      · exact .inr ⟨hdistinct, _, List.mem_cons_self, hrel⟩
    · exact .inr ⟨hdistinct, v, List.mem_cons_of_mem _ hv, hrel⟩

/-- The last world of a run comes behind all its worlds. -/
theorem WorkerPath.run_of_mem_worlds (h : WorkerPath w steps w') {v : World}
    (hv : v ∈ worlds w' steps) : WorkerRun v w' := by
  induction h with
  | refl =>
    obtain rfl := List.mem_singleton.mp hv
    exact .refl
  | step _ hg hs ih =>
    rcases List.mem_cons.mp hv with rfl | hv
    · exact .refl
    · exact (ih hv).step hg hs

/-- Every world of a run ends a run that it goes on from. -/
theorem WorkerPath.upTo (h : WorkerPath w steps w') {v : World} (hv : v ∈ worlds w' steps) :
    ∃ steps', WorkerPath w steps' v ∧ ∀ v' ∈ worlds v steps', v' ∈ worlds w' steps := by
  induction h with
  | refl =>
    obtain rfl := List.mem_singleton.mp hv
    exact ⟨[], .refl, fun _ ↦ id⟩
  | @step w₁ w₂ e steps h hg hs ih =>
    rcases List.mem_cons.mp hv with rfl | hv
    · exact ⟨_, h.step hg hs, fun _ ↦ id⟩
    · obtain ⟨steps', hpath, hsub⟩ := ih hv
      exact ⟨steps', hpath, fun v' hv' ↦ List.mem_cons_of_mem _ (hsub v' hv')⟩

/-- The first world of a run is one of its worlds. -/
theorem WorkerPath.mem_worlds (h : WorkerPath w steps w') : w ∈ worlds w' steps := by
  induction h with
  | refl => exact List.mem_cons_self
  | step _ _ _ ih => exact List.mem_cons_of_mem _ ih

/-- What is done stays done in a run. -/
theorem WorkerRun.done (h : WorkerRun w w') (hd : w.store.stateOf j = some .done) :
    w'.store.stateOf j = some .done := by
  induction h with
  | refl => exact hd
  | step _ hg hs ih =>
    obtain ⟨s', hc, rfl⟩ := hs
    exact done_of_commits hg hc ih

end Release

end World
end JobWorker
